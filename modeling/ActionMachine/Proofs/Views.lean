import Mathlib.Data.Nat.Find
import ActionMachine.Proofs.Dispatch
import ActionMachine.Proofs.Walks

/-
  Memory seen with only the lowest elements of the stack in view. Readers that agree on every
  reference of a walk make the same walk, so an operand that shows no hidden element is the same in
  view as in the whole memory; a walk that comes to a hidden element ends there as at a reference to
  nothing. What a view finds is there in any case. Operators see their operands only through walks,
  so all of this is true of them as well (`view_agrees_with_memory`).
-/

namespace ActionMachine

/-! ## Readers along a walk -/

namespace Reader

variable {read other : Reader} {v w : Value} {k hops : Nat}

/-- Readers that agree on the references of a walk make the same walk. -/
theorem walk_congr
    (h : ∀ j < k, ∀ target, read.walk j v = some (.reference (some target)) →
      other target = read target) : other.walk k v = read.walk k v := by
  induction k generalizing v with
  | zero => rfl
  | succ k ih =>
    cases v with
    | reference target =>
      cases target with
      | none => rfl
      | some target =>
        rw [walk, walk, h 0 (Nat.succ_pos k) target rfl]
        cases hread : read target with
        | none => rfl
        | some next =>
          refine ih fun j hj target' htarget' => h (j + 1) (Nat.succ_lt_succ hj) target' ?_
          rw [walk_reference hread, htarget']
    | _ => rfl

theorem Leads.congr {outcome : Except Fault Value} (hleads : read.Leads hops v outcome)
    (h : ∀ j < hops, ∀ target, read.walk j v = some (.reference (some target)) →
      other target = read target) : other.Leads hops v outcome := by
  have hsame : ∀ k ≤ hops, other.walk k v = read.walk k v := fun k hk =>
    walk_congr fun j hj => h j (Nat.lt_of_lt_of_le hj hk)
  cases hleads with
  | value hk hw hplain => exact .value hk ((hsame _ (Nat.le_of_lt hk)).trans hw) hplain
  | null hk hw => exact .null hk ((hsame _ (Nat.le_of_lt hk)).trans hw)
  | dangling hk hw hread =>
    exact .dangling hk ((hsame _ (Nat.le_of_lt hk)).trans hw) ((h _ hk _ hw).trans hread)
  | endless hw => exact .endless ((hsame _ (Nat.le_refl hops)).trans hw)

theorem follow_congr
    (h : ∀ j < maxHops, ∀ target, read.walk j v = some (.reference (some target)) →
      other target = read target) : other.follow v = read.follow v :=
  follow_eq_iff.2 ((follow_eq_iff.1 rfl).congr h)

theorem walk_mono (h : ∀ target u, other target = some u → read target = some u)
    (hw : other.walk k v = some w) : read.walk k v = some w := by
  induction k generalizing v with
  | zero => exact hw
  | succ k ih =>
    obtain ⟨target, next, rfl, hread, hwalk⟩ := exists_of_walk_succ hw
    rw [walk_reference (h target next hread), ih hwalk]

/-- A reader that knows more finds at least the same values. -/
theorem follow_mono (h : ∀ target u, other target = some u → read target = some u)
    (hw : other.follow v = .ok w) : read.follow v = .ok w := by
  cases follow_eq_iff.1 hw with
  | value hk hwalk hplain => exact follow_eq_iff.2 (.value hk (walk_mono h hwalk) hplain)

end Reader

/-! ## Hidden elements -/

namespace Memory

variable {m : Memory} {n i : Nat} {v w : Value} {target : CellRef}

theorem view_eq_read (h : ∀ i, target = .stack i → i < n) : m.view n target = m.read target := by
  cases target with
  | static cell => rfl
  | frame i => rfl
  | stack i =>
    show (m.stack.values.shrink n)[i]? = m.stack.values[i]?
    rw [getElem?_shrink, if_pos (h i rfl)]

theorem view_eq_none (h : n ≤ i) : m.view n (.stack i) = none := by
  show (m.stack.values.shrink n)[i]? = none
  rw [getElem?_shrink, if_neg (Nat.not_lt.2 h)]

theorem read_of_view (h : m.view n target = some v) : m.read target = some v := by
  rw [← h]
  refine (view_eq_read fun i hi => Nat.lt_of_not_le fun hle => ?_).symm
  subst hi
  rw [view_eq_none hle] at h
  cases h

/-- A view of as many elements as there are hides none. -/
theorem view_eq_read_of_le (h : m.stack.size ≤ n) (target : CellRef) :
    m.view n target = m.read target := by
  cases hread : m.read target with
  | some v =>
    rw [← hread]
    refine view_eq_read fun i hi => ?_
    subst hi
    have hlt : i < m.stack.size := (Array.getElem?_eq_some_iff.1 hread).1
    exact Nat.lt_of_lt_of_le hlt h
  | none =>
    cases hview : m.view n target with
    | none => rfl
    | some v =>
      rw [read_of_view hview] at hread
      cases hread

/-- The walk from `v` in the whole memory comes, as its value after `k` hops, to a reference to the
element `i` of the stack. -/
def Visits (m : Memory) (v : Value) (k i : Nat) : Prop :=
  k < Reader.maxHops ∧ m.read.walk k v = some (.reference (some (.stack i)))

/-- All elements that the walk from `v` comes to are among the lowest `n`. -/
def Shows (m : Memory) (n : Nat) (v : Value) : Prop := ∀ k i, m.Visits v k i → i < n

/-- The first element beyond the lowest `n` that the walk from `v` comes to is `i`. -/
def FirstHidden (m : Memory) (n : Nat) (v : Value) (i : Nat) : Prop :=
  ∃ k, m.Visits v k i ∧ n ≤ i ∧ ∀ j < k, ∀ i', m.Visits v j i' → i' < n

theorem exists_firstHidden (h : ¬ m.Shows n v) : ∃ i, m.FirstHidden n v i := by
  have hhidden : ∃ k i, m.Visits v k i ∧ n ≤ i := by
    simpa only [Shows, not_forall, Nat.not_lt, exists_prop] using h
  classical
  obtain ⟨i, hvisits, hle⟩ := Nat.find_spec hhidden
  refine ⟨i, Nat.find hhidden, hvisits, hle, fun j hj i' hi' => Nat.lt_of_not_le fun hle' => ?_⟩
  exact Nat.find_min hhidden hj ⟨i', hi', hle'⟩

/-- As long as a walk comes to no hidden element, view and memory agree on its references. -/
theorem view_eq_read_of_walk {j : Nat} (hj : j < Reader.maxHops)
    (hshown : ∀ i, m.Visits v j i → i < n)
    (hw : m.read.walk j v = some (.reference (some target))) : m.view n target = m.read target := by
  refine view_eq_read fun i hi => hshown i ⟨hj, ?_⟩
  rw [hw, hi]

theorem follow_view_of_shows (h : m.Shows n v) : (m.view n).follow v = m.follow v :=
  Reader.follow_congr fun j hj _ hw => view_eq_read_of_walk hj (h j) hw

/-- In view, a walk that comes to a hidden element ends there. -/
theorem follow_view_of_firstHidden (h : m.FirstHidden n v i) :
    (m.view n).follow v = .error (.danglingReference (.stack i)) := by
  obtain ⟨k, ⟨hk, hw⟩, hle, hbefore⟩ := h
  have hsame : (m.view n).walk k v = m.read.walk k v := Reader.walk_congr fun j hj _ hwalk =>
    view_eq_read_of_walk (Nat.lt_trans hj hk) (hbefore j hj) hwalk
  exact Reader.follow_eq_iff.2 (.dangling hk (hsame.trans hw) (view_eq_none hle))

theorem follow_of_view (h : (m.view n).follow v = .ok w) : m.follow v = .ok w :=
  Reader.follow_mono (fun _ _ => read_of_view) h

end Memory

/-! ## Operators -/

namespace UnaryOp

variable {op : UnaryOp} {read other : Reader} {v w : Value}

theorem evaluate_congr (h : other.follow v = read.follow v) :
    op.evaluate other v = op.evaluate read v := by
  rw [evaluate_eq, evaluate_eq, h]

theorem evaluate_of_error {cause : Fault} (h : read.follow v = .error cause) :
    op.evaluate read v = .error cause := by
  rw [evaluate_eq, h]
  rfl

theorem evaluate_mono (h : ∀ u, other.follow v = .ok u → read.follow v = .ok u)
    (hw : op.evaluate other v = .ok w) : op.evaluate read v = .ok w := by
  have hok := hw
  rw [evaluate_eq] at hok
  obtain ⟨u, hu, -⟩ := bind_eq_ok_iff.1 hok
  rw [← hw, evaluate_congr ((h u hu).trans hu.symm)]

end UnaryOp

namespace BinaryOp

variable {op : BinaryOp} {read other : Reader} {left right w : Value}

theorem evaluate_congr (hleft : other.follow left = read.follow left)
    (hright : other.follow right = read.follow right) :
    op.evaluate other left right = op.evaluate read left right := by
  rw [evaluate_eq, evaluate_eq, hleft, hright]

/-- A right operand that cannot be followed is found out once the left one was followed. -/
theorem evaluate_of_right_error {cause : Fault} (h : read.follow right = .error cause) :
    op.evaluate read left right = read.follow left >>= fun _ => .error cause := by
  rw [evaluate_eq, h]
  rfl

theorem evaluate_of_left_error {cause : Fault} (h : read.follow left = .error cause) :
    op.evaluate read left right = .error cause := by
  rw [evaluate_eq, h]
  rfl

theorem evaluate_mono (hleft : ∀ u, other.follow left = .ok u → read.follow left = .ok u)
    (hright : ∀ u, other.follow right = .ok u → read.follow right = .ok u)
    (hw : op.evaluate other left right = .ok w) : op.evaluate read left right = .ok w := by
  have hok := hw
  rw [evaluate_eq] at hok
  obtain ⟨l, hl, hok⟩ := bind_eq_ok_iff.1 hok
  obtain ⟨r, hr, -⟩ := bind_eq_ok_iff.1 hok
  rw [← hw, evaluate_congr ((hleft l hl).trans hl.symm) ((hright r hr).trans hr.symm)]

end BinaryOp

/-- With the lowest `n` elements of the stack in view, walks and operators succeed only with the
result that they have in the whole memory. They end exactly as there if their operands lead to no
hidden element; an operand that does is refused with a reference to the first such element, which is
found out after the left operand was followed if it is the right one. A view of the whole stack is
the memory. -/
theorem view_agrees_with_memory (m : Memory) (n : Nat) :
    (∀ left right w : Value,
      ((m.view n).follow left = .ok w → m.follow left = .ok w) ∧
      (∀ op : UnaryOp, op.evaluate (m.view n) left = .ok w → op.evaluate m.read left = .ok w) ∧
      ∀ op : BinaryOp, op.evaluate (m.view n) left right = .ok w →
        op.evaluate m.read left right = .ok w) ∧
    (∀ left, m.Shows n left →
      (m.view n).follow left = m.follow left ∧
      (∀ op : UnaryOp, op.evaluate (m.view n) left = op.evaluate m.read left) ∧
      ∀ right, m.Shows n right → ∀ op : BinaryOp,
        op.evaluate (m.view n) left right = op.evaluate m.read left right) ∧
    (∀ left, ¬ m.Shows n left → ∃ i, m.FirstHidden n left i ∧
      (m.view n).follow left = .error (.danglingReference (.stack i)) ∧
      (∀ op : UnaryOp, op.evaluate (m.view n) left = .error (.danglingReference (.stack i))) ∧
      ∀ (op : BinaryOp) (right : Value),
        op.evaluate (m.view n) left right = .error (.danglingReference (.stack i))) ∧
    (∀ left right, m.Shows n left → ¬ m.Shows n right → ∃ i, m.FirstHidden n right i ∧
      ∀ op : BinaryOp, op.evaluate (m.view n) left right =
        m.follow left >>= fun _ => .error (.danglingReference (.stack i))) ∧
    (m.stack.size ≤ n → ∀ target, m.view n target = m.read target) := by
  have hmono : ∀ v w, (m.view n).follow v = .ok w → m.read.follow v = .ok w :=
    fun _ _ => Memory.follow_of_view
  refine ⟨fun left right w => ⟨hmono left w, fun op => ?_, fun op => ?_⟩,
    fun left hleft => ⟨Memory.follow_view_of_shows hleft, fun op => ?_, fun right hright op => ?_⟩,
    fun left hleft => ?_, fun left right hleft hright => ?_, Memory.view_eq_read_of_le⟩
  · exact UnaryOp.evaluate_mono (hmono left)
  · exact BinaryOp.evaluate_mono (hmono left) (hmono right)
  · exact UnaryOp.evaluate_congr (Memory.follow_view_of_shows hleft)
  · exact BinaryOp.evaluate_congr (Memory.follow_view_of_shows hleft)
      (Memory.follow_view_of_shows hright)
  · obtain ⟨i, hi⟩ := Memory.exists_firstHidden hleft
    have hfollow := Memory.follow_view_of_firstHidden hi
    exact ⟨i, hi, hfollow, fun op => UnaryOp.evaluate_of_error hfollow,
      fun op right => BinaryOp.evaluate_of_left_error hfollow⟩
  · obtain ⟨i, hi⟩ := Memory.exists_firstHidden hright
    refine ⟨i, hi, fun op => ?_⟩
    rw [BinaryOp.evaluate_of_right_error (Memory.follow_view_of_firstHidden hi),
      Memory.follow_view_of_shows hleft]

end ActionMachine
