import ActionMachine.Store.Memory
import ActionMachine.Proofs.Methods
import ActionMachine.Proofs.Operands

/-
  What memory holds. `Cells.All P` and `Operands.All P` say that each value of a row or of the
  stack satisfies `P`; the operations keep this as long as what they add satisfies `P`. A reader of
  memory reaches a value only through the arena, the frame or the stack. The constant places of a
  row are kept apart from its values; that they are places of cells in it (`Cells.Aligned`) is kept
  by all operations.
-/

namespace ActionMachine

/-! ## Rows of cells -/

namespace Cells

variable {P : Value → Prop} {c : Cells}

/-- Every cell holds a value that satisfies `P`. -/
def All (P : Value → Prop) (c : Cells) : Prop := ∀ i v, c.get? i = some v → P v

theorem all_empty : All P empty := by
  intro i v hv
  simp [get?, empty] at hv

@[simp] theorem size_push (v : Value) (constant : Bool) :
    (c.push v constant).size = c.size + 1 := by
  unfold size push
  rw [Array.size_push]

theorem size_le_push (v : Value) (constant : Bool) : c.size ≤ (c.push v constant).size := by
  rw [size_push]
  exact Nat.le_succ _

@[simp] theorem size_set (i : Nat) (v : Value) : (c.set i v).size = c.size := by
  unfold size set
  rw [Array.size_setIfInBounds]

theorem size_truncate_eq_min (n : Nat) : (c.truncate n).size = min n c.size := by
  unfold size truncate
  rw [Array.size_shrink]

theorem size_truncate {n : Nat} (h : n ≤ c.size) : (c.truncate n).size = n :=
  (size_truncate_eq_min n).trans (Nat.min_eq_left h)

theorem get?_push (v : Value) (constant : Bool) (i : Nat) :
    (c.push v constant).get? i = if i = c.size then some v else c.get? i := by
  unfold get? push size
  rw [Array.getElem?_push]

theorem get?_set (i j : Nat) (v : Value) :
    (c.set i v).get? j = if i = j then (c.get? j).map fun _ => v else c.get? j := by
  unfold get? set
  rw [Array.getElem?_setIfInBounds]
  split
  · subst j
    split
    · next hlt => rw [Array.getElem?_eq_getElem hlt, Option.map_some]
    · next hge => rw [Array.getElem?_eq_none (Nat.le_of_not_lt hge), Option.map_none]
  · rfl

theorem get?_truncate (n i : Nat) : (c.truncate n).get? i = if i < n then c.get? i else none := by
  unfold get? truncate
  exact getElem?_shrink _ _ _

theorem exists_get? {i : Nat} (h : i < c.size) : ∃ v, c.get? i = some v := by
  exact ⟨c.values[i], Array.getElem?_eq_getElem h⟩

theorem lt_size_of_get? {i : Nat} {v : Value} (h : c.get? i = some v) : i < c.size :=
  (Array.getElem?_eq_some_iff.1 h).1

theorem All.push (h : c.All P) {v : Value} (hv : P v) (constant : Bool) :
    (c.push v constant).All P := by
  intro i w hw
  rw [get?_push] at hw
  split at hw
  · cases hw
    exact hv
  · exact h i w hw

theorem All.set (h : c.All P) {v : Value} (hv : P v) (i : Nat) : (c.set i v).All P := by
  intro j w hw
  rw [get?_set] at hw
  split at hw
  · obtain ⟨-, -, rfl⟩ := Option.map_eq_some_iff.1 hw
    exact hv
  · exact h j w hw

theorem All.truncate (h : c.All P) (n : Nat) : (c.truncate n).All P := by
  intro i v hv
  rw [get?_truncate] at hv
  split at hv
  · exact h i v hv
  · cases hv

/-! ## Constant places -/

theorem isConstant_empty (i : Nat) : empty.isConstant i = false := by
  simp [isConstant, empty]

theorem isConstant_push (v : Value) (constant : Bool) (i : Nat) :
    (c.push v constant).isConstant i = (constant && decide (i = c.size) || c.isConstant i) := by
  unfold isConstant push
  cases constant with
  | false => rfl
  | true =>
    rw [if_pos rfl, Std.ExtTreeSet.contains_insert, Bool.true_and, Bool.eq_iff_iff]
    simp only [Bool.or_eq_true, beq_iff_eq, Std.LawfulEqOrd.compare_eq_iff_eq, decide_eq_true_iff,
      @eq_comm _ i]

@[simp] theorem isConstant_set (i j : Nat) (v : Value) :
    (c.set i v).isConstant j = c.isConstant j := rfl

theorem isConstant_truncate (n i : Nat) :
    (c.truncate n).isConstant i = if i < n then c.isConstant i else false := by
  unfold isConstant truncate
  rw [Bool.eq_iff_iff]
  simp [Std.ExtTreeSet.contains_iff_mem, Std.ExtTreeSet.mem_filter, and_comm]

/-- Rows with the same values and the same constant places are the same. -/
theorem ext_of_get? {d : Cells} (hvalue : ∀ i, c.get? i = d.get? i)
    (hflag : ∀ i, c.isConstant i = d.isConstant i) : c = d := by
  obtain ⟨values, constants⟩ := c
  obtain ⟨values', constants'⟩ := d
  obtain rfl : values = values' := Array.ext_getElem? hvalue
  obtain rfl : constants = constants' := Std.ExtTreeSet.ext_contains hflag
  rfl

/-- The constant places are places of cells. -/
def Aligned (c : Cells) : Prop := ∀ i, c.isConstant i = true → i < c.size

theorem aligned_empty : empty.Aligned := fun i hi => by
  rw [isConstant_empty] at hi
  cases hi

theorem Aligned.push (h : c.Aligned) (v : Value) (constant : Bool) :
    (c.push v constant).Aligned := by
  intro i hi
  rw [isConstant_push, Bool.or_eq_true, Bool.and_eq_true, decide_eq_true_iff] at hi
  rw [size_push]
  rcases hi with ⟨-, rfl⟩ | hi
  · exact Nat.lt_succ_self _
  · exact Nat.lt_succ_of_lt (h i hi)

theorem Aligned.set (h : c.Aligned) (i : Nat) (v : Value) : (c.set i v).Aligned := by
  intro j hj
  rw [size_set]
  exact h j hj

/-- A place that is used again is constant only if the new cell is. -/
theorem Aligned.isConstant_push (h : c.Aligned) (v : Value) (constant : Bool) (i : Nat) :
    (c.push v constant).isConstant i = if i = c.size then constant else c.isConstant i := by
  rw [Cells.isConstant_push]
  split
  · next hend =>
    have hfree : c.isConstant i = false :=
      eq_false_of_ne_true fun hi => Nat.ne_of_lt (h i hi) hend
    rw [hfree, decide_eq_true hend, Bool.and_true, Bool.or_false]
  · next hend => rw [decide_eq_false hend, Bool.and_false, Bool.false_or]

/-- What is cut off takes its constant places with it. -/
theorem Aligned.truncate (h : c.Aligned) (n : Nat) : (c.truncate n).Aligned := by
  intro i hi
  rw [isConstant_truncate] at hi
  split at hi
  · next hlt =>
    rw [size_truncate_eq_min]
    exact Nat.lt_min.2 ⟨hlt, h i hi⟩
  · cases hi

end Cells

/-! ## The operand stack -/

namespace Operands

variable {P : Value → Prop} {s t : Operands}

/-- Every element satisfies `P`. -/
def All (P : Value → Prop) (s : Operands) : Prop := ∀ v ∈ s.values, P v

theorem all_empty : All P empty := by
  intro v hv
  exact absurd hv (Array.not_mem_empty v)

theorem All.get? (h : s.All P) {i : Nat} {v : Value} (hv : s.get? i = some v) : P v :=
  h v (Array.mem_of_getElem? hv)

theorem All.topAt (h : s.All P) {offset : Nat} {v : Value} (hv : s.topAt offset = .ok v) : P v :=
  h v (mem_of_topAt hv)

theorem All.push (h : s.All P) {v : Value} (hv : P v) : (s.push v).All P := by
  intro w hw
  rcases Array.mem_push.1 hw with hold | rfl
  · exact h w hold
  · exact hv

theorem All.truncate (h : s.All P) (n : Nat) : (s.truncate n).All P := by
  intro v hv
  obtain ⟨i, hi⟩ := Array.mem_iff_getElem?.1 hv
  unfold Operands.truncate at hi
  rw [getElem?_shrink] at hi
  split at hi
  · exact h v (Array.mem_of_getElem? hi)
  · cases hi

theorem All.dropTop (h : s.All P) : All P ⟨s.values.pop⟩ := by
  intro v hv
  obtain ⟨i, hi⟩ := Array.mem_iff_getElem?.1 hv
  rw [Array.getElem?_pop] at hi
  split at hi
  · exact h v (Array.mem_of_getElem? hi)
  · cases hi

theorem All.pop (h : s.All P) (ht : s.pop = .ok t) : t.All P := by
  obtain ⟨-, rfl⟩ := pop_eq_ok_iff.1 ht
  exact h.dropTop

theorem All.set (h : s.All P) {v : Value} (hv : P v) (i : Nat) :
    All P ⟨s.values.setIfInBounds i v⟩ := by
  intro w hw
  rcases Array.mem_or_eq_of_mem_setIfInBounds hw with hold | rfl
  · exact h w hold
  · exact hv

theorem All.duplicate (h : s.All P) {offset : Nat} (ht : s.duplicate offset = .ok t) :
    t.All P := by
  obtain ⟨v, hv, rfl⟩ := duplicate_eq_ok_iff.1 ht
  exact h.push (h.topAt hv)

theorem All.swap (h : s.All P) {offset : Nat} (ht : s.swap offset = .ok t) : t.All P := by
  obtain ⟨-, -, rfl⟩ := swap_eq_ok_iff.1 ht
  intro v hv
  obtain ⟨i, hi⟩ := Array.mem_iff_getElem?.1 hv
  rw [Array.swapIfInBounds_def] at hi
  split at hi
  · split at hi
    · rw [Array.getElem?_swap] at hi
      split at hi
      · cases hi
        exact h _ (Array.getElem_mem _)
      · split at hi
        · cases hi
          exact h _ (Array.getElem_mem _)
        · exact h v (Array.mem_of_getElem? hi)
    · exact h v (Array.mem_of_getElem? hi)
  · exact h v (Array.mem_of_getElem? hi)

theorem All.above (h : s.All P) {i : Nat} : ∀ v ∈ s.above i, P v := by
  intro v hv
  unfold Operands.above at hv
  rw [Array.toList_extract] at hv
  exact h v (Array.mem_toList_iff.1 (List.mem_of_mem_drop (List.mem_of_mem_take hv)))

end Operands

/-! ## Memory -/

namespace Memory

variable {P : Method → Prop} {K : Value → Prop} {m : Memory}

theorem read_staticRef (i : Nat) : m.read (m.staticRef i) = m.arena.get? i := if_pos rfl

/-- A view through another stack reads what a memory with this stack reads. -/
theorem readWith_eq_read (m : Memory) (stack : Operands) :
    m.readWith stack = read { m with stack } := by
  funext target
  cases target <;> rfl

theorem all_read_iff : m.read.All K ↔ m.arena.All K ∧ m.frame.All K ∧ m.stack.All K := by
  constructor
  · intro h
    refine ⟨fun i v hv => h (m.staticRef i) v ((if_pos rfl).trans hv),
      fun i v hv => h (.frame i) v hv, fun v hv => ?_⟩
    obtain ⟨i, hi⟩ := Array.mem_iff_getElem?.1 hv
    exact h (.stack i) v hi
  · rintro ⟨harena, hframe, hstack⟩ target v hv
    cases target with
    | static cell =>
      have hlive : (if cell.arena = m.id then m.arena.get? cell.index else none) = some v := hv
      split at hlive
      · exact harena _ _ hlive
      · cases hlive
    | frame i => exact hframe i v hv
    | stack i => exact hstack.get? hv

theorem all_readWith_iff {stack : Operands} :
    (m.readWith stack).All K ↔ m.arena.All K ∧ m.frame.All K ∧ stack.All K := by
  rw [readWith_eq_read]
  exact all_read_iff

theorem eachMethod_read_iff :
    m.read.EachMethod P ↔
      m.arena.All (·.EachMethod P) ∧ m.frame.All (·.EachMethod P) ∧
        m.stack.All (·.EachMethod P) := all_readWith_iff

/-- Only a live cell that is not constant is changed. -/
theorem update_eq_ok_iff {m' : Memory} {target : CellRef} {f : Value → Except Fault Value} :
    m.update target f = .ok m' ↔ m.isConstant target = false ∧
      ∃ v w, m.read target = some v ∧ f v = .ok w ∧ m' = m.set target w := by
  unfold update
  cases hconst : m.isConstant target with
  | true => simp
  | false =>
    cases hread : m.read target with
    | none => simp
    | some v =>
      cases hf : f v with
      | error e => simp [bind, Except.bind, hf]
      | ok w => simp [bind, Except.bind, hf, pure, Except.pure, eq_comm]

/-- What a change of one cell does to the three parts. -/
theorem set_cases (target : CellRef) (v : Value) :
    (∃ i, target = m.staticRef i ∧ m.set target v = { m with arena := m.arena.set i v }) ∨
      (∃ i, target = .frame i ∧ m.set target v = { m with frame := m.frame.set i v }) ∨
      (∃ i, target = .stack i ∧
        m.set target v = { m with stack := ⟨m.stack.values.setIfInBounds i v⟩ }) ∨
      m.set target v = m := by
  cases target with
  | static cell =>
    by_cases harena : cell.arena = m.id
    · refine Or.inl ⟨cell.index, ?_, if_pos harena⟩
      unfold staticRef
      rw [← harena]
    · exact Or.inr (Or.inr (Or.inr (if_neg harena)))
  | frame i => exact Or.inr (Or.inl ⟨i, rfl, rfl⟩)
  | stack i => exact Or.inr (Or.inr (Or.inl ⟨i, rfl, rfl⟩))

@[simp] theorem size_stack_set (target : CellRef) (v : Value) :
    (m.set target v).stack.size = m.stack.size := by
  rcases m.set_cases target v with ⟨i, -, he⟩ | ⟨i, -, he⟩ | ⟨i, -, he⟩ | he <;> rw [he]
  exact Array.size_setIfInBounds

theorem stack_set_of_ne {target : CellRef} (h : ∀ i, target ≠ .stack i) (v : Value) :
    (m.set target v).stack = m.stack := by
  rcases m.set_cases target v with ⟨i, -, he⟩ | ⟨i, -, he⟩ | ⟨i, hi, -⟩ | he
  · rw [he]
  · rw [he]
  · exact absurd hi (h i)
  · rw [he]

theorem set_id (target : CellRef) (v : Value) : (m.set target v).id = m.id := by
  rcases m.set_cases target v with ⟨i, -, he⟩ | ⟨i, -, he⟩ | ⟨i, -, he⟩ | he <;> rw [he]

theorem size_arena_set (target : CellRef) (v : Value) :
    (m.set target v).arena.size = m.arena.size := by
  rcases m.set_cases target v with ⟨i, -, he⟩ | ⟨i, -, he⟩ | ⟨i, -, he⟩ | he <;> rw [he]
  exact Cells.size_set i v

theorem size_frame_set (target : CellRef) (v : Value) :
    (m.set target v).frame.size = m.frame.size := by
  rcases m.set_cases target v with ⟨i, -, he⟩ | ⟨i, -, he⟩ | ⟨i, -, he⟩ | he <;> rw [he]
  exact Cells.size_set i v

theorem read_set_self {target : CellRef} {old : Value} (h : m.read target = some old)
    (v : Value) :
    (m.set target v).read target = some v := by
  cases target with
  | static cell =>
    have hlive : (if cell.arena = m.id then m.arena.get? cell.index else none) = some old := h
    split at hlive
    · rename_i hid
      show (if cell.arena = (m.set (.static cell) v).id then _ else none) = some v
      rw [if_pos (hid.trans (m.set_id _ v).symm), set, if_pos hid]
      show (m.arena.set cell.index v).get? cell.index = some v
      rw [Cells.get?_set, if_pos rfl, hlive, Option.map_some]
    · cases hlive
  | frame i =>
    show (m.frame.set i v).get? i = some v
    rw [Cells.get?_set, if_pos rfl, show m.frame.get? i = some old from h, Option.map_some]
  | stack i =>
    have hi : i < m.stack.values.size := (Array.getElem?_eq_some_iff.1 h).1
    show (m.stack.values.setIfInBounds i v)[i]? = some v
    rw [Array.getElem?_setIfInBounds_self_of_lt hi]

theorem read_set_of_ne {target other : CellRef} (h : target ≠ other) (v : Value) :
    (m.set target v).read other = m.read other := by
  rcases m.set_cases target v with ⟨i, rfl, he⟩ | ⟨i, rfl, he⟩ | ⟨i, rfl, he⟩ | he <;> rw [he]
  · cases other with
    | static cell =>
      show (if cell.arena = m.id then (m.arena.set i v).get? cell.index else none) =
        if cell.arena = m.id then m.arena.get? cell.index else none
      split
      · rename_i hid
        rw [Cells.get?_set, if_neg]
        rintro rfl
        exact h (by rw [staticRef, ← hid])
      · rfl
    | frame | stack => rfl
  · cases other with
    | frame j =>
      show (m.frame.set i v).get? j = m.frame.get? j
      rw [Cells.get?_set, if_neg]
      rintro rfl
      exact h rfl
    | static | stack => rfl
  · cases other with
    | stack j =>
      show (m.stack.values.setIfInBounds i v)[j]? = m.stack.values[j]?
      rw [Array.getElem?_setIfInBounds_ne]
      rintro rfl
      exact h rfl
    | static | frame => rfl

theorem all_set (h : m.read.All K) {v : Value} (hv : K v) (target : CellRef) :
    (m.set target v).read.All K := by
  rw [all_read_iff] at h ⊢
  obtain ⟨harena, hframe, hstack⟩ := h
  rcases m.set_cases target v with ⟨i, -, he⟩ | ⟨i, -, he⟩ | ⟨i, -, he⟩ | he <;> rw [he]
  · exact ⟨harena.set hv i, hframe, hstack⟩
  · exact ⟨harena, hframe.set hv i, hstack⟩
  · exact ⟨harena, hframe, hstack.set hv i⟩
  · exact ⟨harena, hframe, hstack⟩

theorem all_allocate (h : m.read.All K) {v : Value} (hv : K v) (constant : Bool) :
    (m.allocate v constant).2.read.All K := by
  rw [all_read_iff] at h ⊢
  exact ⟨h.1.push hv constant, h.2⟩

theorem all_allocateFrame (h : m.read.All K) {v : Value} (hv : K v) (constant : Bool) :
    (m.allocateFrame v constant).2.read.All K := by
  rw [all_read_iff] at h ⊢
  exact ⟨h.1, h.2.1.push hv constant, h.2.2⟩

/-- Another stack shows nothing but its own elements. -/
theorem all_restack (h : m.read.All K) {stack : Operands} (hs : stack.All K) :
    ({ m with stack } : Memory).read.All K := by
  rw [all_read_iff] at h ⊢
  exact ⟨h.1, h.2.1, hs⟩

theorem eachMethod_set (h : m.read.EachMethod P) {v : Value} (hv : v.EachMethod P)
    (target : CellRef) : (m.set target v).read.EachMethod P := all_set h hv target

theorem eachMethod_allocate (h : m.read.EachMethod P) {v : Value} (hv : v.EachMethod P)
    (constant : Bool) : (m.allocate v constant).2.read.EachMethod P := all_allocate h hv constant

theorem eachMethod_allocateFrame (h : m.read.EachMethod P) {v : Value} (hv : v.EachMethod P)
    (constant : Bool) : (m.allocateFrame v constant).2.read.EachMethod P :=
  all_allocateFrame h hv constant

theorem eachMethod_restack (h : m.read.EachMethod P) {stack : Operands}
    (hs : stack.All (·.EachMethod P)) :
    ({ m with stack } : Memory).read.EachMethod P := all_restack h hs

/-! ## Operators -/

theorem applyUnary_settled {op : UnaryOp} (h : 1 ≤ m.stack.size) :
    Settled (m.applyUnary op) := by
  obtain ⟨v, hv⟩ := Operands.exists_topAt Nat.one_pos h
  unfold applyUnary
  rw [Operands.mapTop_eq hv]
  cases op.evaluate (m.readWith ⟨m.stack.values.pop⟩) v with
  | ok w => exact settled_ok _
  | error cause => exact settled_fault _

theorem applyBinary_settled {op : BinaryOp} (h : 2 ≤ m.stack.size) :
    Settled (m.applyBinary op) := by
  obtain ⟨a, ha⟩ := Operands.exists_topAt Nat.two_pos h
  obtain ⟨b, hb⟩ := Operands.exists_topAt (s := m.stack) Nat.one_pos (by omega)
  unfold applyBinary
  rw [Operands.mapTopTwo_eq ha hb]
  cases op.evaluate (m.readWith (m.stack.truncate (m.stack.size - 2))) a b with
  | ok w => exact settled_ok _
  | error cause => exact settled_fault _

theorem applyInPlace_settled {op : BinaryOp} (h : 2 ≤ m.stack.size) :
    Settled (m.applyInPlace op) := by
  obtain ⟨a, ha⟩ := Operands.exists_topAt Nat.two_pos h
  obtain ⟨b, hb⟩ := Operands.exists_topAt (s := m.stack) Nat.one_pos (by omega)
  unfold applyInPlace
  rw [Operands.foldTop_eq ha hb]
  rcases op.evaluateInPlace (m.readWith (m.stack.truncate (m.stack.size - 2))) a b with
    ⟨w, cause | -⟩
  · exact settled_fault _
  · exact settled_ok _

theorem fetch_eq_ok_iff {target : CellRef} {v : Value} :
    m.fetch target = .ok v ↔ m.read target = some v := by
  unfold fetch
  cases m.read target <;> simp

end Memory

end ActionMachine
