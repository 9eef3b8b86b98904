import ActionMachine.Proofs.Memory

/-
  Walks along references. `walk k v` is the value that `k` hops lead to, and `Leads hops v` says how
  a walk that looks at no more than `hops` values ends: at a value, at the null reference, at a
  reference to nothing, or nowhere. `followWithin_eq_iff` ties the two to the search for a value.
  The search for a cell (`resolve`) starts one hop further on and looks at as many values, so the
  two differ exactly where the value after `maxHops` hops ends the walk (`searches_agree_iff`).
-/

namespace ActionMachine

/-! ## Hops -/

namespace Reader

variable {read : Reader} {v w : Value} {target : CellRef} {hops j k n : Nat}

/-- The value that `k` hops lead to, if there are so many. -/
def walk (read : Reader) : Nat → Value → Option Value
  | 0, v => some v
  | k + 1, .reference (some target) => (read target).bind (read.walk k)
  | _ + 1, _ => none

theorem walk_reference {next : Value} (h : read target = some next) (k : Nat) :
    read.walk (k + 1) (.reference (some target)) = read.walk k next := by
  rw [walk, h]
  rfl

/-- Only a reference that can be read leads on. -/
theorem exists_of_walk_succ (h : read.walk (k + 1) v = some w) :
    ∃ target next, v = .reference (some target) ∧ read target = some next ∧
      read.walk k next = some w := by
  cases v with
  | reference target =>
    cases target with
    | none => cases h
    | some target =>
      obtain ⟨next, hnext, hwalk⟩ := Option.bind_eq_some_iff.1 h
      exact ⟨target, next, rfl, hnext, hwalk⟩
  | _ => cases h

theorem walk_add (read : Reader) (j k : Nat) (v : Value) :
    read.walk (j + k) v = (read.walk j v).bind (read.walk k) := by
  induction j generalizing v with
  | zero => rw [Nat.zero_add, walk, Option.bind_some]
  | succ j ih =>
    rw [Nat.succ_add]
    cases v with
    | reference target =>
      cases target with
      | none => rfl
      | some target =>
        rw [walk, walk, Option.bind_assoc]
        exact congrArg _ (funext ih)
    | _ => rfl

/-- One hop more, at the end of the walk. -/
theorem walk_succ (h : read.walk k v = some (.reference (some target))) :
    read.walk (k + 1) v = read target := by
  rw [walk_add, h, Option.bind_some, walk]
  cases read target <;> rfl

/-- The part of a walk before its last hop. -/
theorem exists_walk_pred (h : read.walk (k + 1) v = some w) :
    ∃ target, read.walk k v = some (.reference (some target)) ∧ read target = some w := by
  rw [walk_add] at h
  obtain ⟨u, hu, hlast⟩ := Option.bind_eq_some_iff.1 h
  obtain ⟨target, next, rfl, hnext, hw⟩ := exists_of_walk_succ hlast
  exact ⟨target, hu, hnext.trans hw⟩

theorem exists_walk_of_le (h : read.walk n v = some w) (hk : k ≤ n) :
    ∃ u, read.walk k v = some u := by
  obtain ⟨rest, rfl⟩ := Nat.exists_eq_add_of_le hk
  rw [walk_add] at h
  obtain ⟨u, hu, -⟩ := Option.bind_eq_some_iff.1 h
  exact ⟨u, hu⟩

/-- All values of a walk but the last are references that can be read. -/
theorem reference_of_walk (h : read.walk n v = some w) (hk : k < n) :
    ∃ target, read.walk k v = some (.reference (some target)) ∧ (read target).isSome = true := by
  obtain ⟨u, hu⟩ := exists_walk_of_le h (Nat.succ_le_of_lt hk)
  obtain ⟨target, htarget, hread⟩ := exists_walk_pred hu
  exact ⟨target, htarget, Option.isSome_iff_exists.2 ⟨u, hread⟩⟩

/-- A walk that comes back to where it was goes on for ever. -/
theorem exists_walk_of_cycle {period : Nat} (hpos : 0 < period) (h : read.walk period v = some v)
    (n : Nat) : ∃ w, read.walk n v = some w := by
  have hround : ∀ m, read.walk (m * period) v = some v := by
    intro m
    induction m with
    | zero => rw [Nat.zero_mul, walk]
    | succ m ih => rw [Nat.succ_mul, walk_add, ih, Option.bind_some, h]
  exact exists_walk_of_le (hround n) (Nat.le_mul_of_pos_right n hpos)

/-! ## Ends of walks -/

/-- How a walk from `v` that looks at no more than `hops` values ends. -/
inductive Leads (read : Reader) (hops : Nat) (v : Value) : Except Fault Value → Prop where
  | value {k : Nat} {w : Value} (hk : k < hops) (hw : read.walk k v = some w)
      (hplain : w.isReference = false) : Leads read hops v (.ok w)
  | null {k : Nat} (hk : k < hops) (hw : read.walk k v = some (.reference none)) :
      Leads read hops v (.error .nullReference)
  | dangling {k : Nat} {target : CellRef} (hk : k < hops)
      (hw : read.walk k v = some (.reference (some target))) (hread : read target = none) :
      Leads read hops v (.error (.danglingReference target))
  | endless {w : Value} (hw : read.walk hops v = some w) :
      Leads read hops v (.error (.chainTooLong maxHops))

theorem Leads.next {next : Value} {outcome : Except Fault Value} (h : read.Leads hops next outcome)
    (hread : read target = some next) :
    read.Leads (hops + 1) (.reference (some target)) outcome := by
  cases h with
  | value hk hw hplain =>
    exact .value (Nat.succ_lt_succ hk) ((walk_reference hread _).trans hw) hplain
  | null hk hw => exact .null (Nat.succ_lt_succ hk) ((walk_reference hread _).trans hw)
  | dangling hk hw hnone =>
    exact .dangling (Nat.succ_lt_succ hk) ((walk_reference hread _).trans hw) hnone
  | endless hw => exact .endless ((walk_reference hread _).trans hw)

theorem followWithin_reference {next : Value} (h : read target = some next) (hops : Nat) :
    read.followWithin (hops + 1) (.reference (some target)) = read.followWithin hops next := by
  simp only [followWithin, h]

theorem followWithin_dangling (h : read target = none) (hops : Nat) :
    read.followWithin (hops + 1) (.reference (some target)) =
      .error (.danglingReference target) := by
  simp only [followWithin, h]

/-- The search comes to an end of the walk. -/
theorem leads_followWithin (read : Reader) (hops : Nat) (v : Value) :
    read.Leads hops v (read.followWithin hops v) := by
  induction hops generalizing v with
  | zero => exact .endless rfl
  | succ hops ih =>
    cases v with
    | reference target =>
      cases target with
      | none => exact .null (Nat.succ_pos hops) rfl
      | some target =>
        cases hread : read target with
        | none =>
          rw [followWithin_dangling hread]
          exact .dangling (Nat.succ_pos hops) rfl hread
        | some next =>
          rw [followWithin_reference hread]
          exact (ih next).next hread
    | _ => exact .value (Nat.succ_pos hops) rfl rfl

/-- Hops that were made count for nothing but the number of values that may still be looked at. -/
theorem followWithin_of_walk (h : read.walk k v = some w) (hops : Nat) :
    read.followWithin (k + hops) v = read.followWithin hops w := by
  induction k generalizing v with
  | zero =>
    cases h
    rw [Nat.zero_add]
  | succ k ih =>
    obtain ⟨target, next, rfl, hread, hwalk⟩ := exists_of_walk_succ h
    rw [Nat.succ_add, followWithin_reference hread, ih hwalk]

/-- As `followWithin_of_walk`, for a value that is still looked at. -/
theorem followWithin_of_walk_lt (h : read.walk k v = some w) (hk : k < hops) :
    ∃ rest, read.followWithin hops v = read.followWithin (rest + 1) w := by
  obtain ⟨rest, rfl⟩ := Nat.exists_eq_add_of_lt hk
  refine ⟨rest, ?_⟩
  rw [Nat.add_assoc, followWithin_of_walk h]

/-- The search gives exactly the end of the walk. -/
theorem followWithin_eq_iff {outcome : Except Fault Value} :
    read.followWithin hops v = outcome ↔ read.Leads hops v outcome := by
  constructor
  · rintro rfl
    exact leads_followWithin read hops v
  · intro h
    cases h with
    | value hk hw hplain =>
      obtain ⟨rest, hfollow⟩ := followWithin_of_walk_lt hw hk
      rw [hfollow, followWithin_of_plain hplain]
    | null hk hw =>
      obtain ⟨rest, hfollow⟩ := followWithin_of_walk_lt hw hk
      rw [hfollow]
      rfl
    | dangling hk hw hread =>
      obtain ⟨rest, hfollow⟩ := followWithin_of_walk_lt hw hk
      rw [hfollow, followWithin_dangling hread]
    | endless hw => exact followWithin_of_walk hw 0

theorem follow_eq_iff {outcome : Except Fault Value} :
    read.follow v = outcome ↔ read.Leads maxHops v outcome := followWithin_eq_iff

/-- A walk for a value gives up only after as many references as it may look at. -/
theorem walk_of_followWithin (h : read.followWithin hops v = .error (.chainTooLong n))
    (hk : k < hops) : ∃ target, read.walk k v = some (.reference (some target)) := by
  cases followWithin_eq_iff.1 h with
  | endless hw =>
    obtain ⟨target, htarget, -⟩ := reference_of_walk hw hk
    exact ⟨target, htarget⟩

/-! ## The search for a cell -/

theorem resolveWithin_reference {next : CellRef} (h : read target = some (.reference (some next)))
    (hops : Nat) : read.resolveWithin (hops + 1) target = read.resolveWithin hops next := by
  simp only [resolveWithin, h]

theorem resolveWithin_dangling (h : read target = none) (hops : Nat) :
    read.resolveWithin (hops + 1) target = .error (.danglingReference target) := by
  simp only [resolveWithin, h]

theorem resolveWithin_null (h : read target = some (.reference none)) (hops : Nat) :
    read.resolveWithin (hops + 1) target = .error .nullReference := by
  simp only [resolveWithin, h]

theorem resolveWithin_plain (h : read target = some v) (hv : v.isReference = false) (hops : Nat) :
    read.resolveWithin (hops + 1) target = .ok target := by
  cases v with
  | reference => cases hv
  | _ => simp only [resolveWithin, h]

theorem resolveWithin_of_walk {cell : CellRef}
    (h : read.walk k (.reference (some target)) = some (.reference (some cell))) (hops : Nat) :
    read.resolveWithin (k + hops) target = read.resolveWithin hops cell := by
  induction k generalizing target with
  | zero =>
    cases h
    rw [Nat.zero_add]
  | succ k ih =>
    obtain ⟨_, next, heq, hread, hwalk⟩ := exists_of_walk_succ h
    cases heq
    cases k with
    | zero =>
      cases hwalk
      rw [Nat.zero_add, Nat.add_comm, resolveWithin_reference hread]
    | succ k =>
      obtain ⟨there, _, rfl, -, -⟩ := exists_of_walk_succ hwalk
      rw [Nat.succ_add, resolveWithin_reference hread, ih hwalk]

/-- As `resolveWithin_of_walk`, for a cell that is still looked at. -/
theorem resolveWithin_of_walk_lt {cell : CellRef}
    (h : read.walk k (.reference (some target)) = some (.reference (some cell))) (hk : k < hops) :
    ∃ rest, read.resolveWithin hops target = read.resolveWithin (rest + 1) cell := by
  obtain ⟨rest, rfl⟩ := Nat.exists_eq_add_of_lt hk
  refine ⟨rest, ?_⟩
  rw [Nat.add_assoc, resolveWithin_of_walk h]

/-- A walk for a cell gives up only after as many cells that hold references. -/
theorem walk_of_resolveWithin (h : read.resolveWithin hops target = .error (.chainTooLong n))
    (hk : k < hops) :
    ∃ next, read.walk (k + 1) (.reference (some target)) = some (.reference (some next)) := by
  induction hops generalizing target k with
  | zero => exact absurd hk (Nat.not_lt_zero k)
  | succ hops ih =>
    unfold resolveWithin at h
    split at h
    · rename_i next hnext
      rw [walk_reference hnext]
      cases k with
      | zero => exact ⟨next, rfl⟩
      | succ k => exact ih h (Nat.lt_of_succ_lt_succ hk)
    · cases h
    · cases h
    · cases h

/-- A search for a value ends where the references lead: at the value that is reached by at most
65535 hops, at the null reference or at a reference to nothing among the first 65536 values, and in
every other case it gives up, so on each ring of references. -/
theorem follow_walks_bounded_chain (read : Reader) (v : Value) :
    (∀ w, read.follow v = .ok w ↔
      w.isReference = false ∧ ∃ k ≤ 65535, read.walk k v = some w) ∧
    (read.follow v = .error .nullReference ↔
      ∃ k < 65536, read.walk k v = some (.reference none)) ∧
    (∀ target, read.follow v = .error (.danglingReference target) ↔
      ∃ k < 65536, read.walk k v = some (.reference (some target)) ∧ read target = none) ∧
    (read.follow v = .error (.chainTooLong 65536) ↔
      ∀ k < 65536, ∀ w, read.walk k v = some w →
        ∃ target, w = .reference (some target) ∧ (read target).isSome = true) ∧
    (∀ cause, read.follow v = .error cause → cause.code = .nullReferenceOperation) ∧
    ∀ lead period u, read.walk lead v = some u → 0 < period → read.walk period u = some u →
      read.follow v = .error (.chainTooLong 65536) := by
  refine ⟨fun w => ⟨fun h => ?_, fun ⟨hplain, k, hk, hw⟩ => ?_⟩,
    ⟨fun h => ?_, fun ⟨k, hk, hw⟩ => ?_⟩,
    fun target => ⟨fun h => ?_, fun ⟨k, hk, hw, hread⟩ => ?_⟩, ⟨fun h k hk w hw => ?_, fun h => ?_⟩,
    fun cause h => ?_, fun lead period u hlead hpos hcycle => ?_⟩
  · cases follow_eq_iff.1 h with
    | value hk hw hplain => exact ⟨hplain, _, Nat.le_of_lt_succ hk, hw⟩
  · exact follow_eq_iff.2 (.value (Nat.lt_succ_of_le hk) hw hplain)
  · cases follow_eq_iff.1 h with
    | null hk hw => exact ⟨_, hk, hw⟩
  · exact follow_eq_iff.2 (.null hk hw)
  · cases follow_eq_iff.1 h with
    | dangling hk hw hread => exact ⟨_, hk, hw, hread⟩
  · exact follow_eq_iff.2 (.dangling hk hw hread)
  · cases follow_eq_iff.1 h with
    | endless hend =>
      obtain ⟨target, htarget, hread⟩ := reference_of_walk hend hk
      exact ⟨target, Option.some.inj (hw.symm.trans htarget), hread⟩
  · have hleads := follow_eq_iff.1 (rfl : read.follow v = _)
    generalize read.follow v = outcome at hleads ⊢
    -- the three other ends are values that do not lead on
    cases hleads with
    | value hk hw hplain =>
      obtain ⟨target, rfl, -⟩ := h _ hk _ hw
      cases hplain
    | null hk hw =>
      obtain ⟨target, heq, -⟩ := h _ hk _ hw
      cases heq
    | dangling hk hw hread =>
      obtain ⟨target, heq, hsome⟩ := h _ hk _ hw
      cases heq
      rw [hread] at hsome
      cases hsome
    | endless => rfl
  · cases follow_eq_iff.1 h with
    | null => rfl
    | dangling => rfl
    | endless => rfl
  · obtain ⟨w, hw⟩ := exists_walk_of_cycle hpos hcycle maxHops
    have hlong : read.walk (lead + maxHops) v = some w := by
      rw [walk_add, hlead, Option.bind_some, hw]
    obtain ⟨u, hu⟩ := exists_walk_of_le hlong (Nat.le_add_left maxHops lead)
    exact follow_eq_iff.2 (.endless hu)

end Reader

/-! ## Two searches -/

namespace Memory

variable {m : Memory} {target : CellRef} {v : Value} {k : Nat}

/-- The search for a cell and the search for a value from a reference to `target` end alike: the
cell holds the value, or both are refused for the same cause. -/
def SearchesAgree (m : Memory) (target : CellRef) : Prop :=
  (∃ cell v, m.resolve target = .ok cell ∧ m.follow (.reference (some target)) = .ok v ∧
    m.read cell = some v) ∨
  ∃ cause, m.resolve target = .error cause ∧ m.follow (.reference (some target)) = .error cause

/-- The search for a cell ends at the cell of the last value of the walk. -/
theorem resolve_of_walk (hk : k < Reader.maxHops)
    (hw : m.read.walk (k + 1) (.reference (some target)) = some v) :
    (v.isReference = false → ∃ cell, m.resolve target = .ok cell ∧ m.read cell = some v) ∧
      (v = .reference none → m.resolve target = .error .nullReference) := by
  obtain ⟨cell, hcell, hread⟩ := Reader.exists_walk_pred hw
  obtain ⟨rest, hresolve⟩ := Reader.resolveWithin_of_walk_lt hcell hk
  refine ⟨fun hplain => ⟨cell, ?_, hread⟩, ?_⟩
  · exact hresolve.trans (Reader.resolveWithin_plain hread hplain rest)
  · rintro rfl
    exact hresolve.trans (Reader.resolveWithin_null hread rest)

/-- The two searches agree if the value after `maxHops` hops, where there is one, leads on. -/
theorem searchesAgree_of_leading
    (h : ∀ v, m.read.walk Reader.maxHops (.reference (some target)) = some v →
      ∃ next, v = .reference (some next)) : m.SearchesAgree target := by
  cases hfollow : m.follow (.reference (some target)) with
  | ok w =>
    cases Reader.follow_eq_iff.1 hfollow with
    | @value k _ hk hw hplain =>
      cases k with
      | zero =>
        cases hw
        cases hplain
      | succ k =>
        obtain ⟨cell, hresolve, hread⟩ := (resolve_of_walk (Nat.lt_of_succ_lt hk) hw).1 hplain
        exact Or.inl ⟨cell, w, hresolve, hfollow, hread⟩
  | error cause =>
    refine Or.inr ⟨cause, ?_, hfollow⟩
    cases Reader.follow_eq_iff.1 hfollow with
    | @null k hk hw =>
      cases k with
      | zero => cases hw
      | succ k => exact (resolve_of_walk (Nat.lt_of_succ_lt hk) hw).2 rfl
    | dangling hk hw hread =>
      obtain ⟨rest, hresolve⟩ := Reader.resolveWithin_of_walk_lt hw hk
      exact hresolve.trans (Reader.resolveWithin_dangling hread rest)
    | endless hw =>
      obtain ⟨next, rfl⟩ := h _ hw
      exact Reader.resolveWithin_of_walk hw 0

/-- At a value after `maxHops` hops the search for a value has given up. -/
theorem searches_at_limit
    (hv : m.read.walk Reader.maxHops (.reference (some target)) = some v) :
    m.follow (.reference (some target)) = .error (.chainTooLong Reader.maxHops) ∧
      (v.isReference = false → ∃ cell, m.resolve target = .ok cell ∧ m.read cell = some v) ∧
      (v = .reference none → m.resolve target = .error .nullReference) :=
  ⟨Reader.follow_eq_iff.2 (.endless hv), resolve_of_walk (Nat.lt_succ_self 65535) hv⟩

theorem not_searchesAgree_of_ok {cell : CellRef} {cause : Fault}
    (hresolve : m.resolve target = .ok cell)
    (hfollow : m.follow (.reference (some target)) = .error cause) : ¬ m.SearchesAgree target := by
  rintro (⟨_, _, -, hok, -⟩ | ⟨_, herror, -⟩)
  · cases hfollow.symm.trans hok
  · cases hresolve.symm.trans herror

end Memory

/-- The search for a cell and the search for a value end alike unless the walk makes exactly 65536
hops and ends there. Then the search for a value gives up, although the search for a cell finds the
value's cell, or the null reference. -/
theorem searches_agree_iff (m : Memory) (target : CellRef) :
    (m.SearchesAgree target ↔
      ∀ v, m.read.walk 65536 (.reference (some target)) = some v →
        ∃ next, v = .reference (some next)) ∧
    ∀ v, m.read.walk 65536 (.reference (some target)) = some v →
      m.follow (.reference (some target)) = .error (.chainTooLong 65536) ∧
        (v.isReference = false → ∃ cell, m.resolve target = .ok cell ∧ m.read cell = some v) ∧
        (v = .reference none → m.resolve target = .error .nullReference) := by
  refine ⟨⟨fun hagree v hv => ?_, Memory.searchesAgree_of_leading⟩,
    fun v hv => Memory.searches_at_limit hv⟩
  obtain ⟨hfollow, hplain, hnull⟩ := Memory.searches_at_limit hv
  cases hkind : v.isReference with
  | false =>
    obtain ⟨cell, hresolve, -⟩ := hplain hkind
    exact absurd hagree (Memory.not_searchesAgree_of_ok hresolve hfollow)
  | true =>
    cases v with
    | reference next =>
      cases next with
      | some next => exact ⟨next, rfl⟩
      | none =>
        have hresolve := hnull rfl
        rcases hagree with ⟨_, _, hok, -, -⟩ | ⟨cause, herror, hcause⟩
        · cases hresolve.symm.trans hok
        · cases hresolve.symm.trans herror
          cases hfollow.symm.trans hcause
    | _ => cases hkind

/-- A number, and `n` cells behind it of which each refers to the one before. -/
def Memory.chain (n : Nat) : Memory where
  id := ⟨1⟩
  arena :=
    { values := (Array.range (n + 1)).map fun i =>
        if i = 0 then .int 7 else .reference (some (.static ⟨⟨1⟩, i - 1⟩)) }

theorem Memory.read_chain {n i : Nat} (h : i ≤ n) :
    (chain n).read (.static ⟨⟨1⟩, i⟩) =
      some (if i = 0 then .int 7 else .reference (some (.static ⟨⟨1⟩, i - 1⟩))) := by
  show ((Array.range (n + 1)).map _)[i]? = _
  rw [Array.getElem?_map, Array.getElem?_range, if_pos (Nat.lt_succ_of_le h)]
  rfl

/-- The walk from cell `i` makes `i + 1` hops and ends at the number. -/
theorem Memory.walk_chain {n i : Nat} (h : i ≤ n) :
    (chain n).read.walk (i + 1) (.reference (some (.static ⟨⟨1⟩, i⟩))) = some (.int 7) := by
  induction i with
  | zero => rw [Reader.walk_reference (read_chain h)]; rfl
  | succ i ih =>
    rw [Reader.walk_reference (read_chain h)]
    exact ih (Nat.le_of_succ_le h)

/-- With 65536 cells in a row, the search for a cell finds the number and the search for the value
gives up. -/
theorem searches_differ_at_limit :
    ¬ (Memory.chain 65535).SearchesAgree (.static ⟨⟨1⟩, 65535⟩) ∧
      (∃ cell, (Memory.chain 65535).resolve (.static ⟨⟨1⟩, 65535⟩) = .ok cell) ∧
      (Memory.chain 65535).follow (.reference (some (.static ⟨⟨1⟩, 65535⟩))) =
        .error (.chainTooLong 65536) := by
  obtain ⟨hfollow, hplain, -⟩ := Memory.searches_at_limit (Memory.walk_chain (Nat.le_refl 65535))
  obtain ⟨cell, hresolve, -⟩ := hplain rfl
  exact ⟨Memory.not_searchesAgree_of_ok hresolve hfollow, ⟨cell, hresolve⟩, hfollow⟩

end ActionMachine
