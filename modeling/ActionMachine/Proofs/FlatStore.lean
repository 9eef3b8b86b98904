import ActionMachine.Proofs.Constants

/-
  Memory as one flat store. Arena, frame and stack are addressed in three ways, but to readers and
  writers they are one store: a write changes what its own handle reads and nothing else, and an
  allocation hands out a handle that read nothing before (`memory_is_flat_store`). Cells of the
  frame come and go, and their places are used again. The constant places are kept apart from the
  cells; all operations keep them in step (`Account.Sound`), so a cell is constant exactly if the
  latest allocation of its handle made it constant and it is still there.
-/

namespace ActionMachine

theorem Cells.get?_size (c : Cells) : c.get? c.size = none :=
  Option.eq_none_iff_forall_ne_some.2 fun _ h => Nat.lt_irrefl _ (Cells.lt_size_of_get? h)

namespace Memory

variable {m : Memory} {target : CellRef} {v : Value}

/-! ## Allocations -/

/-- `n` is `m` with one cell more, which `handle` leads to. -/
structure Allocates (m n : Memory) (handle : CellRef) (v : Value) (constant : Bool) : Prop where
  aligned : n.Aligned
  fresh : m.read handle = none
  read : ∀ target, n.read target = if target = handle then some v else m.read target
  flag : ∀ target, n.isConstant target = if target = handle then constant else m.isConstant target
  notStack : ∀ i, handle ≠ .stack i

theorem Aligned.allocates (hm : m.Aligned) (v : Value) (constant : Bool) :
    Allocates m (m.allocate v constant).2 (m.allocate v constant).1 v constant where
  aligned := ⟨hm.arena.push v constant, hm.frame⟩
  fresh := (if_pos rfl).trans (Cells.get?_size m.arena)
  notStack _ := nofun
  read target := by
    cases target with
    | static cell =>
      show (if cell.arena = m.id then (m.arena.push v constant).get? cell.index else none) =
        if CellRef.static cell = m.staticRef m.arena.size then some v
        else if cell.arena = m.id then m.arena.get? cell.index else none
      obtain ⟨arena, index⟩ := cell
      by_cases harena : arena = m.id
      · subst harena
        simp only [staticRef, Cells.get?_push, if_true, CellRef.static.injEq, CellId.mk.injEq,
          true_and]
      · simp only [staticRef, harena, if_false, CellRef.static.injEq, CellId.mk.injEq, false_and]
    | frame | stack => rfl
  flag target := by
    cases target with
    | static cell =>
      obtain ⟨arena, index⟩ := cell
      by_cases harena : arena = m.id
      · subst harena
        simp [isConstant, allocate, staticRef, hm.arena.isConstant_push]
      · simp [isConstant, allocate, staticRef, harena]
    | frame | stack => rfl

theorem Aligned.allocatesFrame (hm : m.Aligned) (v : Value) (constant : Bool) :
    Allocates m (m.allocateFrame v constant).2 (m.allocateFrame v constant).1 v constant where
  aligned := ⟨hm.arena, hm.frame.push v constant⟩
  fresh := Cells.get?_size m.frame
  notStack _ := nofun
  read target := by
    cases target with
    | frame i =>
      show (m.frame.push v constant).get? i =
        if CellRef.frame i = .frame m.frame.size then some v else m.frame.get? i
      simp only [Cells.get?_push, CellRef.frame.injEq]
    | static | stack => rfl
  flag target := by
    cases target with
    | frame i => simp [isConstant, allocateFrame, hm.frame.isConstant_push]
    | static | stack => rfl

/-! ## Writes -/

theorem Aligned.set (hm : m.Aligned) (target : CellRef) (v : Value) : (m.set target v).Aligned := by
  rcases m.set_cases target v with ⟨i, -, he⟩ | ⟨i, -, he⟩ | ⟨i, -, he⟩ | he <;> rw [he]
  · exact ⟨hm.arena.set i v, hm.frame⟩
  · exact ⟨hm.arena, hm.frame.set i v⟩
  · exact ⟨hm.arena, hm.frame⟩
  · exact hm

/-- A write is refused for a constant cell and for no cell at all. -/
theorem write_eq (m : Memory) (target : CellRef) (v : Value) :
    m.write target v =
      if m.isConstant target then .error (.constantAssignment target)
      else if (m.read target).isSome then .ok (m.set target v)
      else .error (.danglingReference target) := by
  unfold write update
  cases m.read target <;> rfl

theorem write_eq_ok_iff {n : Memory} : m.write target v = .ok n ↔
    (m.read target).isSome = true ∧ m.isConstant target = false ∧ n = m.set target v := by
  rw [write_eq]
  cases m.isConstant target <;> cases (m.read target).isSome <;> simp [eq_comm]

theorem read_set (h : (m.read target).isSome = true) (v : Value) (other : CellRef) :
    (m.set target v).read other = if other = target then some v else m.read other := by
  obtain ⟨old, hold⟩ := Option.isSome_iff_exists.1 h
  split
  · next he => rw [he, read_set_self hold]
  · next he => exact read_set_of_ne (Ne.symm he) v

/-- An element of the stack is written at its distance from the top. -/
theorem setTopAt_of_read_stack {i : Nat} (h : (m.read (.stack i)).isSome = true) (v : Value) :
    m.stack.setTopAt (m.stack.size - i) v = .ok (m.set (.stack i) v).stack := by
  obtain ⟨old, hold⟩ := Option.isSome_iff_exists.1 h
  have hi : i < m.stack.size := (Array.getElem?_eq_some_iff.1 hold).1
  unfold Operands.setTopAt
  rw [Operands.position_bind_eq_ok_iff, Nat.sub_sub_self (Nat.le_of_lt hi)]
  exact ⟨Nat.sub_pos_of_lt hi, Nat.sub_le _ _, rfl⟩

/-! ## Operations -/

/-- What can be done to a memory. -/
inductive Operation where
  | allocate (value : Value) (constant : Bool)
  | allocateFrame (value : Value) (constant : Bool)
  | truncateFrame (size : Nat)
  | push (value : Value)
  | pop
  | truncate (size : Nat)
  | swap (offset : Nat)
  | write (target : CellRef) (value : Value)

namespace Operation

/-- The memory after the operation, if it is not refused. -/
def applied? (m : Memory) : Operation → Option Memory
  | .allocate value constant => some (m.allocate value constant).2
  | .allocateFrame value constant => some (m.allocateFrame value constant).2
  | .truncateFrame size => some { m with frame := m.frame.truncate size }
  | .push value => some { m with stack := m.stack.push value }
  | .pop => m.stack.pop.toOption.map fun stack => { m with stack }
  | .truncate size => some { m with stack := m.stack.truncate size }
  | .swap offset => (m.stack.swap offset).toOption.map fun stack => { m with stack }
  | .write target value => (m.write target value).toOption

/-- The handle that the operation hands out, and whether its cell is constant. -/
def allocated? (m : Memory) : Operation → Option (CellRef × Bool)
  | .allocate value constant => some ((m.allocate value constant).1, constant)
  | .allocateFrame value constant => some ((m.allocateFrame value constant).1, constant)
  | _ => none

end Operation

/-- A memory with all that was ever allocated in it, the latest first. -/
structure Account where
  memory : Memory
  allocations : List (CellRef × Bool) := []

namespace Account

/-- An operation that is refused changes nothing. -/
def perform (a : Account) (op : Operation) : Account where
  memory := (op.applied? a.memory).getD a.memory
  allocations := (op.allocated? a.memory).toList ++ a.allocations

/-- What the operations make of an empty memory. -/
def reached (id : StoreId) (ops : List Operation) : Account :=
  ops.foldl perform { memory := { id } }

variable {a b : Account}

/-- Live cells are constant as their latest allocations say, and no others are constant. -/
structure Sound (a : Account) : Prop where
  aligned : a.memory.Aligned
  stack : ∀ i, a.allocations.lookup (.stack i) = none
  constant : ∀ target, a.memory.isConstant target = true ↔
    (a.memory.read target).isSome = true ∧ a.allocations.lookup target = some true

theorem sound_empty (id : StoreId) : Sound { memory := { id } } where
  aligned := ⟨Cells.aligned_empty, Cells.aligned_empty⟩
  stack _ := rfl
  constant target := by
    refine ⟨fun h => ?_, fun h => nomatch h.2⟩
    cases target <;> simp [isConstant, Cells.isConstant_empty] at h

/-- The stack has no constant elements, so only cells matter. -/
theorem Sound.of_cells (ha : a.Sound) (haligned : b.memory.Aligned)
    (hsame : b.allocations = a.allocations)
    (hflag : ∀ target, b.memory.isConstant target = a.memory.isConstant target)
    (hlive : ∀ target, (∀ i, target ≠ .stack i) →
      (b.memory.read target).isSome = (a.memory.read target).isSome) : b.Sound where
  aligned := haligned
  stack := hsame ▸ ha.stack
  constant target := by
    rw [hflag, hsame]
    by_cases hstack : ∃ i, target = .stack i
    · obtain ⟨i, rfl⟩ := hstack
      rw [ha.stack]
      exact ⟨nofun, fun h => nomatch h.2⟩
    · rw [hlive target fun i hi => hstack ⟨i, hi⟩]
      exact ha.constant target

/-- A new cell is as constant as it was made, whatever its handle led to before. -/
theorem Sound.allocate (ha : a.Sound) {n : Memory} {handle : CellRef} {v : Value} {constant : Bool}
    (h : Allocates a.memory n handle v constant) :
    Sound ⟨n, (handle, constant) :: a.allocations⟩ where
  aligned := h.aligned
  stack i := by
    rw [List.lookup_cons, beq_eq_false_iff_ne.2 (h.notStack i).symm]
    exact ha.stack i
  constant target := by
    rw [h.flag, h.read, List.lookup_cons]
    by_cases htarget : target = handle
    · simp [htarget]
    · rw [if_neg htarget, if_neg htarget, beq_eq_false_iff_ne.2 htarget]
      exact ha.constant target

theorem Sound.truncateFrame (ha : a.Sound) (size : Nat) :
    Sound ⟨{ a.memory with frame := a.memory.frame.truncate size }, a.allocations⟩ where
  aligned := ⟨ha.aligned.arena, ha.aligned.frame.truncate size⟩
  stack := ha.stack
  constant target := by
    cases target with
    | frame i =>
      show (a.memory.frame.truncate size).isConstant i = true ↔
        ((a.memory.frame.truncate size).get? i).isSome = true ∧ _
      rw [Cells.isConstant_truncate, Cells.get?_truncate]
      by_cases hi : i < size
      · rw [if_pos hi, if_pos hi]
        exact ha.constant (.frame i)
      · rw [if_neg hi, if_neg hi]
        exact ⟨nofun, fun h => nomatch h.1⟩
    | static cell => exact ha.constant (.static cell)
    | stack i => exact ha.constant (.stack i)

theorem Sound.restack (ha : a.Sound) (stack : Operands) :
    Sound ⟨{ a.memory with stack }, a.allocations⟩ := by
  refine ha.of_cells ⟨ha.aligned.arena, ha.aligned.frame⟩ rfl
    (fun target => by cases target <;> rfl) fun target hstack => ?_
  cases target with
  | stack i => exact absurd rfl (hstack i)
  | static | frame => rfl

theorem Sound.perform (ha : a.Sound) (op : Operation) : (a.perform op).Sound := by
  cases op with
  | allocate v constant => exact ha.allocate (ha.aligned.allocates v constant)
  | allocateFrame v constant => exact ha.allocate (ha.aligned.allocatesFrame v constant)
  | truncateFrame size => exact ha.truncateFrame size
  | push v => exact ha.restack _
  | truncate size => exact ha.restack _
  | pop =>
    show Sound ⟨(a.memory.stack.pop.toOption.map _).getD a.memory, a.allocations⟩
    cases a.memory.stack.pop.toOption with
    | none => exact ha
    | some stack => exact ha.restack stack
  | swap offset =>
    show Sound ⟨((a.memory.stack.swap offset).toOption.map _).getD a.memory, a.allocations⟩
    cases (a.memory.stack.swap offset).toOption with
    | none => exact ha
    | some stack => exact ha.restack stack
  | write target v =>
    show Sound ⟨(a.memory.write target v).toOption.getD a.memory, a.allocations⟩
    cases hwrite : a.memory.write target v with
    | error fault => exact ha
    | ok n =>
      obtain ⟨hlive, -, rfl⟩ := write_eq_ok_iff.1 hwrite
      refine ha.of_cells (ha.aligned.set target v) rfl
        (fun other => isConstant_set target other v) fun other _ => ?_
      show ((a.memory.set target v).read other).isSome = _
      rw [read_set hlive]
      split
      · next he => rw [he, hlive, Option.isSome_some]
      · rfl

/-- Runs keep what each operation keeps. -/
theorem sound_reached (id : StoreId) (ops : List Operation) : (reached id ops).Sound :=
  List.foldlRecOn ops perform (sound_empty id) fun _ ha op _ => ha.perform op

/-! ## One store -/

/-- The memory is one store of cells, some of them constant. -/
structure FlatStore (a : Account) : Prop where
  /-- Constant places are places of live cells, in the arena and in the frame. -/
  aligned : a.memory.Aligned
  write_ok : ∀ target v, (∃ n, a.memory.write target v = .ok n) ↔
    (a.memory.read target).isSome = true ∧ a.memory.isConstant target = false
  write_constant : ∀ target v, (a.memory.read target).isSome = true →
    a.memory.isConstant target = true →
      a.memory.write target v = .error (.constantAssignment target)
  write_dangling : ∀ target v, a.memory.read target = none →
    a.memory.write target v = .error (.danglingReference target)
  read_write : ∀ target v n, a.memory.write target v = .ok n →
    ∀ other, n.read other = if other = target then some v else a.memory.read other
  /-- An element of the stack is found from the top. -/
  write_offset : ∀ i v n, a.memory.write (.stack i) v = .ok n →
    a.memory.stack.setTopAt (a.memory.stack.size - i) v = .ok n.stack
  allocate : ∀ v constant handle n, a.memory.allocate v constant = (handle, n) →
    a.memory.read handle = none ∧
      ∀ target, n.read target = if target = handle then some v else a.memory.read target
  allocateFrame : ∀ v constant handle n, a.memory.allocateFrame v constant = (handle, n) →
    a.memory.read handle = none ∧
      ∀ target, n.read target = if target = handle then some v else a.memory.read target
  /-- The first entry of a handle is the latest allocation that handed it out. -/
  constant : ∀ target, a.memory.isConstant target = true ↔
    (a.memory.read target).isSome = true ∧ a.allocations.lookup target = some true

theorem Sound.flatStore (ha : a.Sound) : a.FlatStore where
  aligned := ha.aligned
  write_ok target v := by
    constructor
    · rintro ⟨n, hn⟩
      obtain ⟨hlive, hconst, -⟩ := write_eq_ok_iff.1 hn
      exact ⟨hlive, hconst⟩
    · rintro ⟨hlive, hconst⟩
      exact ⟨_, write_eq_ok_iff.2 ⟨hlive, hconst, rfl⟩⟩
  write_constant target v _ hconst := by rw [write_eq, hconst, if_pos rfl]
  write_dangling target v hnone := by
    have hconst : a.memory.isConstant target = false := by
      refine eq_false_of_ne_true fun h => ?_
      obtain ⟨old, hold⟩ := ha.aligned.exists_read h
      rw [hnone] at hold
      cases hold
    rw [write_eq, hconst, hnone]
    rfl
  read_write target v n hn other := by
    obtain ⟨hlive, -, rfl⟩ := write_eq_ok_iff.1 hn
    exact read_set hlive v other
  write_offset i v n hn := by
    obtain ⟨hlive, -, rfl⟩ := write_eq_ok_iff.1 hn
    exact setTopAt_of_read_stack hlive v
  allocate v constant handle n h := by
    have hnew := ha.aligned.allocates v constant
    rw [h] at hnew
    exact ⟨hnew.fresh, hnew.read⟩
  allocateFrame v constant handle n h := by
    have hnew := ha.aligned.allocatesFrame v constant
    rw [h] at hnew
    exact ⟨hnew.fresh, hnew.read⟩
  constant := ha.constant

/-- Whatever is done to an empty memory, it is one flat store: a live cell that is not constant can
be written, which no other handle sees; an allocation hands out a handle that led nowhere; and a
cell is constant if it is live and its latest allocation made it so. -/
theorem memory_is_flat_store (id : StoreId) (ops : List Operation) :
    (reached id ops).FlatStore :=
  (sound_reached id ops).flatStore

end Account

end Memory

end ActionMachine
