import ActionMachine.Proofs.Isolation
import ActionMachine.Proofs.SoundHistory
import ActionMachine.Proofs.Walks
import ActionMachine.Value.Equality

/-
  No variable is another name for a variable. Only the operand stack holds references, so a walk
  that starts at a reference to a variable ends after one hop, and a walk that is too long stays on
  the stack (`Memory.Plain.eq_stack_of_walk`). A variable that has been given a value always has
  one: what is stored is never undefined.
-/

namespace ActionMachine

namespace Memory

variable {m : Memory} {stack : Operands} {target : CellRef} {v w : Value} {k n : Nat}

/-- Whatever part of the stack is in view, only its elements can be references. -/
theorem Plain.isReference_readWith (h : m.Plain) (hread : m.readWith stack target = some v)
    (hstack : ∀ i, target ≠ .stack i) : v.isReference = false := by
  cases target with
  | static cell =>
    have hlive : (if cell.arena = m.id then m.arena.get? cell.index else none) = some v := hread
    split at hlive
    · exact h.arena _ _ hlive
    · cases hlive
  | frame i => exact h.frame i v hread
  | stack i => exact absurd rfl (hstack i)

/-- A hop that leads to a reference starts at a reference to the stack. -/
theorem Plain.eq_stack_of_walk (h : m.Plain)
    (hwalk : (m.readWith stack).walk k v = some (.reference (some target)))
    (hnext : (m.readWith stack).walk (k + 1) v = some w) (hw : w.isReference = true) :
    ∃ i, target = .stack i := by
  rw [Reader.walk_succ hwalk] at hnext
  cases target with
  | stack i => exact ⟨i, rfl⟩
  | static cell =>
    rw [h.isReference_readWith hnext fun i hi => by cases hi] at hw
    cases hw
  | frame i =>
    rw [h.isReference_readWith hnext fun i hi => by cases hi] at hw
    cases hw

/-- The walk from a reference to a variable has one hop, or none if the cell is gone. -/
theorem Plain.follow_variable (h : m.Plain) (hstack : ∀ i, target ≠ .stack i) :
    (∃ v, (m.readWith stack).walk 1 (.reference (some target)) = some v ∧
        v.isReference = false ∧ (m.readWith stack).follow (.reference (some target)) = .ok v) ∨
      (m.readWith stack).walk 1 (.reference (some target)) = none ∧
        (m.readWith stack).follow (.reference (some target)) =
          .error (.danglingReference target) := by
  have hwalk : (m.readWith stack).walk 1 (.reference (some target)) = m.readWith stack target :=
    Reader.walk_succ (k := 0) rfl
  rw [hwalk]
  cases hread : m.readWith stack target with
  | none => exact Or.inr ⟨rfl, Reader.followWithin_dangling hread 65535⟩
  | some v =>
    have hv := h.isReference_readWith hread hstack
    refine Or.inl ⟨v, rfl, hv, ?_⟩
    exact (Reader.followWithin_reference hread (65534 + 1)).trans
      (Reader.followWithin_of_plain hv 65534)

theorem Plain.walk_of_follow (h : m.Plain)
    (hlong : (m.readWith stack).follow v = .error (.chainTooLong n)) (hk : k + 1 < Reader.maxHops) :
    ∃ i, (m.readWith stack).walk k v = some (.reference (some (.stack i))) := by
  obtain ⟨target, hwalk⟩ := Reader.walk_of_followWithin hlong (Nat.lt_of_succ_lt hk)
  obtain ⟨next, hnext⟩ := Reader.walk_of_followWithin hlong hk
  obtain ⟨i, rfl⟩ := h.eq_stack_of_walk hwalk hnext rfl
  exact ⟨i, hwalk⟩

theorem Plain.walk_of_resolve (h : m.Plain)
    (hlong : (m.readWith stack).resolve target = .error (.chainTooLong n))
    (hk : k < Reader.maxHops) :
    ∃ i, (m.readWith stack).walk k (.reference (some target)) =
      some (.reference (some (.stack i))) := by
  obtain ⟨next, hnext⟩ := Reader.walk_of_resolveWithin hlong hk
  -- the hop before is one from a reference, too
  have hhere : ∃ here, (m.readWith stack).walk k (.reference (some target)) =
      some (.reference (some here)) := by
    cases k with
    | zero => exact ⟨target, rfl⟩
    | succ k => exact Reader.walk_of_resolveWithin hlong (Nat.lt_of_succ_lt hk)
  obtain ⟨here, hwalk⟩ := hhere
  obtain ⟨i, rfl⟩ := h.eq_stack_of_walk hwalk hnext rfl
  exact ⟨i, hwalk⟩

end Memory

/-- No cell of a variable leads to another cell. -/
structure Program.AliasFree (p : Program) : Prop where
  cells : p.memory.Plain
  returned : p.returned.isReference = false
  /-- A reference to a cell of the arena or the frame leads to a value in one hop, or dangles. -/
  follow : ∀ stack target, (∀ i, target ≠ .stack i) →
    (∃ v, (p.memory.readWith stack).walk 1 (.reference (some target)) = some v ∧
        v.isReference = false ∧
        (p.memory.readWith stack).follow (.reference (some target)) = .ok v) ∨
      (p.memory.readWith stack).walk 1 (.reference (some target)) = none ∧
        (p.memory.readWith stack).follow (.reference (some target)) =
          .error (.danglingReference target)
  /-- What a slot of a scope is bound to is where the walk for the cell ends. -/
  slot : ∀ site target, p.scopes.target? site = some target → p.memory.resolve target = .ok target
  name : ∀ scope name target, p.scopes.owns scope = true →
    p.scopes.resolve scope name = .ok target → p.memory.resolve target = .ok target
  /-- A walk for a value that is too long leads from place to place on the stack. Only its last
  reference may be to a variable. -/
  followLimit : ∀ stack v n, (p.memory.readWith stack).follow v = .error (.chainTooLong n) →
    ∀ k, k + 1 < Reader.maxHops →
      ∃ i, (p.memory.readWith stack).walk k v = some (.reference (some (.stack i)))
  resolveLimit : ∀ stack target n,
    (p.memory.readWith stack).resolve target = .error (.chainTooLong n) → ∀ k < Reader.maxHops,
      ∃ i, (p.memory.readWith stack).walk k (.reference (some target)) =
        some (.reference (some (.stack i)))

namespace Exec

variable {scope id : ScopeId} {p q r : Program} {a : Action} {event : Event}

theorem Healthy.aliasFree (h : Healthy p) : p.AliasFree := by
  have hplain := h.sound.plain
  refine ⟨hplain, h.returned, fun stack target hstack => hplain.follow_variable hstack,
    fun site target hsite => resolve_eq_self_of_site h.sound hsite,
    fun scope name target ho hname => ?_,
    fun stack v n hlong k hk => hplain.walk_of_follow hlong hk,
    fun stack target n hlong k hk => hplain.walk_of_resolve hlong hk⟩
  obtain ⟨site, -, hsite⟩ := exists_site_of_resolve h.sound ho hname
  exact resolve_eq_self_of_site h.sound hsite

/-! ## Variables that have a value -/

/-- Cells of the arena that hold a value other than undefined in `p` do so in `q`. -/
structure StaysDefined (p q : Program) : Prop where
  id : q.memory.id = p.memory.id
  cells : ∀ i v, p.memory.arena.get? i = some v → v.isUndefined = false →
    ∃ w, q.memory.arena.get? i = some w ∧ w.isUndefined = false

theorem StaysDefined.refl (p : Program) : StaysDefined p p := ⟨rfl, fun _ v hv h => ⟨v, hv, h⟩⟩

theorem StaysDefined.trans (h1 : StaysDefined p q) (h2 : StaysDefined q r) : StaysDefined p r := by
  refine ⟨h2.id.trans h1.id, fun i v hv hdefined => ?_⟩
  obtain ⟨w, hw, hdefined⟩ := h1.cells i v hv hdefined
  exact h2.cells i w hw hdefined

theorem ArenaKept.staysDefined (h : ArenaKept p q) : StaysDefined p q :=
  ⟨h.id, fun i v hv hdefined => ⟨v, h.cells i v hv, hdefined⟩⟩

/-- What is stored is never undefined. -/
theorem Stores.isUndefined_eq_false {target : CellRef} {v : Value} {s : Operands}
    (h : Stores scope p a target v s) : v.isUndefined = false := by
  cases h with
  | assignPopped _ _ hw _ => exact (Reader.owned_eq_ok hw).2
  | assignLiteral _ hw => exact (Reader.owned_eq_ok hw).2
  | assignMember _ _ _ _ _ h _ =>
    obtain ⟨o, o', -, -, rfl⟩ := withMember_eq_ok h
    rfl

theorem Stored.staysDefined (h : Stored p event q) : StaysDefined p q := by
  obtain ⟨hstores⟩ := h
  rename_i target v s
  refine ⟨p.memory.set_id target v, fun i w hw hdefined => ?_⟩
  show ∃ w, (p.memory.set target v).arena.get? i = some w ∧ w.isUndefined = false
  rcases p.memory.set_cases target v with ⟨j, -, he⟩ | ⟨j, -, he⟩ | ⟨j, -, he⟩ | he <;> rw [he]
  · show ∃ w, (p.memory.arena.set j v).get? i = some w ∧ w.isUndefined = false
    rw [Cells.get?_set, hw]
    split
    · exact ⟨v, rfl, hstores.isUndefined_eq_false⟩
    · exact ⟨w, rfl, hdefined⟩
  · exact ⟨w, hw, hdefined⟩
  · exact ⟨w, hw, hdefined⟩
  · exact ⟨w, hw, hdefined⟩

theorem Segment.staysDefined {steps : List Step} (h : Segment p steps) :
    StaysDefined p (final p steps) := by
  induction steps generalizing p with
  | nil => exact .refl p
  | cons s steps ih =>
    obtain ⟨⟨rfl, -, heffect⟩, hrest⟩ := h.cons
    refine StaysDefined.trans ?_ (ih hrest)
    rcases heffect.arena_cases with hkept | hstored
    · exact hkept.staysDefined
    · exact hstored.staysDefined

theorem StaysDefined.read (h : StaysDefined p q) {cell : CellId} {v : Value}
    (hv : p.memory.read (.static cell) = some v) (hdefined : v.isUndefined = false) :
    ∃ w, q.memory.read (.static cell) = some w ∧ w.isUndefined = false := by
  have hread : (if cell.arena = p.memory.id then p.memory.arena.get? cell.index else none) =
      some v := hv
  show ∃ w, (if cell.arena = q.memory.id then q.memory.arena.get? cell.index else none) = some w ∧
    w.isUndefined = false
  rw [h.id]
  by_cases harena : cell.arena = p.memory.id
  · rw [if_pos harena] at hread ⊢
    exact h.cells _ _ hread hdefined
  · rw [if_neg harena] at hread
    cases hread

end Exec

open Exec

/-- A program that can be reached is asked for anything that brings no method with it, and `p` and
`q` are an earlier and a later state of its history, at whatever depth of calls. In `p` no cell of
the arena or the frame holds a reference, nor does the slot for returned values, with all that
follows from it for walks. A cell of the arena that holds a value in `p` holds one in `q`. -/
theorem variables_never_alias {start p q : Program} (hstart : Reachable start)
    {requests : List Request} (hfree : ∀ request ∈ requests, request.methodFree = true)
    {earlier between later : List Step}
    (hsplit : history requests start = earlier ++ between ++ later) (hp : p = final start earlier)
    (hq : q = final p between) :
    p.AliasFree ∧ ∀ cell v, p.memory.read (.static cell) = some v → v.isUndefined = false →
      ∃ w, q.memory.read (.static cell) = some w ∧ w.isUndefined = false := by
  subst hp hq
  have hsegment := segment_of_history hstart.atRest.healthy hfree hsplit
  exact ⟨hsegment.start.aliasFree, fun cell v hv hdefined =>
    hsegment.staysDefined.read hv hdefined⟩

/-- A variable is given what a reference to another one leads to. -/
def copyVariable : List Request :=
  [.run 1 .global [.declareLocal "a", .assignLocal "a" (.literal (.int 1)), .declareLocal "b",
    .resolveLocal "a", .assignLocal "b" .pop, .assignLocal "a" (.literal (.int 2))]]

/-- The fourth step leaves the reference on the stack, the fifth stores the copy, which the last one
does not change. -/
theorem copied_variable_alone :
    (final .silent ((history copyVariable .silent).take 4)).AliasFree ∧
      (∃ w, (final .silent (history copyVariable .silent)).memory.read (.static ⟨⟨1⟩, 0⟩) =
        some w ∧ w.isUndefined = false) ∧
      ((final .silent (history copyVariable .silent)).lookup "b").toOption.any
        (·.beq (.int 1)) = true := by
  have hsplit : history copyVariable .silent = (history copyVariable .silent).take 4 ++
      (history copyVariable .silent).drop 4 ++ [] := by
    rw [List.append_nil, List.take_append_drop]
  obtain ⟨hfree, hstays⟩ := variables_never_alias reachable_silent (by decide) hsplit rfl rfl
  refine ⟨hfree, ?_, by decide +kernel⟩
  rw [← final_append, List.take_append_drop] at hstays
  have hone : (final .silent ((history copyVariable .silent).take 4)).memory.read
      (.static ⟨⟨1⟩, 0⟩) = some (.int 1) := by rfl
  exact hstays _ _ hone rfl

end ActionMachine
