import ActionMachine.Proofs.Atomicity
import ActionMachine.Proofs.Objects
import ActionMachine.Proofs.Parameters

/-
  What an assignment changes. It finds the cell of a local, follows its source to a value, and puts
  that value into the cell, or into a member of the object there. The cell belongs to that local
  alone, for different slots lead to different cells, and it is not one of a default, for those are
  constant. Cells hold values and no references, so nothing but the local sees the write
  (`Stores.overwrites`). What is said of the program after a write leaves no choice
  (`Overwrites.unique`), so an assignment is told by it exactly (`attempt_assignment_eq_ok_iff`).
-/

namespace ActionMachine

def Action.isAssignment : Action → Bool
  | .assignLocal _ _ | .assignMember _ _ => true
  | _ => false

namespace Exec

variable {scope : ScopeId} {p q r : Program} {a : Action} {target : CellRef} {v w old : Value}
  {rest : Operands}

/-! ## Stores -/

/-- The source of an assignment leads to the value `w`, and leaves `rest` on the stack. -/
inductive Yields (p : Program) : Operand → Value → Operands → Prop where
  | pop {v w : Value} (hv : p.memory.stack.top = .ok v) (hw : p.memory.follow v = .ok w)
      (hdefined : w.isUndefined = false) : Yields p .pop w ⟨p.memory.stack.values.pop⟩
  | literal {v w : Value} (hw : p.memory.follow v = .ok w) (hdefined : w.isUndefined = false) :
      Yields p (.literal v) w p.memory.stack

/-- The program `q` is `p` with the value `w` in the cell of one local, and `rest` as its stack.
Every other slot of a scope or a template, and every default of a method that the program holds,
reads as before. -/
structure Overwrites (p : Program) (target : CellRef) (w : Value) (rest : Operands) (q : Program) :
    Prop where
  cell : q.memory.read target = some w
  cells : ∀ other, other ≠ target → (∀ i, other ≠ .stack i) →
    q.memory.read other = p.memory.read other
  constants : ∀ other, q.memory.isConstant other = p.memory.isConstant other
  stack : q.memory.stack = rest
  /-- Nothing has changed outside memory, and neither row of cells has another length. -/
  others : q = { p with memory := q.memory }
  id : q.memory.id = p.memory.id
  arena : q.memory.arena.size = p.memory.arena.size
  frame : q.memory.frame.size = p.memory.frame.size
  slots : ∃ site, site.template = false ∧ p.scopes.target? site = some target ∧
    ∀ other found, other ≠ site → p.scopes.target? other = some found →
      q.memory.read found = p.memory.read found
  defaults : p.Holds (·.EachMethod fun m => ∀ slot ∈ m.params.slots.toList,
    q.memory.read slot.target = p.memory.read slot.target)

/-- There is only one such program. -/
theorem Overwrites.unique (h : Overwrites p target w rest q) (h' : Overwrites p target w rest r) :
    q = r := by
  have hread : ∀ other, (∀ i, other ≠ .stack i) → q.memory.read other = r.memory.read other := by
    intro other hother
    by_cases htarget : other = target
    · rw [htarget, h.cell, h'.cell]
    · rw [h.cells other htarget hother, h'.cells other htarget hother]
  have hconst : ∀ other, q.memory.isConstant other = r.memory.isConstant other := fun other =>
    (h.constants other).trans (h'.constants other).symm
  have hid : q.memory.id = r.memory.id := h.id.trans h'.id.symm
  have harena : q.memory.arena = r.memory.arena := by
    refine Cells.ext_of_get? (fun i => ?_) fun i => ?_
    · rw [← Memory.read_staticRef, ← Memory.read_staticRef, Memory.staticRef, hid]
      exact hread _ fun _ he => by cases he
    · have hcell := hconst (.static ⟨q.memory.id, i⟩)
      simpa [Memory.isConstant, hid] using hcell
  have hframe : q.memory.frame = r.memory.frame :=
    Cells.ext_of_get? (fun i => hread (.frame i) fun _ he => by cases he) fun i => hconst (.frame i)
  have hmemory : q.memory = r.memory :=
    calc q.memory = ⟨q.memory.id, q.memory.arena, q.memory.frame, q.memory.stack⟩ := rfl
      _ = ⟨r.memory.id, r.memory.arena, r.memory.frame, r.memory.stack⟩ := by
        rw [hid, harena, hframe, h.stack, h'.stack]
  rw [h.others, h'.others, hmemory]

/-- No slot but the one that the store was meant for is bound to its cell, and the cells of defaults
are constant. -/
theorem Stores.overwrites (h : Stores scope p a target w rest) (hp : p.Sound)
    (ho : p.scopes.owns scope = true) (hold : p.memory.read target = some old)
    (hconst : p.memory.isConstant target = false)
    (hdefaults : p.Holds (·.EachMethod (HasConstantDefaults p))) :
    Overwrites p target w rest
      { p with memory := { p.memory.set target w with stack := rest } } := by
  have hread : ∀ other, (∀ i, other ≠ .stack i) →
      ({ p.memory.set target w with stack := rest } : Memory).read other =
        (p.memory.set target w).read other := by
    intro other hother
    cases other with
    | static | frame => rfl
    | stack i => exact absurd rfl (hother i)
  have hcells : ∀ other, other ≠ target → (∀ i, other ≠ .stack i) →
      ({ p.memory.set target w with stack := rest } : Memory).read other =
        p.memory.read other := fun other hne hother =>
    (hread other hother).trans (Memory.read_set_of_ne hne.symm w)
  obtain ⟨site, hlocal, hsite⟩ := h.exists_site hp ho
  refine ⟨(hread target (h.ne_stack hp ho)).trans (Memory.read_set_self hold w), hcells,
    fun other => ?_, rfl, rfl, p.memory.set_id target w, p.memory.size_arena_set target w,
    p.memory.size_frame_set target w, ⟨site, hlocal, hsite, fun other found hne hfound => ?_⟩, ?_⟩
  · exact (show _ = (p.memory.set target w).isConstant other by cases other <;> rfl).trans
      (Memory.isConstant_set target other w)
  · refine hcells found ?_ (ne_stack_of_site hp hfound)
    -- two slots never lead to the same cell
    rintro rfl
    exact hne (hp.storage.inj other site found hfound hsite)
  · refine hdefaults.mono (Value.EachMethod.mono fun m hm slot hslot => ?_)
    have hslot := hm slot hslot
    -- the cell of a default is constant, and the one that was written to is not
    refine hcells slot.target ?_ ?_
    · rintro he
      rw [he, hconst] at hslot
      cases hslot
    · rintro i he
      rw [he] at hslot
      cases hslot

/-! ## Assignments as stores -/

theorem yields_pop_iff : Yields p .pop w rest ↔ ∃ v, p.memory.stack.top = .ok v ∧
    p.memory.owned "=" v = .ok w ∧ p.memory.stack.pop = .ok rest := by
  constructor
  · rintro ⟨hv, hw, hdefined⟩
    exact ⟨_, hv, Reader.owned_eq_ok_iff.2 ⟨hw, hdefined⟩,
      Operands.pop_eq_ok_iff.2 ⟨Operands.pos_of_topAt hv, rfl⟩⟩
  · rintro ⟨v, hv, hw, hrest⟩
    obtain ⟨hw, hdefined⟩ := Reader.owned_eq_ok hw
    obtain ⟨-, rfl⟩ := Operands.pop_eq_ok_iff.1 hrest
    exact .pop hv hw hdefined

/-- A write to the cell of a variable does not reach the stack. -/
theorem stack_set_of_resolve {name : Name} (hp : p.Sound) (ho : p.scopes.owns scope = true)
    (htarget : p.scopes.resolve scope name = .ok target) (v : Value) :
    (p.memory.set target v).stack = p.memory.stack := by
  obtain ⟨site, -, hsite⟩ := exists_site_of_resolve hp ho htarget
  exact Memory.stack_set_of_ne (ne_stack_of_site hp hsite) v

theorem stores_assignLocal_iff {name : Name} {source : Operand} (hp : p.Sound)
    (ho : p.scopes.owns scope = true) :
    Stores scope p (.assignLocal name source) target w rest ↔
      p.scopes.resolve scope name = .ok target ∧ Yields p source w rest := by
  constructor
  · intro h
    cases h with
    | assignPopped htarget hv hw hs =>
      rw [stack_set_of_resolve hp ho htarget] at hs
      exact ⟨htarget, yields_pop_iff.2 ⟨_, hv, hw, hs⟩⟩
    | assignLiteral htarget hw =>
      rw [stack_set_of_resolve hp ho htarget]
      obtain ⟨hw, hdefined⟩ := Reader.owned_eq_ok hw
      exact ⟨htarget, .literal hw hdefined⟩
  · rintro ⟨htarget, h⟩
    cases source with
    | pop =>
      obtain ⟨v, hv, hw, hs⟩ := yields_pop_iff.1 h
      rw [← stack_set_of_resolve hp ho htarget w] at hs
      exact .assignPopped htarget hv hw hs
    | literal v =>
      cases h with
      | literal hw hdefined =>
        rw [← stack_set_of_resolve hp ho htarget w]
        exact .assignLiteral htarget (Reader.owned_eq_ok_iff.2 ⟨hw, hdefined⟩)

/-- The object of the variable is in the cell of the variable itself. -/
theorem stores_assignMember_iff {object member : Name} {changed : Value} (hp : p.Sound)
    (ho : p.scopes.owns scope = true) (hindexed : p.Holds Value.Indexed) :
    Stores scope p (.assignMember object member) target changed rest ↔
      p.scopes.resolve scope object = .ok target ∧ ∃ w o before old after,
        Yields p .pop w rest ∧ p.memory.read target = some (.object o) ∧
        o.SplitsAt member before old after ∧
        changed = .object { o with members := before ++ ⟨member, w⟩ :: after } := by
  have hobjects : ∀ o, p.memory.read target = some (.object o) → o.Indexed := by
    intro o hobject
    have hheld := hindexed.memory _ _ hobject
    rw [Value.loose_indexed] at hheld
    exact (Value.eachObject_object.1 hheld.1).1
  constructor
  · intro h
    cases h with
    | assignMember hbound htarget hv hw hholder hchanged hs =>
      obtain ⟨site, -, hsite⟩ := exists_site_of_resolve hp ho hbound
      cases htarget.symm.trans (resolve_eq_self_of_site hp hsite)
      rw [stack_set_of_resolve hp ho hbound] at hs
      obtain ⟨o, o', rfl, hset, rfl⟩ := withMember_eq_ok hchanged
      obtain ⟨before, old, after, hsplit, rfl⟩ := (hobjects o hholder).setMember?_eq_some_iff.1 hset
      exact ⟨hbound, _, o, before, old, after, yields_pop_iff.2 ⟨_, hv, hw, hs⟩, hholder, hsplit,
        rfl⟩
  · rintro ⟨hbound, w, o, before, old, after, hyields, hobject, hsplit, rfl⟩
    obtain ⟨site, -, hsite⟩ := exists_site_of_resolve hp ho hbound
    obtain ⟨v, hv, hw, hs⟩ := yields_pop_iff.1 hyields
    have hset : o.setMember? member w = some { o with members := before ++ ⟨member, w⟩ :: after } :=
      (hobjects o hobject).setMember?_eq_some_iff.2 ⟨before, old, after, hsplit, rfl⟩
    have hchanged : withMember member w (.object o) =
        .ok (.object { o with members := before ++ ⟨member, w⟩ :: after }) := by
      simp only [withMember, Value.object?, hset]
    rw [← stack_set_of_resolve hp ho hbound
      (.object { o with members := before ++ ⟨member, w⟩ :: after })] at hs
    exact .assignMember hbound (resolve_eq_self_of_site hp hsite) hv hw hobject hchanged hs

theorem attempt_eq_perform {run : Body} (hdepth : a.operandArity ≤ p.memory.stack.size)
    (hzero : a.hasZeroOffset = false) : attempt run scope a p = perform run scope a p :=
  bind_of_ok (checkOperands_eq_ok hdepth hzero)

theorem liftM_ok {α : Type} (x : α) :
    (liftM (.ok x : Except Violation α) : Except (Stop Fault) α) = .ok x := rfl

/-- A store to a live cell that is not constant is carried out. -/
theorem attempt_of_stores {run : Body} (h : Stores scope p a target w rest)
    (hold : p.memory.read target = some old) (hconst : p.memory.isConstant target = false) :
    attempt run scope a p =
      .ok .next { p with memory := { p.memory.set target w with stack := rest } } := by
  have hupdate : ∀ f u, f old = .ok u → p.memory.update target f = .ok (p.memory.set target u) :=
    fun f u hf => Memory.update_eq_ok_iff.2 ⟨hconst, old, u, hold, hf, rfl⟩
  have hwrite : ∀ u, p.memory.write target u = .ok (p.memory.set target u) :=
    fun u => hupdate _ u rfl
  cases h with
  | assignPopped htarget hv hw hs =>
    rw [attempt_eq_perform (a := .assignLocal _ .pop) (Operands.pos_of_topAt hv) rfl, perform]
    apply Ends.eq_ok
    simp only [assignLocal, pop, ends_bind, ends_get, ends_pure, ends_resolve, ends_ownedTop,
      ends_liftFault, ends_setMemory, ends_onStack, htarget, hv, hw, hwrite, hs, liftM_ok,
      Except.ok.injEq, forall_eq', reduceCtorEq, false_implies, implies_true, and_true]
    exact ⟨trivial, rfl⟩
  | assignLiteral htarget hw =>
    rw [attempt_eq_perform (Nat.zero_le _) rfl, perform]
    apply Ends.eq_ok
    simp only [assignLocal, ends_bind, ends_get, ends_pure, ends_resolve, ends_owned,
      ends_liftFault, ends_setMemory, htarget, hw, hwrite, Except.ok.injEq, forall_eq',
      reduceCtorEq, false_implies, implies_true, and_true]
  | assignMember hbound htarget hv hw hholder hchanged hs =>
    cases hold.symm.trans hholder
    rw [attempt_eq_perform (a := .assignMember _ _) (Operands.pos_of_topAt hv) rfl, perform]
    apply Ends.eq_ok
    simp only [assignMember, objectCell, pop, ends_bind, ends_get, ends_pure, ends_resolve,
      ends_ownedTop, ends_liftFault, ends_setMemory, ends_onStack, hbound, htarget, hv, hw,
      hupdate _ _ hchanged, hs, liftM_ok, Except.ok.injEq, forall_eq', reduceCtorEq, false_implies,
      implies_true, and_true]
    exact ⟨trivial, rfl⟩

/-- An assignment that succeeds is a store, and nothing else. -/
theorem exists_stores_of_attempt {run : Body} {flow : Flow} (ha : a.isAssignment = true)
    (h : attempt run scope a p = .ok flow q) :
    ∃ target w rest old, Stores scope p a target w rest ∧ p.memory.read target = some old ∧
      p.memory.isConstant target = false ∧ flow = .next ∧
      q = { p with memory := { p.memory.set target w with stack := rest } } := by
  have hflat : a.isFlat = true := by
    cases a with
    | assignLocal | assignMember => rfl
    | _ => cases ha
  have heffects : Effects scope p a (attempt run scope a) := attempt_effects hflat
  cases heffects.of_ok h with
  | store hstores hold hconst => exact ⟨_, _, _, _, hstores, hold, hconst, rfl, rfl⟩
  | restack hrestacks => cases hrestacks <;> cases ha
  | bind hbinds => cases hbinds <;> cases ha
  | addInstanceMember | defineMethod | ret | debugPrint => cases ha

/-- An assignment succeeds with just the programs that a store to a cell that is not constant leads
to. -/
theorem attempt_assignment_eq_ok_iff {run : Body} {flow : Flow} (ha : a.isAssignment = true)
    (hp : p.Sound) (ho : p.scopes.owns scope = true)
    (hdefaults : p.Holds (·.EachMethod (HasConstantDefaults p))) :
    attempt run scope a p = .ok flow q ↔ flow = .next ∧ ∃ target w rest,
      Stores scope p a target w rest ∧ p.memory.isConstant target = false ∧
      Overwrites p target w rest q := by
  constructor
  · intro h
    obtain ⟨target, w, rest, old, hstores, hold, hconst, rfl, rfl⟩ := exists_stores_of_attempt ha h
    exact ⟨rfl, target, w, rest, hstores, hconst,
      hstores.overwrites hp ho hold hconst hdefaults⟩
  · rintro ⟨rfl, target, w, rest, hstores, hconst, hoverwrites⟩
    obtain ⟨site, -, hsite⟩ := hstores.exists_site hp ho
    obtain ⟨old, hold, -⟩ := hp.exists_read hsite
    rw [attempt_of_stores hstores hold hconst,
      hoverwrites.unique (hstores.overwrites hp ho hold hconst hdefaults)]

end Exec

open Exec

/-- A new program is asked for anything that brings no method with it, with a host whose functions
make none. The objects that its literals and its host bring with them have the index of their
members, as all have that are made from a list of members and then written to. Let `p` be some state
of its history, and an assignment be performed there against a live scope. It succeeds if and only
if the name leads to a cell that is not constant, its source leads to a defined value, and, where a
member is assigned, the cell holds an object with a member of that name. Then it has put the value
into that cell, or into the first member of that name of the object, which keeps its other members,
their names and their order. Nothing else has changed but that the source has been taken from the
stack, if it was there: no other variable, no template and no default reads differently, whatever
was copied from where. -/
theorem assignment_overwrites_one_cell {arena tree : StoreId} {host : Host} {mode : Mode}
    {sink : Sink} (htree : tree ≠ .shared) (hmethod : host.MakesNoMethod)
    (hindexed : host.KeepsIndexed) {requests : List Request}
    (hfree : ∀ request ∈ requests, request.methodFree = true)
    (hliteral : ∀ request ∈ requests, request.EachLiteral (·.EachObject Object.Indexed))
    {earlier later : List Step} {start p : Program}
    (hstart : start = .new arena tree host mode sink)
    (hsplit : history requests start = earlier ++ later) (hp : p = final start earlier)
    {scope : ScopeId} (ho : p.scopes.owns scope = true) (run : Body) :
    (∀ name source flow q, attempt run scope (.assignLocal name source) p = .ok flow q ↔
      flow = .next ∧ ∃ target w rest, p.scopes.resolve scope name = .ok target ∧
        Yields p source w rest ∧ p.memory.isConstant target = false ∧
        Overwrites p target w rest q) ∧
    ∀ object member flow q, attempt run scope (.assignMember object member) p = .ok flow q ↔
      flow = .next ∧ ∃ target w rest o before old after,
        p.scopes.resolve scope object = .ok target ∧ Yields p .pop w rest ∧
        p.memory.read target = some (.object o) ∧ o.SplitsAt member before old after ∧
        p.memory.isConstant target = false ∧
        Overwrites p target (.object { o with members := before ++ ⟨member, w⟩ :: after })
          rest q := by
  subst hstart hp
  have hdefaults := (new_methods_defined htree hmethod hfree hsplit).mono
    (Value.EachMethod.mono fun m hm => by
      obtain ⟨s, hs, params, hdefines⟩ := hm
      exact constant_of_defines hsplit hs hdefines)
  obtain ⟨hhealthy, -, hheld⟩ :=
    (contents_indexed hmethod hindexed).history htree hmethod hfree hliteral hsplit
  refine ⟨fun name source flow q => ?_, fun object member flow q => ?_⟩
  · rw [attempt_assignment_eq_ok_iff rfl hhealthy.sound ho hdefaults]
    simp only [stores_assignLocal_iff hhealthy.sound ho, and_assoc]
  · rw [attempt_assignment_eq_ok_iff rfl hhealthy.sound ho hdefaults]
    refine and_congr_right fun _ => exists_congr fun target => ?_
    simp only [stores_assignMember_iff hhealthy.sound ho hheld]
    constructor
    · rintro ⟨-, rest, ⟨htarget, w, o, before, old, after, hw, hobject, hsplits, rfl⟩, hq⟩
      exact ⟨w, rest, o, before, old, after, htarget, hw, hobject, hsplits, hq⟩
    · rintro ⟨w, rest, o, before, old, after, htarget, hw, hobject, hsplits, hq⟩
      exact ⟨_, rest, ⟨htarget, w, o, before, old, after, hw, hobject, hsplits, rfl⟩, hq⟩

/-- An object is kept in `a`, then copied from there to `b`. The value for the next assignment is on
the stack. -/
def copyObject : List Request :=
  [.run 1 .global [.defineClass "C" [], .addInstanceMember "C" "x" (.int 1),
    .addInstanceMember "C" "y" (.int 2), .declareLocal "a", .declareLocal "b",
    .constructInstance "C", .assignLocal "a" .pop, .resolveLocal "a", .assignLocal "b" .pop,
    .pushLiteral (.int 3)]]

/-- The program after all that. -/
def copied : Program := final .silent (history copyObject .silent)

/-- What the cells of the arena hold, as text. -/
def Program.arenaTexts (p : Program) : List String :=
  p.memory.arena.values.toList.map (·.display)

/-- A member of the copy is assigned. The object in `a` keeps its own, and so does the template. -/
theorem copied_object_is_apart : ∃ target w rest q,
    attempt (enter 0) .global (.assignMember "b" "x") copied = .ok .next q ∧
    copied.scopes.resolve .global "b" = .ok target ∧ Overwrites copied target w rest q ∧
    rest.size = 0 ∧ q.arenaTexts =
      ["1", "2", "C \x7b x: 1, y: 2 \x7d", "C \x7b x: 3, y: 2 \x7d"] := by
  have hliteral : ∀ request ∈ copyObject, request.EachLiteral (·.EachObject Object.Indexed) := by
    intro request hmem
    cases List.mem_singleton.1 hmem
    simp [Request.EachLiteral, Action.AllLiterals, Action.EachLiteral, Value.EachObject]
  have hrun : ((attempt (enter 0) .global (.assignMember "b" "x")).run' copied).isSome = true := by
    decide +kernel
  have hsize : (after (attempt (enter 0) .global (.assignMember "b" "x")) copied).memory.stack.size
      = 0 := by decide +kernel
  have htexts : (after (attempt (enter 0) .global (.assignMember "b" "x")) copied).arenaTexts =
      ["1", "2", "C \x7b x: 1, y: 2 \x7d", "C \x7b x: 3, y: 2 \x7d"] := by decide +kernel
  have howns : copied.scopes.owns .global = true := by decide +kernel
  have hp : copied = final .silent (history copyObject .silent) := rfl
  -- from here on the program is a name, so that nothing tries to run it
  generalize copied = p at *
  obtain ⟨flow, hflow⟩ := Option.isSome_iff_exists.1 hrun
  obtain ⟨q, hq⟩ := exists_ok_of_run' hflow
  have hafter : after (attempt (enter 0) .global (.assignMember "b" "x")) p = q := by rw [after, hq]
  obtain ⟨rfl, target, w, rest, o, before, old, others, htarget, -, -, -, -, hoverwrites⟩ :=
    ((assignment_overwrites_one_cell (by decide) Native.catalogue_makesNoMethod
      Native.catalogue_makesNoObject.keepsIndexed (by decide) hliteral (rfl : Program.silent = _)
      (List.append_nil (history copyObject .silent)).symm hp howns (enter 0)).2 "b" "x" flow q).1 hq
  rw [hafter] at hsize htexts
  exact ⟨target, _, rest, q, hq, htarget, hoverwrites, hoverwrites.stack ▸ hsize, htexts⟩

end ActionMachine
