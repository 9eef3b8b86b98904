import ActionMachine.Proofs.Arguments
import ActionMachine.Proofs.Constants
import ActionMachine.Proofs.Provenance
import ActionMachine.Proofs.ReturnSlot

/-
  Parameters of calls. The cells that a definition has made for its parameters are constant, so at
  every later call they hold what the defaults led to when the method was defined, whatever was
  assigned since (`stocked_of_defines`). A call reads them where it has no argument and binds the
  parameters to new cells of the frame (`Stocked.called`). What speaks against a call can be told
  from the parameters alone (`Stocked.startable_iff`), and a default that is missing is refused as
  an argument too many is (`Stocked.refused`).
-/

namespace ActionMachine

theorem ScopeTree.get?_set_self {t : ScopeTree} {id : ScopeId} {s s' : Scope}
    (h : t.get? id = some s) : (t.set id s').get? id = some s' := by
  obtain ⟨ho, hs⟩ := get?_eq_some_iff.1 h
  refine get?_eq_some_iff.2 ⟨(owns_set id id s').trans ho, ?_⟩
  rw [getElem?_set (Array.getElem?_eq_some_iff.1 hs).1, if_pos rfl]

namespace Exec

variable {scope : ScopeId} {p q : Program} {m : Method} {params : List Parameter}
  {defaults given values : List Value} {count : Nat} {frame : Frame}

/-! ## Cells of defaults -/

/-- After a definition the cells of its parameters are constant. -/
theorem Defined.constant {name : Name} {body : List Action}
    (h : Defined p scope name params body q) {i : Nat} {w : Value}
    (hw : (p.memory.stored [] params)[i]? = some w) :
    q.memory.isConstant (p.memory.staticRef (p.memory.arena.size + i)) = true ∧
      q.memory.read (p.memory.staticRef (p.memory.arena.size + i)) = some w := by
  obtain ⟨r, hbound, rfl⟩ := h.bound
  obtain ⟨hid, harena, -⟩ := hbound.writes
  have hid : p.memory.id = r.memory.id := hid.symm
  have hconst : (p.memory.arena.pushAll (p.memory.stored [] params) true).isConstant
      (p.memory.arena.size + i) = true := Cells.isConstant_pushAll hw
  have hlt : p.memory.arena.size + i <
      (p.memory.arena.pushAll (p.memory.stored [] params) true).size :=
    Cells.lt_size_of_get? ((Cells.get?_pushAll i).trans hw)
  constructor
  · show (decide (p.memory.id = r.memory.id) && r.memory.arena.isConstant _) = true
    rw [decide_eq_true hid, Bool.true_and, ← hconst]
    exact harena.flag _ hlt
  · show (if p.memory.id = r.memory.id then r.memory.arena.get? _ else none) = some w
    rw [if_pos hid]
    exact (harena.value _ hlt hconst).trans ((Cells.get?_pushAll i).trans hw)

/-- The method has these parameters. Their cells hold the values, which are undefined where there is
no default. -/
structure Stocked (p : Program) (m : Method) (params : List Parameter) (defaults : List Value) :
    Prop where
  names : m.params.slots.toList.map (·.name) = params.map (·.name)
  reads : m.params.slots.toList.map (p.memory.read ·.target) = defaults.map some
  missing : defaults.map (·.isUndefined) = params.map (·.default.isNone)

theorem Stocked.length_slots (h : Stocked p m params defaults) :
    m.params.slots.toList.length = params.length := by
  simpa using congrArg List.length h.names

theorem Stocked.arity_eq (h : Stocked p m params defaults) : m.arity = params.length :=
  Array.length_toList.symm.trans h.length_slots

/-- In each state after the definition of a method, the cells that were made for its parameters are
constant and hold what they did then. -/
theorem Step.Defines.cells {requests : List Request} {earlier later : List Step} {start : Program}
    {s : Step} (h : s.Defines params m) (hsplit : history requests start = earlier ++ later)
    (hs : s ∈ earlier) :
    (∃ after, Defined s.before m.scope m.name params m.body after) ∧
    m.params.slots.toList =
      Slot.row s.before.memory.staticRef s.before.memory.arena.size (params.map (·.name)) ∧
    ∀ i w, (s.before.memory.stored [] params)[i]? = some w →
      (final start earlier).memory.isConstant
        (s.before.memory.staticRef (s.before.memory.arena.size + i)) = true ∧
      (final start earlier).memory.read
        (s.before.memory.staticRef (s.before.memory.arena.size + i)) = some w := by
  obtain ⟨hlinked, hhappens⟩ := linked_history requests start
  rw [hsplit] at hlinked hhappens
  obtain ⟨before, after, rfl⟩ := List.append_of_mem hs
  obtain ⟨-, -, hafter⟩ := linked_append.1 (linked_append.1 hlinked).1
  obtain ⟨stage, hevent, hm⟩ := h
  have hdefined := defined_of_advance
    ((hhappens s (List.mem_append_left _ hs)).advance_eq hevent)
  refine ⟨⟨_, hdefined⟩, ?_, fun i w hw => ?_⟩
  · exact (congrArg (·.params.slots.toList) hm).trans (SlotSet.consistent_ofRow hdefined.names).2
  · obtain ⟨hconst, hread⟩ := hdefined.constant hw
    rw [final_append]
    exact hafter.static_constant (fun t ht => hhappens t (by simp [ht])) hconst hread

/-- The cells of its parameters are constant. -/
def HasConstantDefaults (p : Program) (m : Method) : Prop :=
  ∀ slot ∈ m.params.slots.toList, p.memory.isConstant slot.target = true

theorem constant_of_defines {requests : List Request} {earlier later : List Step} {start : Program}
    (hsplit : history requests start = earlier ++ later) {s : Step} (hs : s ∈ earlier)
    (hdefines : s.Defines params m) : HasConstantDefaults (final start earlier) m := by
  obtain ⟨⟨after, hdefined⟩, hslots, hcells⟩ := hdefines.cells hsplit hs
  intro slot hslot
  rw [hslots] at hslot
  obtain ⟨i, hi⟩ := List.mem_iff_getElem?.1 hslot
  rw [Slot.getElem?_row] at hi
  obtain ⟨name, hname, rfl⟩ := Option.map_eq_some_iff.1 hi
  have hlt : i < (s.before.memory.stored [] params).length := by
    rw [hdefined.cells, ← List.length_map]
    exact (List.getElem?_eq_some_iff.1 hname).1
  exact (hcells i _ (List.getElem?_eq_getElem hlt)).1

/-! ## Values for the parameters -/

theorem defaultValues_of_reads {memory : Memory} {fault : Fault} {slots : List Slot}
    (h : slots.map (memory.read ·.target) = values.map some) :
    defaultValues memory fault slots =
      if values.any (·.isUndefined) then .error fault else .ok values := by
  induction slots generalizing values with
  | nil =>
    cases values with
    | nil => rfl
    | cons v values => cases h
  | cons slot slots ih =>
    cases values with
    | nil => cases h
    | cons v values =>
      obtain ⟨hv, hrest⟩ := List.cons.inj h
      rw [defaultValues, Memory.fetch_eq_ok_iff.2 hv, ih hrest]
      cases hundefined : v.isUndefined <;> cases hany : values.any (·.isUndefined) <;>
        simp [bind, Except.bind, pure, Except.pure, hundefined, hany]

/-- Every parameter after the first `count` has a default. -/
def Defaulted (params : List Parameter) (count : Nat) : Prop :=
  ∀ param ∈ params.drop count, param.default.isSome = true

theorem Stocked.any_isUndefined (h : Stocked p m params defaults) (count : Nat) :
    (defaults.drop count).any (·.isUndefined) = true ↔ ¬ Defaulted params count := by
  have hmissing := congrArg (fun bs => (bs.drop count).any id) h.missing
  simp only [← List.map_drop, List.any_map, Function.id_comp] at hmissing
  have hany : (defaults.drop count).any (·.isUndefined) =
      (params.drop count).any (·.default.isNone) := hmissing
  rw [hany, Defaulted]
  simp [Option.isSome_iff_ne_none]

/-- A call may be made with the top `count` elements of the stack as its arguments: one more call is
allowed, and each argument leads to a value. -/
structure Callable (p : Program) (count : Nat) : Prop where
  limit : ∀ limit, p.mode.maxCallDepth = some limit → p.callDepth < limit
  arguments : ∀ v ∈ p.memory.stack.above (p.memory.stack.size - count),
    ∃ w, p.memory.follow v = .ok w ∧ w.isUndefined = false

theorem ends_argumentValues {base : Nat}
    (hgiven : p.memory.read.LeadTo (p.memory.stack.above base) given)
    {done : List Value → Program → Prop} {stopped : Stop Fault → Program → Prop} :
    Ends (argumentValues m count base) p done stopped ↔
      (∀ rest, defaultValues p.memory (.arityMismatch m.name m.arity count)
        (m.params.slots.toList.drop count) = .ok rest → done (given ++ rest) p) ∧
      ∀ fault, defaultValues p.memory (.arityMismatch m.name m.arity count)
        (m.params.slots.toList.drop count) = .error fault → stopped (.fault fault) p := by
  simp only [argumentValues, ends_bind, ends_get, ends_liftFault, ends_pure,
    Reader.ownedAll_eq_ok_iff.2 hgiven, Except.ok.injEq, forall_eq', reduceCtorEq, false_implies,
    implies_true, and_true]

/-- Arguments that lead to values are followed by the defaults of the other parameters, or one of
these is missing. -/
theorem Stocked.ends_argumentValues (h : Stocked p m params defaults) {base : Nat}
    (hgiven : p.memory.read.LeadTo (p.memory.stack.above base) given)
    {done : List Value → Program → Prop} {stopped : Stop Fault → Program → Prop} :
    Ends (argumentValues m count base) p done stopped ↔
      (Defaulted params count → done (given ++ defaults.drop count) p) ∧
      (¬ Defaulted params count →
        stopped (.fault (.arityMismatch m.name params.length count)) p) := by
  have hreads : (m.params.slots.toList.drop count).map (p.memory.read ·.target) =
      (defaults.drop count).map some := by
    rw [List.map_drop, List.map_drop, h.reads]
  rw [Exec.ends_argumentValues hgiven, defaultValues_of_reads hreads, h.arity_eq]
  by_cases hdefaulted : Defaulted params count
  · have hany : ¬ (defaults.drop count).any (·.isUndefined) = true := fun hany =>
      (h.any_isUndefined count).1 hany hdefaulted
    simp [hany, hdefaulted]
  · simp [(h.any_isUndefined count).2 hdefaulted, hdefaulted]

/-- An argument too many, or nothing but a default that is missing, is refused as a call with the
wrong number of arguments. -/
theorem Stocked.refused (h : Stocked p m params defaults) (hcount : count ≤ p.memory.stack.size)
    (hbad : params.length < count ∨ Callable p count ∧ ¬ Defaulted params count) :
    openCall m count p = .error (.fault (.arityMismatch m.name params.length count)) p := by
  apply Ends.eq_error
  rw [ends_openCall, h.arity_eq]
  rcases hbad with hmany | ⟨hcallable, hmissing⟩
  · exact ⟨fun _ => ⟨rfl, rfl⟩, fun hle => absurd hle (Nat.not_le_of_lt hmany)⟩
  · have hle : count ≤ params.length := by
      refine Nat.le_of_not_lt fun hlt => hmissing fun param hparam => ?_
      rw [List.drop_eq_nil_of_le (Nat.le_of_lt hlt)] at hparam
      cases hparam
    refine ⟨fun hlt => absurd hle (Nat.not_le_of_lt hlt), fun _ => ⟨fun limit hlimit hdeep => ?_,
      fun _ => ?_⟩⟩
    · exact absurd (hcallable.limit limit hlimit) (Nat.not_lt_of_le hdeep)
    · obtain ⟨given, hgiven⟩ := Reader.exists_leadTo_iff.2 hcallable.arguments
      have herror : argumentValues m count (p.memory.stack.size - count) p =
          .error (.fault (.arityMismatch m.name params.length count)) p := by
        apply Ends.eq_error
        rw [h.ends_argumentValues hgiven]
        exact ⟨fun hdefaulted => absurd hdefaulted hmissing, fun _ => ⟨rfl, rfl⟩⟩
      rw [ends_openChecked_of_error hcount herror]
      exact ⟨rfl, rfl⟩

/-! ## The scope of a call -/

/-- The names are bound one after the other to new cells of the frame. -/
theorem bindArguments_binds {id : ScopeId} {owner : Scope} (hget : p.scopes.get? id = some owner)
    (args : List (Slot × Value)) :
    Ends (bindArguments id args) p
      (fun _ q => q.memory.frame = p.memory.frame.pushAll (args.map (·.2)) false ∧
        q.scopes.get? id = some { owner with
          locals := owner.locals.extend
            (Slot.row .frame p.memory.frame.size (args.map (·.1.name))) })
      fun _ _ => True := by
  induction args generalizing p owner with
  | nil => exact ⟨Cells.pushAll_nil.symm, hget⟩
  | cons arg args ih =>
    obtain ⟨slot, v⟩ := arg
    simp only [bindArguments, ends_bind, ends_allocateFrame, ends_get, ends_liftStop,
      ends_setScopes]
    refine ⟨fun tree htree => ?_, fun _ _ => trivial⟩
    obtain ⟨found, owner', hfound, hadd, rfl⟩ := addLocal_eq_ok_iff.1 htree
    obtain rfl : owner = found := Option.some.inj (hget.symm.trans hfound)
    obtain ⟨locals, hlocals, howner'⟩ := bind_eq_ok_iff.1 hadd
    cases howner'
    have hset : (p.scopes.set id { owner with locals }).get? id = some { owner with locals } :=
      ScopeTree.get?_set_self hget
    have hrest := ih (p := { p with
      memory := (p.memory.allocateFrame v false).2
      scopes := p.scopes.set id { owner with locals } }) hset
    refine hrest.imp (fun _ q hq => ?_) fun _ _ _ => trivial
    have hsize : (p.memory.allocateFrame v false).2.frame.size = p.memory.frame.size + 1 :=
      Cells.size_push _ _
    rw [List.map_cons, List.map_cons, Cells.pushAll_cons, Slot.row_cons,
      SlotSet.extend_cons hlocals, ← hsize]
    exact hq

/-- The parameters are bound, in their order, to new cells on top of the frame, which hold the
values and are not constant. Their scope is new and lies inside the scope of the method. -/
structure Called (m : Method) (params : List Parameter) (values : List Value) (p : Program)
    (frame : Frame) (q : Program) : Prop where
  fresh : frame.scope = ⟨p.scopes.id, p.scopes.size⟩
  scope : ∃ s, q.scopes.get? frame.scope = some s ∧ s.kind.isCall = true ∧ s.parent = m.scope ∧
    s.locals.slots.toList = Slot.row .frame p.memory.frame.size (params.map (·.name))
  length : values.length = params.length
  cells : q.memory.frame = p.memory.frame.pushAll values false

theorem Stocked.called (h : Stocked p m params defaults) (hp : p.Sound) (hm : p.scopes.Admits m)
    (hlength : values.length = params.length) (hstarted : Started m count p values frame q) :
    Called m params values p frame q := by
  obtain ⟨r, hbind, rfl, rfl⟩ := hstarted
  have hget : (binding p m count).scopes.get? ⟨p.scopes.id, p.scopes.size⟩ =
      some (.call m.name m.scope) := hp.tree.get?_pushCallScope m.scope m.name
  have hslots : m.params.slots.toList.length = values.length := h.length_slots.trans hlength.symm
  obtain ⟨hframe, hscope⟩ := (bindArguments_binds hget _).of_ok hbind
  have hfirst : (m.params.slots.toList.zip values).map Prod.fst = m.params.slots.toList :=
    List.map_fst_zip (Nat.le_of_eq hslots)
  have hnames : (m.params.slots.toList.zip values).map (·.1.name) = params.map (·.name) :=
    List.map_map.symm.trans ((congrArg (List.map (·.name)) hfirst).trans h.names)
  have hvalues : (m.params.slots.toList.zip values).map (·.2) = values :=
    List.map_snd_zip (Nat.le_of_eq hslots.symm)
  rw [hvalues] at hframe
  rw [hnames] at hscope
  have hnodup : (params.map (·.name)).Nodup := h.names ▸ hm.params
  refine ⟨rfl, ⟨_, hscope, rfl, rfl, ?_⟩, hlength, hframe⟩
  exact (SlotSet.consistent_ofRow hnodup).2

/-- The body of a method is to run. -/
def Stage.isCall : Stage → Bool
  | .inCall _ _ => true
  | _ => false

end Exec

open Exec

end ActionMachine
