import ActionMachine.Proofs.Atomicity
import ActionMachine.Proofs.SlotList

/-
  Definitions of methods. Before its name is looked at, a definition gives each parameter a
  constant cell of the arena: the value that the default leads to, or nothing. `Memory.stored` says
  how far it comes with that, up to a default that leads nowhere or a name that was there before.
  So a definition that is refused may leave cells behind that nothing is bound to. It leaves none
  exactly if it fails at the default of its first parameter or has no parameters
  (`rejected_definition_traceless_iff`).
-/

namespace ActionMachine

/-! ## Rows of new cells -/

namespace Cells

variable {c : Cells} {w : Value} {ws : List Value} {constant : Bool}

/-- Add a cell for each value at the end. -/
def pushAll (c : Cells) (ws : List Value) (constant : Bool) : Cells :=
  ws.foldl (fun c w => c.push w constant) c

theorem pushAll_nil : c.pushAll [] constant = c := rfl

theorem pushAll_cons : c.pushAll (w :: ws) constant = (c.push w constant).pushAll ws constant := rfl

theorem values_pushAll : (c.pushAll ws constant).values = c.values ++ ws.toArray := by
  induction ws generalizing c with
  | nil => rw [pushAll_nil, Array.append_empty]
  | cons w ws ih =>
    rw [pushAll_cons, ih]
    simp [push]

theorem size_pushAll : (c.pushAll ws constant).size = c.size + ws.length := by
  simp [size, values_pushAll]

/-- The new cells come after the others. -/
theorem get?_pushAll (i : Nat) : (c.pushAll ws constant).get? (c.size + i) = ws[i]? := by
  have hle : c.values.size ≤ c.values.size + i := Nat.le_add_right _ _
  rw [get?, values_pushAll, size, Array.getElem?_append_right hle, Nat.add_sub_cancel_left,
    List.getElem?_toArray]

theorem isConstant_pushAll_of_isConstant {i : Nat} (h : c.isConstant i = true) :
    (c.pushAll ws constant).isConstant i = true := by
  induction ws generalizing c with
  | nil => exact h
  | cons w ws ih =>
    refine ih ?_
    rw [isConstant_push, h, Bool.or_true]

theorem isConstant_pushAll {i : Nat} (hw : ws[i]? = some w) :
    (c.pushAll ws true).isConstant (c.size + i) = true := by
  induction ws generalizing c i with
  | nil => cases hw
  | cons v ws ih =>
    rw [pushAll_cons]
    cases i with
    | zero =>
      refine isConstant_pushAll_of_isConstant ?_
      rw [isConstant_push, Nat.add_zero, decide_eq_true rfl, Bool.true_and, Bool.true_or]
    | succ i =>
      have hnext := ih (c := c.push v true) hw
      rwa [size_push, Nat.add_assoc, Nat.add_comm 1] at hnext

theorem pushAll_eq_self_iff : c.pushAll ws constant = c ↔ ws = [] := by
  refine ⟨fun h => ?_, fun h => h ▸ pushAll_nil⟩
  have hsize : c.size + ws.length = c.size := size_pushAll.symm.trans (congrArg size h)
  exact List.eq_nil_of_length_eq_zero (by omega)

end Cells

/-! ## Cells of parameters -/

/-- What the cell of the parameter is to hold: the value that its default leads to, or nothing. -/
def Parameter.initial (param : Parameter) (m : Memory) : Except Fault Value :=
  match param.default with
  | some v => m.owned "default" v
  | none => .ok .undefined

namespace Memory

/-- The memory with a new constant cell for each value. -/
def withConstants (m : Memory) (ws : List Value) : Memory :=
  { m with arena := m.arena.pushAll ws true }

theorem withConstants_nil (m : Memory) : m.withConstants [] = m := by
  rw [withConstants, Cells.pushAll_nil]

theorem withConstants_cons (m : Memory) (w : Value) (ws : List Value) :
    m.withConstants (w :: ws) = (m.allocate w true).2.withConstants ws := by
  rw [withConstants, Cells.pushAll_cons]
  rfl

/-- The values that get a cell when a method is defined, where the names `taken` have theirs
already. Each default is followed when the cells before it are there. -/
def stored (m : Memory) (taken : List Name) : List Parameter → List Value
  | [] => []
  | param :: params =>
    match param.initial m with
    | .error _ => []
    | .ok w =>
      w :: if param.name ∈ taken then []
        else stored (m.allocate w true).2 (param.name :: taken) params

/-- No cell is made if there is no parameter, or if the first has a default that leads nowhere. -/
theorem stored_eq_nil_iff (m : Memory) (taken : List Name) (params : List Parameter) :
    m.stored taken params = [] ↔
      ∀ param ∈ params.head?, ∃ cause, param.initial m = .error cause := by
  cases params with
  | nil => simp [stored]
  | cons param params =>
    cases hw : param.initial m with
    | error cause => simp [stored, hw]
    | ok w => simp [stored, hw]

/-- The slots of the parameters of a method that is defined: one new cell of the arena after the
other. -/
def parameterSlots (m : Memory) (params : List Parameter) : List Slot :=
  Slot.row m.staticRef m.arena.size (params.map (·.name))

theorem parameterSlots_cons (m : Memory) (param : Parameter) (params : List Parameter)
    (w : Value) :
    m.parameterSlots (param :: params) =
      ⟨param.name, (m.allocate w true).1⟩ :: (m.allocate w true).2.parameterSlots params := by
  rw [parameterSlots, List.map_cons, Slot.row_cons, parameterSlots, allocate, Cells.size_push]
  rfl

end Memory

namespace Exec

variable {scope : ScopeId} {p q : Program} {slots : SlotSet} {taken : List Name}
  {param : Parameter} {params : List Parameter}

/-- A slot is added, or its name is taken. -/
theorem ends_insert {β : Type} {name : Name} {target : CellRef} {f : SlotSet → Exec Fault β}
    {done : β → Program → Prop} {stopped : Stop Fault → Program → Prop} :
    Ends (match slots.insert name target with
      | .ok slots => f slots
      | .error error => fault error.toFault) p done stopped ↔
      (∀ e, slots.insert name target = .error e → stopped (.fault e.toFault) p) ∧
        ∀ slots', slots.insert name target = .ok slots' → Ends (f slots') p done stopped := by
  cases slots.insert name target with
  | error e => simp
  | ok slots' => simp

/-- The first parameter is given its cell before its name is looked at. -/
theorem ends_bindDefaults_cons {done : SlotSet → Program → Prop}
    {stopped : Stop Fault → Program → Prop} :
    Ends (bindDefaults slots (param :: params)) p done stopped ↔
      (∀ cause, param.initial p.memory = .error cause → stopped (.fault cause) p) ∧
      ∀ w, param.initial p.memory = .ok w →
        (∀ e, slots.insert param.name (p.memory.allocate w true).1 = .error e →
          stopped (.fault e.toFault) { p with memory := (p.memory.allocate w true).2 }) ∧
        ∀ slots', slots.insert param.name (p.memory.allocate w true).1 = .ok slots' →
          Ends (bindDefaults slots' params) { p with memory := (p.memory.allocate w true).2 }
            done stopped := by
  rw [bindDefaults, Parameter.initial]
  cases param.default with
  | none =>
    simp only [ends_bind, ends_pure, ends_allocate]
    refine ⟨fun h => ⟨fun _ hcause => (by cases hcause), fun w hw => ?_⟩,
      fun h => ends_insert.2 (h.2 _ rfl)⟩
    cases hw
    exact ends_insert.1 h
  | some v =>
    simp only [ends_bind, ends_owned, ends_allocate]
    exact ⟨fun h => ⟨h.2, fun w hw => ends_insert.1 (h.1 w hw)⟩,
      fun h => ⟨fun w hw => ends_insert.2 (h.2 w hw), h.1⟩⟩

/-- However it ends, the cells that are stored are there, and nothing else has changed. If it comes
to its end, all names were new, and each parameter has its cell and its slot. -/
theorem bindDefaults_stores (htaken : slots.Names taken) :
    Ends (bindDefaults slots params) p
      (fun slots' q =>
        q = { p with memory := p.memory.withConstants (p.memory.stored taken params) } ∧
          SlotSet.Fresh taken (params.map (·.name)) ∧
          (p.memory.stored taken params).length = params.length ∧
          slots' = slots.extend (p.memory.parameterSlots params))
      (Halts (fun _ q =>
        q = { p with memory := p.memory.withConstants (p.memory.stored taken params) })
        fun _ => False) := by
  induction params generalizing p slots taken with
  | nil =>
    exact ⟨by rw [Memory.stored, Memory.withConstants_nil], SlotSet.fresh_nil taken, rfl, rfl⟩
  | cons param params ih =>
    rw [ends_bindDefaults_cons]
    refine ⟨fun cause hcause => ?_, fun w hw => ⟨fun e he => ?_, fun slots' hi => ?_⟩⟩
    · rw [Memory.stored, hcause]
      exact (congrArg (fun m => { p with memory := m }) (Memory.withConstants_nil p.memory)).symm
    · have hname : param.name ∈ taken := htaken.mem_of_error he
      rw [Memory.stored, hw]
      simp only [hname, if_true, Memory.withConstants_cons, Memory.withConstants_nil]
      rfl
    · have hname : param.name ∉ taken := htaken.notMem_of_ok hi
      have hstored : p.memory.stored taken (param :: params) =
          w :: (p.memory.allocate w true).2.stored (param.name :: taken) params := by
        rw [Memory.stored, hw]
        exact congrArg (w :: ·) (if_neg hname)
      have hslots : slots.extend (p.memory.parameterSlots (param :: params)) =
          slots'.extend ((p.memory.allocate w true).2.parameterSlots params) := by
        rw [p.memory.parameterSlots_cons param params w, SlotSet.extend_cons hi]
      rw [hstored, hslots, Memory.withConstants_cons, List.length_cons, List.length_cons]
      refine (ih (htaken.insert hi)).imp (fun _ q hq => ?_) fun _ _ hs => hs
      obtain ⟨hq, hfresh, hlength, hrest⟩ := hq
      exact ⟨hq, SlotSet.fresh_cons.2 ⟨hname, hfresh⟩, congrArg (· + 1) hlength, hrest⟩

/-- The cells that are stored are those of defaults. -/
theorem defaults_stored (p : Program) (taken : List Name) (params : List Parameter) :
    Defaults p params
      { p with memory := p.memory.withConstants (p.memory.stored taken params) } := by
  induction params generalizing p taken with
  | nil =>
    rw [Memory.stored, Memory.withConstants_nil]
    exact .stop
  | cons param params ih =>
    rw [Memory.stored]
    cases hw : param.initial p.memory with
    | error cause =>
      simp only [Memory.withConstants_nil]
      exact .stop
    | ok w =>
      simp only [Memory.withConstants_cons]
      refine .next (w := w) (fun v hv => ?_) (fun hnone => ?_) ?_
      · rwa [Parameter.initial, hv] at hw
      · rw [Parameter.initial, hnone] at hw
        exact (Except.ok.inj hw).symm
      · split
        · rw [Memory.withConstants_nil]
          exact .stop
        · exact ih { p with memory := (p.memory.allocate w true).2 } _

/-- The method that a definition in the program makes. -/
def definedMethod (p : Program) (scope : ScopeId) (name : Name) (params : List Parameter)
    (body : List Action) : Method :=
  { name, params := .ofSlots (p.memory.parameterSlots params), scope, body }

/-- The definition is done: each parameter has its cell, and the name is bound to the method. -/
structure Defined (p : Program) (scope : ScopeId) (name : Name) (params : List Parameter)
    (body : List Action) (q : Program) : Prop where
  names : (params.map (·.name)).Nodup
  cells : (p.memory.stored [] params).length = params.length
  bound : ∃ r, Bound { p with memory := p.memory.withConstants (p.memory.stored [] params) } scope
      name (.method (definedMethod p scope name params body)) false r ∧
    q = { r with scopes := r.scopes.retain scope }

/-- A definition stores the cells of its parameters and binds its name to the method; if the name
cannot be bound, the cells are there all the same. -/
theorem defineMethod_stores {name : Name} {body : List Action} :
    Ends (defineMethod scope name params body) p
      (fun flow q => flow = .next ∧ Defined p scope name params body q)
      fun _ q =>
        q = { p with memory := p.memory.withConstants (p.memory.stored [] params) } := by
  simp only [defineMethod, ends_bind]
  refine (bindDefaults_stores SlotSet.names_empty).imp (fun slots q hq => ?_) fun s q hs => ?_
  · obtain ⟨rfl, hfresh, hlength, rfl⟩ := hq
    refine (bindNew_cases _ scope name _ false).imp (fun _ r hr => ?_) fun _ _ hs => hs.1
    exact ⟨rfl, hfresh.1, hlength, r, hr, rfl⟩
  · cases s with
    | fault cause => exact hs
    | breach v => exact hs.elim
    | unending => exact hs.elim

end Exec

open Exec

/-- A definition that is refused, in whatever program and scope, has made constant cells for the
values in `stored`, and has changed nothing else: not the frame, the stack or the scopes. So the
program is as it was if and only if there is no parameter, or the default of the first one leads
nowhere. -/
theorem rejected_definition_traceless_iff {n : Nat} {scope : ScopeId} {name : Name}
    {params : List Parameter} {body : List Action} {p q : Program} {stop : Stop Fault}
    (h : attempt (enter n) scope (.defineMethod name params body) p = .error stop q) :
    q = { p with
      memory := { p.memory with
        arena := p.memory.arena.pushAll (p.memory.stored [] params) true } } ∧
    (q = p ↔ ∀ param ∈ params.head?, ∃ cause, param.initial p.memory = .error cause) := by
  have hq := defineMethod_stores.of_error h
  refine ⟨hq, ?_⟩
  rw [← p.memory.stored_eq_nil_iff [], ← Cells.pushAll_eq_self_iff (c := p.memory.arena), hq]
  refine ⟨fun hp => congrArg (fun p => p.memory.arena) hp, fun harena => ?_⟩
  rw [Memory.withConstants, harena]

/-- A method whose second parameter has the name of the first. -/
def repeatParameter : Action :=
  .defineMethod "f" [⟨"x", some (.int 1)⟩, ⟨"x", none⟩, ⟨"y", none⟩] []

/-- Both have got their cells before the name is refused. -/
theorem repeatParameter_leaves_cells :
    ∃ q, attempt (enter 0) .global repeatParameter .silent =
        .error (.fault (.alreadyDeclared "x")) q ∧
      q.memory.arena = Cells.empty.pushAll [.int 1, .undefined] true ∧ q ≠ .silent := by
  have h : attempt (enter 0) .global repeatParameter .silent =
      .error (.fault (.alreadyDeclared "x"))
        (after (attempt (enter 0) .global repeatParameter) .silent) := rfl
  obtain ⟨hq, hiff⟩ := rejected_definition_traceless_iff h
  refine ⟨_, h, congrArg (fun q => q.memory.arena) hq, fun hsame => ?_⟩
  obtain ⟨cause, hcause⟩ := hiff.1 hsame _ rfl
  cases hcause

/-- A definition is refused because its name is taken, in a program that can be reached and a scope
that is live, and yet the arena has one cell more than before. -/
theorem refused_name_leaves_cell :
    ∃ p q cause, Reachable p ∧ p.scopes.owns .global = true ∧
      attempt (enter 0) .global (.defineMethod "f" [⟨"x", none⟩] []) p =
        .error (.fault cause) q ∧ q.memory.arena.size = p.memory.arena.size + 1 := by
  have hp : Reachable (after (runIn 0 .global [.declareLocal "f"]) .silent) :=
    reachable_silent.step (.run rfl (completes_after rfl))
  exact ⟨_, _, _, hp, rfl, rfl, rfl⟩

end ActionMachine
