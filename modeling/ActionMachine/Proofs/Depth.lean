import Mathlib.Algebra.Ring.Int.Defs
import ActionMachine.Proofs.Atomicity
import ActionMachine.Proofs.Blocks
import ActionMachine.Proofs.Definitions
import ActionMachine.Proofs.Dispatch
import ActionMachine.Proofs.Isolation
import ActionMachine.Proofs.Mirroring
import ActionMachine.Proofs.Termination

/-
  The depth of the operand stack can be told from the text of a block. An action that neither opens
  a body nor calls changes it by a number that depends on the action alone (`Action.depthChange`,
  `Performs.depth`), and it is refused for missing operands exactly if the stack is not as deep as
  it declares: no other fault of such an action has that code (`noUnderflow_perform`). Nothing is
  assumed of the program, so the results hold in every state that a run can be in.
-/

namespace ActionMachine

namespace Action

variable {a : Action}

/-- By how much the action deepens the operand stack, if it is flat and succeeds. -/
def depthChange : Action → Int
  | .resolveLocal _ | .resolveQualified _ _ | .pushLiteral _ | .duplicate _
  | .constructInstance _ | .loadMember _ _ => 1
  | .pop | .assignLocal _ .pop | .binary _ | .binaryInPlace _ | .assignMember _ _ | .ret => -1
  | .buildList len => 1 - len
  | _ => 0

theorem hasZeroOffset_iff : a.hasZeroOffset = true ↔ a = .duplicate 0 ∨ a = .swap 0 := by
  cases a with
  | duplicate offset => cases offset <;> simp [hasZeroOffset]
  | swap offset => cases offset <;> simp [hasZeroOffset]
  | _ => simp [hasZeroOffset]

end Action

namespace Operands

variable {s t : Operands}

theorem size_push (v : Value) : (s.push v).size = s.size + 1 := Array.size_push v

theorem size_pop (h : s.pop = .ok t) : t.size + 1 = s.size := by
  obtain ⟨hpos, rfl⟩ := pop_eq_ok_iff.1 h
  unfold size at *
  rw [Array.size_pop]
  omega

theorem size_truncate_of_le {n : Nat} (h : n ≤ s.size) : (s.truncate n).size = n := by
  unfold size truncate at *
  rw [Array.size_shrink]
  exact Nat.min_eq_left h

theorem size_swap {offset : Nat} (h : s.swap offset = .ok t) : t.size = s.size := by
  obtain ⟨-, -, rfl⟩ := swap_eq_ok_iff.1 h
  exact Array.size_swapIfInBounds

theorem size_mapTop {f : Operands → Value → Except Fault Value} (h : s.mapTop f = .ok t) :
    t.size = s.size := by
  obtain ⟨v, w, hv, -, rfl⟩ := mapTop_eq_ok h
  rw [size_push, ← size_pop (pop_eq_ok_iff.2 ⟨pos_of_topAt hv, rfl⟩)]

theorem size_mapTopTwo {f : Operands → Value → Value → Except Fault Value}
    (h : s.mapTopTwo f = .ok t) : t.size + 1 = s.size := by
  obtain ⟨a, b, w, ha, -, -, rfl⟩ := mapTopTwo_eq_ok h
  have htwo : 2 ≤ s.size := (topAt_eq_ok_iff.1 ha).2.1
  rw [size_push, size_truncate_of_le (Nat.sub_le _ _)]
  omega

theorem size_foldTop {f : Operands → Value → Value → Value × Except Fault Unit}
    (h : s.foldTop f = .ok t) : t.size + 1 = s.size := by
  obtain ⟨a, b, w, u, ha, -, -, rfl⟩ := foldTop_eq_ok h
  have htwo : 2 ≤ s.size := (topAt_eq_ok_iff.1 ha).2.1
  unfold size at *
  rw [Array.size_pop, Array.size_setIfInBounds]
  omega

end Operands

namespace Exec

variable {scope : ScopeId} {p q : Program} {a : Action} {run : Body}

/-! ## The depth after an action -/

theorem Restacks.depth {s : Operands} (h : Restacks scope p a s) (ha : a.isFlat = true) :
    (s.size : Int) = p.memory.stack.size + a.depthChange := by
  cases h with
  | resolveLocal | resolveQualified | pushLiteral | constructInstance | loadMember =>
    rw [Operands.size_push]
    rfl
  | pop h =>
    have hsize := Operands.size_pop h
    show (s.size : Int) = p.memory.stack.size + (-1)
    omega
  | duplicate h =>
    obtain ⟨v, -, rfl⟩ := Operands.duplicate_eq_ok_iff.1 h
    rw [Operands.size_push]
    rfl
  | swap h =>
    rw [Operands.size_swap h]
    exact (Int.add_zero _).symm
  | @buildList len base items hbase h =>
    obtain ⟨hle, rfl⟩ := Operands.base_eq_ok_iff.1 hbase
    rw [Operands.size_push, Operands.size_truncate_of_le (Nat.sub_le _ _)]
    show ((p.memory.stack.size - len + 1 : Nat) : Int) = p.memory.stack.size + (1 - len)
    omega
  | unary h =>
    rw [Operands.size_mapTop h]
    exact (Int.add_zero _).symm
  | binary h =>
    have hsize := Operands.size_mapTopTwo h
    show (s.size : Int) = p.memory.stack.size + (-1)
    omega
  | binaryInPlace h =>
    have hsize := Operands.size_foldTop h
    show (s.size : Int) = p.memory.stack.size + (-1)
    omega
  | native => cases ha

theorem Binds.depthChange_eq {id : ScopeId} {name : Name} {v : Value} {constant : Bool}
    (h : Binds scope p a id name v constant) : a.depthChange = 0 := by
  cases h <;> rfl

theorem Stores.depth {target : CellRef} {v : Value} {s : Operands}
    (h : Stores scope p a target v s) : (s.size : Int) = p.memory.stack.size + a.depthChange := by
  have hpopped : ∀ {w : Value} {t : Operands}, (p.memory.set target w).stack.pop = .ok t →
      (t.size : Int) = p.memory.stack.size + (-1) := by
    intro w t ht
    have hsize := Operands.size_pop ht
    rw [Memory.size_stack_set] at hsize
    omega
  cases h with
  | assignPopped _ _ _ hs => exact hpopped hs
  | assignLiteral =>
    rw [Memory.size_stack_set]
    exact (Int.add_zero _).symm
  | assignMember _ _ _ _ _ _ hs => exact hpopped hs

theorem Performs.depth {flow : Flow} (h : Performs scope p a flow q) (ha : a.isFlat = true) :
    (q.memory.stack.size : Int) = p.memory.stack.size + a.depthChange := by
  cases h with
  | restack h => exact h.depth ha
  | bind h hbound =>
    rw [hbound.stack_eq, h.depthChange_eq, Int.add_zero]
  | store h => exact h.depth
  | addInstanceMember | debugPrint => exact (Int.add_zero _).symm
  | @defineMethod name params body slots p' q _ _ hd h =>
    show (q.memory.stack.size : Int) = p.memory.stack.size + 0
    rw [h.stack_eq, hd.stack_eq, Int.add_zero]
  | @ret v w s _ _ hs =>
    have hsize := Operands.size_pop hs
    show (s.size : Int) = p.memory.stack.size + (-1)
    omega

/-! ## Faults that are not about operands -/

/-- The stop is not a report of missing operands. -/
def NotForLack : Stop Fault → Prop
  | .fault cause => cause.code ≠ .stackUnderflow
  | .breach _ | .unending => True

/-- The computation does not report missing operands. -/
def NoUnderflow {α : Type} (x : Exec Fault α) (p : Program) : Prop :=
  Ends x p (fun _ _ => True) fun s _ => NotForLack s

theorem notForLack_follow {read : Reader} {v : Value} {cause : Fault}
    (h : read.follow v = .error cause) : NotForLack (.fault cause) := by
  show cause.code ≠ _
  rw [code_follow h]
  rintro ⟨⟩

theorem notForLack_owned {read : Reader} {op : String} {v : Value} {cause : Fault}
    (h : read.owned op v = .error cause) : NotForLack (.fault cause) := by
  rcases bind_eq_error_iff.1 h with h | ⟨w, -, h⟩
  · exact notForLack_follow h
  · split at h <;> cases h
    rintro ⟨⟩

theorem notForLack_resolveCell {read : Reader} {target : CellRef} {cause : Fault}
    (h : read.resolve target = .error cause) : NotForLack (.fault cause) := by
  have hwithin : ∀ hops target, read.resolveWithin hops target = .error cause →
      NotForLack (.fault cause) := by
    intro hops
    induction hops with
    | zero =>
      intro target h
      cases h
      rintro ⟨⟩
    | succ hops ih =>
      intro target h
      unfold Reader.resolveWithin at h
      split at h
      · exact ih _ h
      · cases h
        rintro ⟨⟩
      · cases h
      · cases h
        rintro ⟨⟩
  exact hwithin _ target h

theorem notForLack_fetch {memory : Memory} {target : CellRef} {cause : Fault}
    (h : memory.fetch target = .error cause) : NotForLack (.fault cause) := by
  unfold Memory.fetch at h
  split at h <;> cases h
  rintro ⟨⟩

theorem notForLack_update {memory : Memory} {target : CellRef} {f : Value → Except Fault Value}
    {cause : Fault} (hf : ∀ v, f v = .error cause → NotForLack (.fault cause))
    (h : memory.update target f = .error cause) : NotForLack (.fault cause) := by
  unfold Memory.update at h
  split at h
  · cases h
    rintro ⟨⟩
  · split at h
    · cases h
      rintro ⟨⟩
    · rcases bind_eq_error_iff.1 h with h | ⟨w, -, h⟩
      · exact hf _ h
      · cases h

theorem notForLack_write {memory : Memory} {target : CellRef} {w : Value} {cause : Fault}
    (h : memory.write target w = .error cause) : NotForLack (.fault cause) :=
  notForLack_update (fun _ h => by cases h) h

theorem notForLack_withMember {member : Name} {v holder : Value} {cause : Fault}
    (h : withMember member v holder = .error cause) : NotForLack (.fault cause) := by
  unfold withMember at h
  split at h
  · cases h
    rintro ⟨⟩
  · split at h <;> cases h
    rintro ⟨⟩

theorem notForLack_templateMembers {memory : Memory} {template : SlotSet} {cause : Fault}
    (h : templateMembers memory template = .error cause) : NotForLack (.fault cause) := by
  obtain ⟨slot, -, h⟩ := exists_of_mapM_eq_error h
  rcases bind_eq_error_iff.1 h with h | ⟨v, -, h⟩
  · exact notForLack_fetch h
  · cases h

theorem notForLack_unary {op : UnaryOp} {read : Reader} {v : Value} {cause : Fault}
    (h : op.evaluate read v = .error cause) : NotForLack (.fault cause) := by
  rw [UnaryOp.evaluate_eq] at h
  rcases bind_eq_error_iff.1 h with h | ⟨w, -, h⟩
  · exact notForLack_follow h
  · unfold UnaryOp.decided at h
    repeat' split at h
    all_goals cases h
    all_goals rintro ⟨⟩

theorem notForLack_binary {op : BinaryOp} {read : Reader} {v w : Value} {cause : Fault}
    (h : op.evaluate read v w = .error cause) : NotForLack (.fault cause) := by
  rw [BinaryOp.evaluate_eq] at h
  rcases bind_eq_error_iff.1 h with h | ⟨l, -, h⟩
  · exact notForLack_follow h
  · rcases bind_eq_error_iff.1 h with h | ⟨r, -, h⟩
    · exact notForLack_follow h
    · unfold BinaryOp.decided at h
      repeat' split at h
      all_goals cases h
      all_goals rintro ⟨⟩

/-- No stop of the step is a report of missing operands. -/
def NeverLacks {α : Type} (e : Except (Stop Fault) α) : Prop := ∀ s, e = .error s → NotForLack s

theorem NeverLacks.ok {α : Type} (a : α) : NeverLacks (.ok a) := by
  rintro s ⟨⟩

theorem NeverLacks.fault {α : Type} {cause : Fault} (h : NotForLack (.fault cause)) :
    NeverLacks (.error (.fault cause) : Except (Stop Fault) α) := by
  rintro s ⟨⟩
  exact h

theorem NeverLacks.bind {α β : Type} {e : Except (Stop Fault) α}
    {f : α → Except (Stop Fault) β} (he : NeverLacks e) (hf : ∀ a, NeverLacks (f a)) :
    NeverLacks (e >>= f) := by
  intro s h
  rcases bind_eq_error_iff.1 h with h | ⟨a, -, h⟩
  · exact he s h
  · exact hf a s h

theorem neverLacks_liftViolation {α : Type} (e : Except Violation α) : NeverLacks (liftM e) := by
  rintro s h
  cases e with
  | error v =>
    cases h
    trivial
  | ok a => cases h

theorem neverLacks_liftSlot {α : Type} (e : Except SlotError α) : NeverLacks (liftM e) := by
  rintro s h
  cases e with
  | error e =>
    cases h
    cases e <;> rintro ⟨⟩
  | ok a => cases h

theorem neverLacks_liftFault {α : Type} {e : Except Fault α}
    (he : ∀ cause, e = .error cause → NotForLack (.fault cause)) : NeverLacks (liftM e) := by
  rintro s h
  cases e with
  | error cause =>
    cases h
    exact he cause rfl
  | ok a => cases h

theorem neverLacks_applyUnary (memory : Memory) (op : UnaryOp) :
    NeverLacks (memory.applyUnary op) := by
  refine .bind (.bind (neverLacks_liftViolation _) fun _ =>
    .bind (neverLacks_liftViolation _) fun v => ?_) fun _ => .ok _
  exact .bind (neverLacks_liftFault fun _ h => notForLack_unary h) fun w => .ok _

theorem neverLacks_applyBinary (memory : Memory) (op : BinaryOp) :
    NeverLacks (memory.applyBinary op) := by
  refine .bind (.bind (neverLacks_liftViolation _) fun _ =>
    .bind (neverLacks_liftViolation _) fun v =>
    .bind (neverLacks_liftViolation _) fun w => ?_) fun _ => .ok _
  exact .bind (neverLacks_liftFault fun _ h => notForLack_binary h) fun _ => .ok _

section Tree

variable (t : ScopeTree) (id : ScopeId) (name : Name)

theorem neverLacks_search {α : Type} (f : Scope → Except Violation (Option α)) :
    NeverLacks (t.search f id) := by
  have hwithin : ∀ steps id, NeverLacks (t.searchWithin f steps id) := by
    intro steps
    induction steps with
    | zero =>
      rintro id s ⟨⟩
      trivial
    | succ steps ih =>
      intro id
      refine .bind (neverLacks_liftViolation _) fun inner =>
        .bind (neverLacks_liftViolation _) fun found => ?_
      cases found with
      | some a => exact .ok _
      | none =>
        dsimp only
        split
        · exact .ok _
        · exact ih _
  unfold ScopeTree.search
  split
  · exact .ok _
  · exact hwithin _ _

theorem neverLacks_resolve : NeverLacks (t.resolve id name) := by
  refine .bind (neverLacks_search t id _) fun found => ?_
  cases found with
  | some target => exact .ok _
  | none => exact .fault (by rintro ⟨⟩)

theorem neverLacks_resolveScope : NeverLacks (t.resolveScope id name) := by
  refine .bind (neverLacks_search t id _) fun found => ?_
  cases found with
  | some inner => exact .ok _
  | none => exact .fault (by rintro ⟨⟩)

theorem neverLacks_resolveClass : NeverLacks (t.resolveClass id name) := by
  refine .bind (neverLacks_resolveScope t id name) fun inner =>
    .bind (neverLacks_liftViolation _) fun s => ?_
  split
  · exact .ok _
  · exact .fault (by rintro ⟨⟩)

theorem neverLacks_addLocal (target : CellRef) : NeverLacks (t.addLocal id name target) :=
  .bind (neverLacks_liftViolation _) fun _ => .bind (neverLacks_liftSlot _) fun _ => .ok _

theorem neverLacks_addInstanceMember (target : CellRef) :
    NeverLacks (t.addInstanceMember id name target) := by
  refine .bind (neverLacks_liftViolation _) fun s => ?_
  split
  · exact .fault (by rintro ⟨⟩)
  · exact .bind (neverLacks_liftSlot _) fun _ => .ok _

end Tree

/-! ## Flat actions -/

theorem noUnderflow_bindNew (id : ScopeId) (name : Name) (v : Value) (constant : Bool)
    (p : Program) : NoUnderflow (bindNew id name v constant) p := by
  simp only [NoUnderflow, bindNew, ends_bind, ends_get, ends_liftViolation, ends_liftStop, ends_ite,
    ends_fault, ends_allocate, ends_allocateFrame, ends_setScopes, ends_pure]
  exact ⟨fun owner _ => ⟨fun _ => (by rintro ⟨⟩), fun _ =>
    ⟨fun _ => ⟨fun _ _ => trivial, neverLacks_addLocal _ _ _ _⟩,
      fun _ => ⟨fun _ _ => trivial, neverLacks_addLocal _ _ _ _⟩⟩⟩, fun _ _ => trivial⟩

theorem noUnderflow_resolveQualified (nested name : Name) :
    NoUnderflow (resolveQualified scope nested name) p := by
  simp only [resolveQualified, NoUnderflow, ends_bind, ends_get, ends_liftStop,
    ends_liftViolation, ends_push, ends_pure]
  refine ⟨fun id _ => ⟨fun owner _ => ⟨fun _ _ => trivial, fun s hs => ?_⟩, fun _ _ => trivial⟩,
    neverLacks_resolveScope _ _ _⟩
  cases hfound : owner.findLocal name with
  | ok target =>
    rw [hfound] at hs
    cases hs
  | error e =>
    rw [hfound] at hs
    cases hs
    cases e with
    | fault e => cases e <;> rintro ⟨⟩
    | breach v => trivial
    | unending => trivial

theorem noUnderflow_assignLocal (name : Name) (source : Operand) :
    NoUnderflow (assignLocal scope name source) p := by
  cases source with
  | literal v =>
    simp only [assignLocal, NoUnderflow, ends_bind, ends_resolve, ends_owned, ends_get,
      ends_liftFault, ends_setMemory, ends_pure]
    exact ⟨fun target _ => ⟨fun w _ => ⟨fun _ _ => trivial, fun _ => notForLack_write⟩,
      fun _ => notForLack_owned⟩, neverLacks_resolve _ _ _⟩
  | pop =>
    simp only [assignLocal, NoUnderflow, ends_bind, ends_resolve, ends_ownedTop, ends_get,
      ends_liftFault, ends_setMemory, pop, ends_onStack, ends_pure]
    exact ⟨fun target _ => ⟨fun v _ => ⟨fun w _ => ⟨fun _ _ => ⟨fun _ _ => trivial,
      neverLacks_liftViolation _⟩, fun _ => notForLack_write⟩, fun _ => notForLack_owned⟩,
      fun _ _ => trivial⟩, neverLacks_resolve _ _ _⟩

theorem noUnderflow_buildList (len : Nat) : NoUnderflow (buildList len) p := by
  simp only [buildList, NoUnderflow, ends_bind, ends_get, ends_liftViolation, ends_liftFault,
    ends_modify, ends_pure]
  refine ⟨fun base _ => ⟨fun _ _ => trivial, fun f hf => ?_⟩, fun _ _ => trivial⟩
  obtain ⟨v, -, hv⟩ := exists_of_mapM_eq_error hf
  exact notForLack_owned hv

theorem noUnderflow_addInstanceMember (owner name : Name) (v : Value) :
    NoUnderflow (addInstanceMember scope owner name v) p := by
  simp only [addInstanceMember, NoUnderflow, ends_bind, ends_get, ends_liftStop,
    ends_liftViolation, ends_owned, ends_ite, ends_fault, ends_allocate, ends_setScopes, ends_pure]
  exact ⟨fun id _ => ⟨fun w _ => ⟨fun s _ => ⟨fun _ => (by rintro ⟨⟩), fun _ => ⟨fun _ _ => trivial,
    neverLacks_addInstanceMember _ _ _ _⟩⟩, fun _ _ => trivial⟩, fun _ => notForLack_owned⟩,
    neverLacks_resolveClass _ _ _⟩

theorem noUnderflow_constructInstance (owner : Name) :
    NoUnderflow (constructInstance scope owner) p := by
  simp only [constructInstance, NoUnderflow, ends_bind, ends_get, ends_liftStop,
    ends_liftViolation]
  refine ⟨fun id _ => ⟨fun s _ => ?_, fun _ _ => trivial⟩, neverLacks_resolveClass _ _ _⟩
  cases s.layout? with
  | none => rintro ⟨⟩
  | some layout =>
    simp only [ends_bind, ends_liftFault, ends_push, ends_pure]
    exact ⟨fun _ _ => trivial, fun _ => notForLack_templateMembers⟩

theorem noUnderflow_loadMember (object member : Name) :
    NoUnderflow (loadMember scope object member) p := by
  simp only [loadMember, objectCell, NoUnderflow, ends_bind, ends_get, ends_resolve,
    ends_liftFault]
  refine ⟨fun bound _ => ⟨fun target _ => ⟨fun holder _ => ?_, fun _ => notForLack_fetch⟩,
    fun _ => notForLack_resolveCell⟩, neverLacks_resolve _ _ _⟩
  cases holder.object? with
  | none => rintro ⟨⟩
  | some o =>
    cases hv : o.member? member with
    | none =>
      simp only [hv, ends_bind, ends_fault]
      rintro ⟨⟩
    | some v =>
      simp only [hv, ends_bind, ends_push, ends_pure]

theorem noUnderflow_assignMember (object member : Name) :
    NoUnderflow (assignMember scope object member) p := by
  simp only [assignMember, objectCell, NoUnderflow, ends_bind, ends_resolve, ends_ownedTop,
    ends_get, ends_liftFault, ends_setMemory, pop, ends_onStack, ends_pure]
  exact ⟨fun bound _ => ⟨fun target _ => ⟨fun v _ => ⟨fun w _ => ⟨fun _ _ => ⟨fun _ _ => trivial,
    neverLacks_liftViolation _⟩, fun _ => notForLack_update fun _ => notForLack_withMember⟩,
    fun _ => notForLack_owned⟩, fun _ _ => trivial⟩, fun _ => notForLack_resolveCell⟩,
    neverLacks_resolve _ _ _⟩

theorem notForLack_initial {memory : Memory} {param : Parameter} {cause : Fault}
    (h : param.initial memory = .error cause) : NotForLack (.fault cause) := by
  unfold Parameter.initial at h
  split at h
  · exact notForLack_owned h
  · cases h

theorem noUnderflow_bindDefaults (slots : SlotSet) (params : List Parameter) (p : Program) :
    NoUnderflow (bindDefaults slots params) p := by
  induction params generalizing slots p with
  | nil => trivial
  | cons param params ih =>
    refine ends_bindDefaults_cons.2 ⟨fun _ => notForLack_initial, fun w _ => ⟨fun e _ => ?_,
      fun slots' _ => ih slots' _⟩⟩
    cases e <;> rintro ⟨⟩

theorem noUnderflow_defineMethod (name : Name) (params : List Parameter) (body : List Action) :
    NoUnderflow (defineMethod scope name params body) p := by
  simp only [defineMethod, NoUnderflow, ends_bind, ends_get, ends_setScopes, ends_pure]
  exact (noUnderflow_bindDefaults _ _ _).imp (fun _ _ _ => noUnderflow_bindNew _ _ _ _ _)
    fun _ _ hs => hs

theorem noUnderflow_ret : NoUnderflow ret p := by
  simp only [ret, NoUnderflow, ends_bind, ends_ownedTop, pop, ends_onStack, ends_modify, ends_pure]
  exact ⟨fun v _ => ⟨fun w _ => ⟨fun _ _ => trivial, neverLacks_liftViolation _⟩,
    fun _ => notForLack_owned⟩, fun _ _ => trivial⟩

theorem noUnderflow_debugPrint (name : Name) : NoUnderflow (debugPrint scope name) p := by
  simp only [debugPrint, NoUnderflow, ends_bind, ends_resolve, ends_get, ends_liftFault]
  refine ⟨fun target _ => ⟨fun v _ => ?_, fun _ => notForLack_fetch⟩, neverLacks_resolve _ _ _⟩
  cases p.memory.render? v with
  | none => trivial
  | some text => trivial

/-- An operation on the stack alone fails for nothing but its operands, and that is no report. -/
theorem noUnderflow_onStack (f : Operands → Except Violation Operands) :
    NoUnderflow (do onStack fun stack => f stack; return Flow.next) p := by
  simp only [NoUnderflow, ends_bind, ends_onStack, ends_pure]
  exact ⟨fun _ _ => trivial, neverLacks_liftViolation _⟩

/-- What a flat action fails for, once it is carried out, is not that operands are missing. -/
theorem noUnderflow_perform (ha : a.isFlat = true) : NoUnderflow (perform run scope a) p := by
  cases a with
  | declareLocal name =>
    simp only [perform, declareLocal, NoUnderflow, ends_bind, ends_pure]
    exact noUnderflow_bindNew _ _ _ _ _
  | declareConstant name v =>
    simp only [perform, declareConstant, NoUnderflow, ends_bind, ends_owned, ends_pure]
    exact ⟨fun w _ => noUnderflow_bindNew _ _ _ _ _, fun _ => notForLack_owned⟩
  | resolveLocal name =>
    simp only [perform, resolveLocal, NoUnderflow, ends_bind, ends_resolve, ends_push, ends_pure]
    exact ⟨fun _ _ => trivial, neverLacks_resolve _ _ _⟩
  | resolveQualified => rw [perform]; exact noUnderflow_resolveQualified _ _
  | assignLocal => rw [perform]; exact noUnderflow_assignLocal _ _
  | pushLiteral v =>
    simp only [perform, pushLiteral, NoUnderflow, ends_bind, ends_ite, ends_fault, ends_push,
      ends_pure]
    exact ⟨fun _ => (by rintro ⟨⟩), fun _ => trivial⟩
  | pop => rw [perform]; exact noUnderflow_onStack _
  | duplicate => rw [perform]; exact noUnderflow_onStack _
  | swap => rw [perform]; exact noUnderflow_onStack _
  | buildList => rw [perform]; exact noUnderflow_buildList _
  | unary op =>
    simp only [perform, unary, NoUnderflow, ends_bind, ends_get, ends_liftStop, ends_setMemory,
      ends_pure]
    exact ⟨fun _ _ => trivial, neverLacks_applyUnary _ _⟩
  | binary op =>
    simp only [perform, binary, NoUnderflow, ends_bind, ends_get, ends_liftStop, ends_setMemory,
      ends_pure]
    exact ⟨fun _ _ => trivial, neverLacks_applyBinary _ _⟩
  | binaryInPlace op =>
    simp only [perform, binaryInPlace_eq, binary, NoUnderflow, ends_bind, ends_get, ends_liftStop,
      ends_setMemory, ends_pure]
    exact ⟨fun _ _ => trivial, neverLacks_applyBinary _ _⟩
  | addStaticMember owner name v =>
    simp only [perform, addStaticMember, NoUnderflow, ends_bind, ends_get, ends_liftStop,
      ends_owned, ends_pure]
    exact ⟨fun id _ => ⟨fun w _ => noUnderflow_bindNew _ _ _ _ _, fun _ => notForLack_owned⟩,
      neverLacks_resolveClass _ _ _⟩
  | addInstanceMember => rw [perform]; exact noUnderflow_addInstanceMember _ _ _
  | constructInstance => rw [perform]; exact noUnderflow_constructInstance _
  | loadMember => rw [perform]; exact noUnderflow_loadMember _ _
  | assignMember => rw [perform]; exact noUnderflow_assignMember _ _
  | defineMethod => rw [perform]; exact noUnderflow_defineMethod _ _ _
  | ret => rw [perform]; exact noUnderflow_ret
  | debugPrint => rw [perform]; exact noUnderflow_debugPrint _
  | defineNamespace | defineClass | call => cases ha

/-- A flat action reports missing operands exactly if the stack is not as deep as it declares, or
its offset names no element. -/
theorem attempt_underflow_iff (ha : a.isFlat = true) :
    (∃ cause r, attempt run scope a p = .error (.fault cause) r ∧ cause.code = .stackUnderflow) ↔
      p.memory.stack.size < a.operandArity ∨ a.hasZeroOffset = true := by
  constructor
  · rintro ⟨cause, r, h, hcode⟩
    have hends : Ends (attempt run scope a) p (fun _ _ => True) fun s _ =>
        (p.memory.stack.size < a.operandArity ∨ a.hasZeroOffset = true) ∨ NotForLack s := by
      simp only [attempt, checkOperands, ends_bind, ends_ite, ends_fault, ends_get, ends_pure]
      refine ⟨fun hzero => .inl (.inr hzero), fun _ => ⟨fun hless => .inl (.inl hless),
        fun _ => ?_⟩⟩
      exact (noUnderflow_perform ha).imp (fun _ _ _ => trivial) fun _ _ hs => .inr hs
    exact (hends.of_error h).resolve_right fun hother => hother hcode
  · intro h
    have hends : Ends (attempt run scope a) p (fun _ _ => False) fun s _ =>
        ∃ cause, s = .fault cause ∧ cause.code = .stackUnderflow := by
      simp only [attempt, checkOperands, ends_bind, ends_ite, ends_fault, ends_get, ends_pure]
      refine ⟨fun _ => ⟨_, rfl, rfl⟩, fun hzero => ⟨fun _ => ⟨_, rfl, rfl⟩, fun hdeep => ?_⟩⟩
      exact absurd h (not_or.2 ⟨hdeep, hzero⟩)
    obtain ⟨s, r, hr, cause, rfl, hcode⟩ := hends.exists_error
    exact ⟨cause, r, hr, hcode⟩

/-! ## Flat blocks -/

variable {as : List Action} {index : Nat}

theorem attempt_depth {flow : Flow} (ha : a.isFlat = true)
    (h : attempt run scope a p = .ok flow q) :
    (q.memory.stack.size : Int) = p.memory.stack.size + a.depthChange := by
  have heffects : Effects scope p a (attempt run scope a) := attempt_effects ha
  exact (heffects.of_ok h).depth ha

/-- Along a block that runs to its end the changes add up. -/
theorem performAll_depth (hflat : ∀ a ∈ as, a.isFlat = true)
    (h : performAll run scope index as p = .ok .next q) :
    (q.memory.stack.size : Int) =
      p.memory.stack.size + (as.map Action.depthChange).sum := by
  induction as generalizing index p with
  | nil =>
    rw [performAll] at h
    cases h
    exact (Int.add_zero _).symm
  | cons a as ih =>
    cases hx : attempt run scope a p with
    | error s r =>
      rw [performAll_cons_of_error hx] at h
      cases h
    | ok flow r =>
      cases flow with
      | ret =>
        rw [performAll_cons_of_ret hx] at h
        cases h
      | next =>
        rw [performAll_cons_of_next hx] at h
        have hrest := ih (fun b hb => hflat b (List.mem_cons_of_mem _ hb)) h
        have hfirst := attempt_depth (hflat a List.mem_cons_self) hx
        rw [hrest, hfirst, List.map_cons, List.sum_cons, Int.add_assoc]

/-- A block reports missing operands for its first action exactly if that action does. -/
theorem performAll_underflow_iff :
    (∃ failure r, performAll run scope index (a :: as) p = .error (.fault failure) r ∧
        failure.index = index ∧ failure.fault.code = .stackUnderflow) ↔
      ∃ cause r, attempt run scope a p = .error (.fault cause) r ∧
        cause.code = .stackUnderflow := by
  cases hx : attempt run scope a p with
  | error s q =>
    rw [performAll_cons_of_error hx]
    constructor
    · rintro ⟨failure, r, h, -, hcode⟩
      cases s with
      | fault cause =>
        cases h
        exact ⟨cause, _, rfl, hcode⟩
      | breach v => cases h
      | unending => cases h
    · rintro ⟨cause, r, h, hcode⟩
      cases h
      exact ⟨_, _, rfl, rfl, hcode⟩
  | ok flow q =>
    refine ⟨fun ⟨failure, r, h, hindex, _⟩ => ?_, fun ⟨cause, r, h, _⟩ => by cases h⟩
    cases flow with
    | next =>
      rw [performAll_cons_of_next hx] at h
      have hlater := le_index_of_performAll h
      omega
    | ret =>
      rw [performAll_cons_of_ret hx] at h
      cases h

end Exec

open Exec

/-- Stack depths can be told in advance. When a block of flat actions has come through its first `i`
actions, the stack is as deep as it was at the start and the changes of these actions say. The next
action then fails for missing operands exactly if that is less than the number it declares, or it
duplicates or swaps the element at offset 0. -/
theorem stack_depth_predictable (n : Nat) (scope : ScopeId) (p : Program) {as : List Action}
    (hflat : ∀ a ∈ as, a.isFlat = true) (i : Nat) {q : Program}
    (hq : block n scope (as.take i) p = .ok .next q) :
    (q.memory.stack.size : Int) =
        p.memory.stack.size + ((as.take i).map Action.depthChange).sum ∧
    ∀ a, as[i]? = some a →
      ((∃ failure r, block n scope as p = .error (.fault failure) r ∧ failure.index = i ∧
          failure.fault.code = .stackUnderflow) ↔
        p.memory.stack.size + ((as.take i).map Action.depthChange).sum < (a.operandArity : Int) ∨
          a = .duplicate 0 ∨ a = .swap 0) := by
  have hdepth := performAll_depth (fun a ha => hflat a (List.mem_of_mem_take ha)) hq
  refine ⟨hdepth, fun a ha => ?_⟩
  obtain ⟨hi, rfl⟩ := List.getElem?_eq_some_iff.1 ha
  have hrest : block n scope as p = performAll (enter n) scope i (as.drop i) q :=
    performAll_drop hq (Nat.le_of_lt hi)
  rw [hrest, List.drop_eq_getElem_cons hi, performAll_underflow_iff,
    attempt_underflow_iff (hflat _ (List.getElem_mem hi)), Action.hasZeroOffset_iff, ← hdepth,
    Int.ofNat_lt]

/-- A block that pushes two numbers, adds them and then asks for one operand too many. -/
def addThenSwap : List Action :=
  [.pushLiteral (.int 1), .pushLiteral (.int 2), .binary .add, .swap 2]

theorem addThenSwap_underflows :
    ∃ q, block 0 .global (addThenSwap.take 3) .silent = .ok .next q ∧
      q.memory.stack.size = 1 ∧
      ∃ failure r, block 0 .global addThenSwap .silent = .error (.fault failure) r ∧
        failure.index = 3 ∧ failure.fault.code = .stackUnderflow := by
  have hflat : ∀ a ∈ addThenSwap, a.isFlat = true := by simp [addThenSwap, Action.isFlat]
  have hq : block 0 .global (addThenSwap.take 3) .silent =
      .ok .next (after (block 0 .global (addThenSwap.take 3)) .silent) := by rfl
  obtain ⟨hdepth, hfails⟩ := stack_depth_predictable 0 .global .silent hflat 3 hq
  exact ⟨_, hq, Int.ofNat_inj.1 hdepth, (hfails _ rfl).2 (.inl (by decide))⟩

end ActionMachine
