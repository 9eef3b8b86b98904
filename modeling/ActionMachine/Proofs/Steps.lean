import ActionMachine.Exec.Block
import ActionMachine.Proofs.Memory
import ActionMachine.Proofs.Tree

/-
  What one action can do. `Performs scope p a flow q` lists the ways in which an action that opens
  no body of its own leads from the program `p` to `q`: it makes a new stack, binds a name to a new
  cell, stores into a cell, adds to a template, defines a method, hands a value over or prints.
  `Refuses` lists what an action that stops leaves behind, and `StopCause` why it stops. Every such
  action, in any program whatever, does one of the two (`Effects`). If it finds a sound tree, its
  scope and its operands, it breaks no contract, and only the printing of a value without a finite
  text has no end (`Effects.effective`).
-/

namespace ActionMachine

/-- The program with another operand stack. -/
def Program.withStack (p : Program) (stack : Operands) : Program := p.mapStack fun _ => stack

namespace Exec

variable {scope : ScopeId} {p q : Program} {a : Action}

/-! ## Effects -/

/-- The action replaces the stack, and changes nothing else. -/
inductive Restacks (scope : ScopeId) (p : Program) : Action → Operands → Prop where
  | resolveLocal {name : Name} {target : CellRef}
      (h : p.scopes.resolve scope name = .ok target) :
      Restacks scope p (.resolveLocal name) (p.memory.stack.push (.reference (some target)))
  | resolveQualified {nested name : Name} {id : ScopeId} {owner : Scope} {target : CellRef}
      (hid : p.scopes.resolveScope scope nested = .ok id) (howner : p.scopes.get id = .ok owner)
      (h : owner.findLocal name = .ok target) :
      Restacks scope p (.resolveQualified nested name)
        (p.memory.stack.push (.reference (some target)))
  | pushLiteral {v : Value} (h : v.isUndefined = false) :
      Restacks scope p (.pushLiteral v) (p.memory.stack.push v)
  | pop {s : Operands} (h : p.memory.stack.pop = .ok s) : Restacks scope p .pop s
  | duplicate {offset : Nat} {s : Operands} (h : p.memory.stack.duplicate offset = .ok s) :
      Restacks scope p (.duplicate offset) s
  | swap {offset : Nat} {s : Operands} (h : p.memory.stack.swap offset = .ok s) :
      Restacks scope p (.swap offset) s
  | buildList {len base : Nat} {items : List Value} (hbase : p.memory.stack.base len = .ok base)
      (h : p.memory.read.ownedAll "list" (p.memory.stack.above base) = .ok items) :
      Restacks scope p (.buildList len) ((p.memory.stack.truncate base).push (.list items))
  | unary {op : UnaryOp} {s : Operands}
      (h : p.memory.stack.mapTop (fun rest => op.evaluate (p.memory.readWith rest)) = .ok s) :
      Restacks scope p (.unary op) s
  | binary {op : BinaryOp} {s : Operands}
      (h : p.memory.stack.mapTopTwo (fun rest => op.evaluate (p.memory.readWith rest)) = .ok s) :
      Restacks scope p (.binary op) s
  | binaryInPlace {op : BinaryOp} {s : Operands}
      (h : p.memory.stack.foldTop (fun rest => op.evaluateInPlace (p.memory.readWith rest)) =
        .ok s) :
      Restacks scope p (.binaryInPlace op) s
  | constructInstance {owner : Name} {id : ScopeId} {classScope : Scope} {layout : ClassLayout}
      {members : List Member} (hid : p.scopes.resolveClass scope owner = .ok id)
      (hscope : p.scopes.get id = .ok classScope) (hlayout : classScope.layout? = some layout)
      (h : templateMembers p.memory layout.template = .ok members) :
      Restacks scope p (.constructInstance owner)
        (p.memory.stack.push (.object (.ofMembers id classScope.name layout.typeId members)))
  | loadMember {object member : Name} {bound target : CellRef} {o : Object} {v : Value}
      (hbound : p.scopes.resolve scope object = .ok bound)
      (htarget : p.memory.resolve bound = .ok target)
      (ho : p.memory.fetch target = .ok (.object o)) (h : o.member? member = some v) :
      Restacks scope p (.loadMember object member) (p.memory.stack.push v)
  /-- A native call. Its function reads nothing but what the program holds, and none of its
  arguments is a reference. -/
  | native {name : Name} {arity : Nat} {entry : String} {args : Arguments}
      (h : ∀ K, p.memory.read.All K → args.read.All K)
      (hargs : ∀ K, p.memory.read.All K → ∀ v ∈ args.toList, K v ∧ v.isReference = false) :
      Restacks scope p (.call name arity)
        ((p.memory.stack.truncate (p.memory.stack.size - arity)).push (p.host entry args))

/-- `q` is `p` with the name bound in the scope to a new cell that holds the value: a cell of the
frame if the scope is that of a call, else one of the arena. -/
inductive Bound (p : Program) (id : ScopeId) (name : Name) (v : Value) (constant : Bool) :
    Program → Prop where
  | inFrame {owner owner' : Scope} (hget : p.scopes.get? id = some owner)
      (hcall : owner.kind.isCall = true)
      (h : owner.addLocal name (p.memory.allocateFrame v constant).1 = .ok owner') :
      Bound p id name v constant
        { p with
          memory := (p.memory.allocateFrame v constant).2
          scopes := p.scopes.set id owner' }
  | inArena {owner owner' : Scope} (hget : p.scopes.get? id = some owner)
      (hcall : owner.kind.isCall = false)
      (h : owner.addLocal name (p.memory.allocate v constant).1 = .ok owner') :
      Bound p id name v constant
        { p with
          memory := (p.memory.allocate v constant).2
          scopes := p.scopes.set id owner' }

/-- The action binds a name in a scope to a new cell that holds the value. -/
inductive Binds (scope : ScopeId) (p : Program) :
    Action → ScopeId → Name → Value → Bool → Prop where
  | declareLocal {name : Name} : Binds scope p (.declareLocal name) scope name .undefined false
  | declareConstant {name : Name} {v w : Value} (h : p.memory.owned "const" v = .ok w) :
      Binds scope p (.declareConstant name v) scope name w true
  | addStaticMember {owner name : Name} {v w : Value} {id : ScopeId}
      (hid : p.scopes.resolveClass scope owner = .ok id)
      (h : p.memory.owned "static member" v = .ok w) :
      Binds scope p (.addStaticMember owner name v) id name w false

/-- The action puts a value into a live cell that is not constant, and leaves this stack. The cell
may itself lie on the stack. -/
inductive Stores (scope : ScopeId) (p : Program) :
    Action → CellRef → Value → Operands → Prop where
  | assignPopped {name : Name} {target : CellRef} {v w : Value} {s : Operands}
      (htarget : p.scopes.resolve scope name = .ok target) (hv : p.memory.stack.top = .ok v)
      (hw : p.memory.owned "=" v = .ok w) (hs : (p.memory.set target w).stack.pop = .ok s) :
      Stores scope p (.assignLocal name .pop) target w s
  | assignLiteral {name : Name} {target : CellRef} {v w : Value}
      (htarget : p.scopes.resolve scope name = .ok target) (hw : p.memory.owned "=" v = .ok w) :
      Stores scope p (.assignLocal name (.literal v)) target w (p.memory.set target w).stack
  | assignMember {object member : Name} {bound target : CellRef} {v w holder changed : Value}
      {s : Operands} (hbound : p.scopes.resolve scope object = .ok bound)
      (htarget : p.memory.resolve bound = .ok target) (hv : p.memory.stack.top = .ok v)
      (hw : p.memory.owned "=" v = .ok w) (hholder : p.memory.read target = some holder)
      (h : withMember member w holder = .ok changed)
      (hs : (p.memory.set target changed).stack.pop = .ok s) :
      Stores scope p (.assignMember object member) target changed s

/-- Constant cells for the defaults of the first parameters, one after the other. -/
inductive Defaults : Program → List Parameter → Program → Prop where
  | stop {p : Program} {params : List Parameter} : Defaults p params p
  | next {p q : Program} {param : Parameter} {params : List Parameter} {w : Value}
      (hw : ∀ v, param.default = some v → p.memory.owned "default" v = .ok w)
      (hnone : param.default = none → w = .undefined)
      (h : Defaults { p with memory := (p.memory.allocate w true).2 } params q) :
      Defaults p (param :: params) q

/-- What an action that opens no body does when it succeeds. -/
inductive Performs (scope : ScopeId) (p : Program) : Action → Flow → Program → Prop where
  | restack {a : Action} {s : Operands} (h : Restacks scope p a s) :
      Performs scope p a .next (p.withStack s)
  | bind {a : Action} {id : ScopeId} {name : Name} {v : Value} {constant : Bool} {q : Program}
      (h : Binds scope p a id name v constant) (hbound : Bound p id name v constant q) :
      Performs scope p a .next q
  | store {a : Action} {target : CellRef} {v old : Value} {s : Operands}
      (h : Stores scope p a target v s) (hold : p.memory.read target = some old)
      (hconst : p.memory.isConstant target = false) :
      Performs scope p a .next
        { p with memory := { p.memory.set target v with stack := s } }
  | addInstanceMember {owner name : Name} {v w : Value} {id : ScopeId} {classScope : Scope}
      {template template' : SlotSet} (hid : p.scopes.resolveClass scope owner = .ok id)
      (hw : p.memory.owned "instance member" v = .ok w)
      (hscope : p.scopes.get? id = some classScope)
      (htemplate : classScope.template? = some template)
      (h : template.insert name (p.memory.allocate w false).1 = .ok template') :
      Performs scope p (.addInstanceMember owner name v) .next
        { p with
          memory := (p.memory.allocate w false).2
          scopes := p.scopes.set id (classScope.setTemplate template') }
  | defineMethod {name : Name} {params : List Parameter} {body : List Action} {slots : SlotSet}
      {p' q : Program} (hslots : slots.Consistent) (hstatic : slots.Static)
      (hd : Defaults p params p')
      (h : Bound p' scope name (.method { name, params := slots, scope, body }) false q) :
      Performs scope p (.defineMethod name params body) .next
        { q with scopes := q.scopes.retain scope }
  | ret {v w : Value} {s : Operands} (hv : p.memory.stack.top = .ok v)
      (hw : p.memory.owned "return" v = .ok w) (hs : p.memory.stack.pop = .ok s) :
      Performs scope p .ret .ret { p.withStack s with returned := w }
  | debugPrint {name : Name} {target : CellRef} {v : Value} {text : String}
      (htarget : p.scopes.resolve scope name = .ok target)
      (hv : p.memory.fetch target = .ok v) (h : p.memory.render? v = some text) :
      Performs scope p (.debugPrint name) .next
        { p with sink := p.sink.println (name ++ " = " ++ text) }

/-- What an action that stops without having run a body leaves behind. -/
inductive Refuses (p : Program) : Action → Program → Prop where
  | same {a : Action} : Refuses p a p
  | numbered {name : Name} {body : List Action} :
      Refuses p (.defineClass name body) { p with lastTypeId := p.lastTypeId + 1 }
  | defaulted {name : Name} {params : List Parameter} {body : List Action} {q : Program}
      (h : Defaults p params q) : Refuses p (.defineMethod name params body) q
  /-- A native call has put some arguments in the place of references to them. -/
  | placed {name : Name} {arity : Nat} {s : Operands}
      (hbelow : Operands.Below (p.memory.stack.size - arity) p.memory.stack s)
      (h : ∀ K, p.memory.read.All K → s.All K) :
      Refuses p (.call name arity) (p.withStack s)

/-- Some cell holds a value that has no finite text. -/
def Endless (p : Program) : Prop :=
  ∃ target v, p.memory.read target = some v ∧ p.memory.render? v = none

/-! ## Actions that open no body -/

/-- The stack holds the operands of the action. -/
structure Served (p : Program) (a : Action) : Prop where
  operands : a.operandArity ≤ p.memory.stack.size
  offset : a.hasZeroOffset = false

theorem Served.offset_pos_of_duplicate {offset : Nat} (h : Served p (.duplicate offset)) :
    0 < offset := by
  cases offset with
  | zero => cases h.offset
  | succ n => exact Nat.succ_pos n

theorem Served.offset_pos_of_swap {offset : Nat} (h : Served p (.swap offset)) : 0 < offset := by
  cases offset with
  | zero => cases h.offset
  | succ n => exact Nat.succ_pos n

/-- Why an action stops without having run a body: it reports a fault, prints a value without a
finite text, lacks its operands or looks something up in a tree that does not have it. -/
inductive StopCause (scope : ScopeId) (p : Program) : Action → Stop Fault → Prop where
  | fault {a : Action} {cause : Fault} : StopCause scope p a (.fault cause)
  | endless {name : Name} {target : CellRef} {v : Value}
      (htarget : p.scopes.resolve scope name = .ok target) (hv : p.memory.read target = some v)
      (h : p.memory.render? v = none) : StopCause scope p (.debugPrint name) .unending
  | operands {a : Action} {s : Stop Fault} (h : ¬ Served p a) : StopCause scope p a s
  | scope {a : Action} {v : Violation} (h : p.scopes.get scope = .error v) :
      StopCause scope p a (.breach v)
  | name {a : Action} {name : Name} {s : Stop Fault}
      (h : p.scopes.resolve scope name = .error s) : StopCause scope p a s
  | nested {a : Action} {name : Name} {s : Stop Fault}
      (h : p.scopes.resolveScope scope name = .error s) : StopCause scope p a s
  | ofClass {a : Action} {name : Name} {s : Stop Fault}
      (h : p.scopes.resolveClass scope name = .error s) : StopCause scope p a s
  | inner {a : Action} {name : Name} {id : ScopeId} {v : Violation}
      (hid : p.scopes.resolveScope scope name = .ok id) (h : p.scopes.get id = .error v) :
      StopCause scope p a (.breach v)
  | slot {a : Action} {nested name : Name} {id : ScopeId} {owner : Scope} {e : Stop SlotError}
      (hid : p.scopes.resolveScope scope nested = .ok id) (howner : p.scopes.get id = .ok owner)
      (h : owner.findLocal name = .error e) : StopCause scope p a (e.map SlotError.toFault)

/-- The action does what `Performs` allows, or stops for one of the listed causes and leaves what
`Refuses` allows. -/
def Effects (scope : ScopeId) (p : Program) (a : Action) (x : Exec Fault Flow) : Prop :=
  Ends x p (Performs scope p a) fun s q => Refuses p a q ∧ StopCause scope p a s

/-- A step that settles once the operands are there stops for a listed cause. -/
theorem stopCause_of_settled {α : Type} {e : Except (Stop Fault) α} {s : Stop Fault}
    (he : e = .error s) (h : Served p a → Settled e) : StopCause scope p a s := by
  by_cases hserved : Served p a
  · obtain ⟨cause, rfl⟩ := h hserved s he
    exact .fault
  · exact .operands hserved

theorem settled_liftViolation {α : Type} {e : Except Violation α} (h : ∃ b, e = .ok b) :
    Settled (liftM e : Except (Stop Fault) α) := by
  obtain ⟨b, rfl⟩ := h
  exact settled_ok b

theorem liftViolation_eq_ok_iff {α : Type} {e : Except Violation α} {b : α} :
    (liftM e : Except (Stop Fault) α) = .ok b ↔ e = .ok b := by
  cases e with
  | error v => exact ⟨nofun, nofun⟩
  | ok c => exact ⟨fun h => congrArg Except.ok (Except.ok.inj h), fun h => h ▸ rfl⟩

/-- The action finds a sound tree, a live scope and its operands. -/
structure Ready (scope : ScopeId) (p : Program) (a : Action) : Prop where
  tree : p.scopes.Sound
  live : p.scopes.owns scope = true
  operands : a.operandArity ≤ p.memory.stack.size
  offset : a.hasZeroOffset = false

/-- An action that has its operands reports a fault, prints a value without a finite text, or meets
a handle of another tree. -/
theorem StopCause.cases_upTo {F : ScopeId → Prop} {s : Stop Fault} (hs : StopCause scope p a s)
    (ht : p.scopes.SoundUpTo F) (ho : p.scopes.owns scope = true) (hserved : Served p a) :
    ((∃ cause, s = .fault cause) ∨
      s = .unending ∧ ∃ name target v, a = .debugPrint name ∧
        p.scopes.resolve scope name = .ok target ∧ p.memory.read target = some v ∧
        p.memory.render? v = none) ∨
      ∃ id, F id ∧ s = .breach (.deadScope id.index) := by
  have hlooked : ∀ {α : Type} {e : Except (Stop Fault) α}, e = .error s →
      Settled e ∨ ScopeTree.Strays F e →
      (∃ cause, s = .fault cause) ∨ ∃ id, F id ∧ s = .breach (.deadScope id.index) := by
    rintro α e rfl (hsettled | ⟨id, hid, he⟩)
    · exact Or.inl (hsettled s rfl)
    · cases he
      exact Or.inr ⟨id, hid, rfl⟩
  cases hs with
  | fault => exact Or.inl (Or.inl ⟨_, rfl⟩)
  | endless htarget hv he => exact Or.inl (Or.inr ⟨rfl, _, _, _, rfl, htarget, hv, he⟩)
  | operands hs => exact absurd hserved hs
  | scope hs => exact (ht.get_ne_error ho hs).elim
  | @name _ name _ hs => exact (hlooked hs (ht.resolve_cases ho name)).imp_left Or.inl
  | @nested _ name _ hs =>
    refine (hlooked hs ?_).imp_left Or.inl
    refine (ht.resolveScope_cases ho name).imp_left ?_
    rintro (⟨id, i, hid, -⟩ | hid) <;> rw [hid]
    · exact settled_ok id
    · exact settled_fault _
  | @ofClass _ name _ hs => exact (hlooked hs (ht.resolveClass_cases ho name)).imp_left Or.inl
  | inner hid hs =>
    obtain ⟨inner, hget⟩ := ht.exists_inner ho hid
    rw [hget] at hs
    cases hs
  | slot hid howner hs =>
    obtain ⟨-, hslot⟩ := ScopeTree.get?_eq_some_iff.1 (ScopeTree.get_eq_ok_iff.1 howner)
    obtain ⟨cause, rfl⟩ := Scope.findLocal_settled (ht.slots _ _ hslot) _ _ hs
    exact Or.inl (Or.inl ⟨_, rfl⟩)

/-- An action that is ready reports a fault, or prints a value without a finite text. -/
theorem StopCause.cases_of_ready {s : Stop Fault} (hs : StopCause scope p a s)
    (h : Ready scope p a) :
    (∃ cause, s = .fault cause) ∨
      s = .unending ∧ ∃ name target v, a = .debugPrint name ∧
        p.scopes.resolve scope name = .ok target ∧ p.memory.read target = some v ∧
        p.memory.render? v = none :=
  (hs.cases_upTo h.tree h.live ⟨h.operands, h.offset⟩).resolve_right fun ⟨_, hnone, _⟩ => hnone

/-- The action does what `Performs` allows, or fails and leaves what `Refuses` allows. -/
def Effective (scope : ScopeId) (p : Program) (a : Action) (x : Exec Fault Flow) : Prop :=
  Ends x p (Performs scope p a) (Halts (fun _ q => Refuses p a q) (fun q => q = p ∧ Endless p))

theorem Effects.effective {x : Exec Fault Flow} (h : Effects scope p a x)
    (hready : Ready scope p a) : Effective scope p a x := by
  refine Ends.imp h (fun _ _ hq => hq) ?_
  rintro s q ⟨hq, hs⟩
  rcases hs.cases_of_ready hready with ⟨cause, rfl⟩ | ⟨rfl, name, target, v, rfl, -, hv, he⟩
  · exact hq
  · cases hq
    exact ⟨rfl, target, v, hv, he⟩

/-- A stop that changed nothing is one that the action may leave behind. -/
theorem Halts.refuses {s : Stop Fault}
    (h : Halts (fun _ q => q = p) (fun _ => False) s q) :
    Halts (fun _ q => Refuses p a q) (fun q => q = p ∧ Endless p) s q := by
  refine h.imp (fun _ hq => ?_) False.elim
  subst hq
  exact Refuses.same

theorem addLocal_eq_ok_iff {t u : ScopeTree} {id : ScopeId} {name : Name} {target : CellRef} :
    t.addLocal id name target = .ok u ↔
      ∃ s s', t.get? id = some s ∧ s.addLocal name target = .ok s' ∧ u = t.set id s' := by
  unfold ScopeTree.addLocal
  simp only [← ScopeTree.get_eq_ok_iff]
  cases t.get id with
  | error v => simp [bind, Except.bind, liftM, monadLift, MonadLift.monadLift]
  | ok s =>
    cases hs : s.addLocal name target with
    | error e => simp [bind, Except.bind, liftM, monadLift, MonadLift.monadLift, hs]
    | ok s' =>
      simp [bind, Except.bind, liftM, monadLift, MonadLift.monadLift, hs, pure, Except.pure,
        eq_comm]

/-- A name that is not taken can be declared. -/
theorem exists_addLocal {s : Scope} {name : Name} (h : s.locals.contains name = false)
    (target : CellRef) : ∃ s', s.addLocal name target = .ok s' := by
  unfold Scope.addLocal
  rw [SlotSet.insert_of_not_contains h]
  exact ⟨_, rfl⟩

/-- In a live scope a name is declared or refused. -/
theorem addLocal_settled {t : ScopeTree} {id : ScopeId} {s : Scope} (hget : t.get? id = some s)
    (name : Name) (target : CellRef) : Settled (t.addLocal id name target) := by
  intro stop hstop
  unfold ScopeTree.addLocal at hstop
  rw [ScopeTree.get_eq_ok_iff.2 hget] at hstop
  simp only [bind, Except.bind, liftM, monadLift, MonadLift.monadLift] at hstop
  cases hs : s.addLocal name target with
  | error e =>
    rw [hs] at hstop
    cases hstop
    exact ⟨_, rfl⟩
  | ok s' =>
    rw [hs] at hstop
    cases hstop

theorem addInstanceMember_eq {t : ScopeTree} {id : ScopeId} {name : Name} {target : CellRef}
    {s : Scope} {template : SlotSet} (hs : t.get? id = some s)
    (ht : s.template? = some template) :
    t.addInstanceMember id name target =
      match template.insert name target with
      | .ok template' => .ok (t.set id (s.setTemplate template'))
      | .error e => .error (.fault e.toFault) := by
  unfold ScopeTree.addInstanceMember
  rw [ScopeTree.get_eq_ok_iff.2 hs]
  simp only [bind, Except.bind, liftM, monadLift, MonadLift.monadLift, ht]
  cases template.insert name target <;> rfl

/-- A name is bound, or nothing is changed because the name is taken or the scope is dead. -/
theorem bindNew_cases (p : Program) (id : ScopeId) (name : Name) (v : Value) (constant : Bool) :
    Ends (bindNew id name v constant) p (fun _ q => Bound p id name v constant q)
      fun s q => q = p ∧
        ((∃ cause, s = .fault cause) ∨ ∃ v, s = .breach v ∧ p.scopes.get id = .error v) := by
  simp only [bindNew, ends_bind, ends_get, ends_liftViolation, ends_liftStop, ends_ite, ends_fault,
    ends_allocate, ends_allocateFrame, ends_setScopes, ends_pure]
  refine ⟨fun owner howner => ⟨fun _ => ⟨trivial, Or.inl ⟨_, rfl⟩⟩, fun hnew => ?_⟩,
    fun v hv => ⟨trivial, Or.inr ⟨v, rfl, hv⟩⟩⟩
  have hget := ScopeTree.get_eq_ok_iff.1 howner
  have hfree : owner.locals.contains name = false := eq_false_of_ne_true hnew
  refine ⟨fun hcall => ?_, fun hcall => ?_⟩
  · obtain ⟨owner', howner'⟩ := exists_addLocal hfree (p.memory.allocateFrame v constant).1
    have hadd := addLocal_eq_ok_iff.2 ⟨owner, owner', hget, howner', rfl⟩
    rw [hadd]
    exact ⟨fun u hu => Except.ok.inj hu ▸ .inFrame hget hcall howner', fun s hs => by cases hs⟩
  · obtain ⟨owner', howner'⟩ := exists_addLocal hfree (p.memory.allocate v constant).1
    have hadd := addLocal_eq_ok_iff.2 ⟨owner, owner', hget, howner', rfl⟩
    rw [hadd]
    exact ⟨fun u hu => Except.ok.inj hu ▸ .inArena hget (eq_false_of_ne_true hcall) howner',
      fun s hs => by cases hs⟩

/-- Nothing is changed by a name that cannot be bound in the scope of the action. -/
theorem bindNew_effects {name : Name} {v : Value} {constant : Bool}
    (h : ∀ q, Bound p scope name v constant q → Performs scope p a .next q) :
    Ends (bindNew scope name v constant) p (fun _ q => Performs scope p a .next q)
      fun s q => Refuses p a q ∧ StopCause scope p a s := by
  refine (bindNew_cases p scope name v constant).imp (fun _ q hq => h q hq) ?_
  rintro s q ⟨rfl, ⟨cause, rfl⟩ | ⟨v, rfl, hv⟩⟩
  · exact ⟨.same, .fault⟩
  · exact ⟨.same, .scope hv⟩

theorem resolveLocal_effects {name : Name} :
    Effects scope p (.resolveLocal name) (resolveLocal scope name) := by
  simp only [Effects, resolveLocal, ends_bind, ends_resolve, ends_push, ends_pure]
  exact ⟨fun target ht => .restack (.resolveLocal ht), fun s hs => ⟨.same, .name hs⟩⟩

theorem resolveQualified_effects {nested name : Name} :
    Effects scope p (.resolveQualified nested name) (resolveQualified scope nested name) := by
  simp only [Effects, resolveQualified, ends_bind, ends_get, ends_liftStop, ends_liftViolation,
    ends_push, ends_pure]
  refine ⟨fun id hid => ⟨fun owner howner => ?_, fun v hv => ⟨.same, .inner hid hv⟩⟩,
    fun s hs => ⟨.same, .nested hs⟩⟩
  cases hf : owner.findLocal name with
  | error e =>
    refine ⟨fun target ht => (by cases ht), fun s hs => ?_⟩
    cases hs
    exact ⟨.same, .slot hid howner hf⟩
  | ok found =>
    refine ⟨fun target ht => ?_, fun s hs => by cases hs⟩
    cases ht
    exact .restack (.resolveQualified hid howner hf)

theorem declareLocal_effects {name : Name} :
    Effects scope p (.declareLocal name) (declareLocal scope name) := by
  simp only [Effects, declareLocal, ends_bind, ends_pure]
  exact bindNew_effects fun q hq => .bind .declareLocal hq

theorem declareConstant_effects {name : Name} {v : Value} :
    Effects scope p (.declareConstant name v) (declareConstant scope name v) := by
  simp only [Effects, declareConstant, ends_bind, ends_owned, ends_pure]
  exact ⟨fun w hw => bindNew_effects fun q hq => .bind (.declareConstant hw) hq,
    fun f _ => ⟨.same, .fault⟩⟩

theorem addStaticMember_effects {owner name : Name} {v : Value} :
    Effects scope p (.addStaticMember owner name v) (addStaticMember scope owner name v) := by
  simp only [Effects, addStaticMember, ends_bind, ends_get, ends_liftStop, ends_owned, ends_pure]
  refine ⟨fun id hid => ⟨fun w hw => ?_, fun f _ => ⟨.same, .fault⟩⟩,
    fun s hs => ⟨.same, .ofClass hs⟩⟩
  obtain ⟨classScope, hget, -⟩ := ScopeTree.resolveClass_eq_ok hid
  refine (bindNew_cases p id name w false).imp
    (fun _ q hq => .bind (.addStaticMember hid hw) hq) ?_
  rintro s q ⟨rfl, ⟨cause, rfl⟩ | ⟨v, rfl, hv⟩⟩
  · exact ⟨.same, .fault⟩
  · rw [ScopeTree.get_eq_ok_iff.2 hget] at hv
    cases hv

theorem addInstanceMember_effects {owner name : Name} {v : Value} :
    Effects scope p (.addInstanceMember owner name v) (addInstanceMember scope owner name v) := by
  simp only [Effects, addInstanceMember, ends_bind, ends_get, ends_liftStop, ends_liftViolation,
    ends_owned, ends_ite, ends_fault, ends_allocate, ends_setScopes, ends_pure]
  refine ⟨fun id hid => ⟨fun w hw => ?_, fun f _ => ⟨.same, .fault⟩⟩,
    fun s hs => ⟨.same, .ofClass hs⟩⟩
  obtain ⟨classScope, hget, hclass⟩ := ScopeTree.resolveClass_eq_ok hid
  obtain ⟨template, htemplate⟩ := Scope.isClass_iff_exists_template.1 hclass
  rw [ScopeTree.get_eq_ok_iff.2 hget]
  refine ⟨fun s hs => ⟨fun _ => ⟨.same, .fault⟩, fun hnew => ?_⟩, fun v hv => by cases hv⟩
  cases hs
  rw [htemplate, Option.any_some] at hnew
  have hinsert := SlotSet.insert_of_not_contains (eq_false_of_ne_true hnew)
    (p.memory.allocate w false).1
  rw [addInstanceMember_eq hget htemplate, hinsert]
  exact ⟨fun u hu => Except.ok.inj hu ▸ .addInstanceMember hid hw hget htemplate hinsert,
    fun s hs => by cases hs⟩

theorem pushLiteral_effects {v : Value} :
    Effects scope p (.pushLiteral v) (pushLiteral v) := by
  simp only [Effects, pushLiteral, ends_bind, ends_ite, ends_fault, ends_push, ends_pure]
  exact ⟨fun _ => ⟨.same, .fault⟩, fun hv => .restack (.pushLiteral (eq_false_of_ne_true hv))⟩

theorem buildList_effects {len : Nat} : Effects scope p (.buildList len) (buildList len) := by
  simp only [Effects, buildList, ends_bind, ends_get, ends_liftViolation, ends_liftFault,
    ends_modify, ends_pure]
  refine ⟨fun base hbase => ⟨fun items hitems => .restack (.buildList hbase hitems),
    fun f _ => ⟨.same, .fault⟩⟩, fun v hv => ⟨.same, .operands fun hserved => ?_⟩⟩
  have hlen : len ≤ p.memory.stack.size := hserved.operands
  rw [Operands.base_eq_ok_iff.2 ⟨hlen, rfl⟩] at hv
  cases hv

/-- An action that replaces the stack by what a partial operation makes of it. -/
theorem onStack_effects {f : Operands → Except Violation Operands}
    (hf : ∀ s, f p.memory.stack = .ok s → Restacks scope p a s)
    (hserved : Served p a → ∃ s, f p.memory.stack = .ok s) :
    Effects scope p a (do onStack fun stack => f stack; return .next) := by
  simp only [Effects, ends_bind, ends_onStack, ends_pure]
  exact ⟨fun s hs => .restack (hf s (liftViolation_eq_ok_iff.1 hs)), fun s hs => ⟨.same,
    stopCause_of_settled hs fun h => settled_liftViolation (hserved h)⟩⟩

theorem pop_effects : Effects scope p .pop (do pop; return .next) :=
  onStack_effects (fun _ hs => .pop hs) fun h => Operands.exists_pop h.operands

theorem duplicate_effects {offset : Nat} :
    Effects scope p (.duplicate offset) (duplicate offset) := by
  refine onStack_effects (fun _ hs => .duplicate hs) fun h => ?_
  obtain ⟨v, hv⟩ := Operands.exists_topAt h.offset_pos_of_duplicate h.operands
  exact ⟨_, Operands.duplicate_eq_ok_iff.2 ⟨v, hv, rfl⟩⟩

theorem swap_effects {offset : Nat} : Effects scope p (.swap offset) (swap offset) :=
  onStack_effects (fun _ hs => .swap hs) fun h =>
    ⟨_, Operands.swap_eq_ok_iff.2 ⟨h.offset_pos_of_swap, h.operands, rfl⟩⟩

theorem unary_effects {op : UnaryOp} : Effects scope p (.unary op) (unary op) := by
  simp only [Effects, unary, ends_bind, ends_get, ends_liftStop, ends_setMemory, ends_pure]
  refine ⟨fun m hm => ?_, fun s hs => ⟨.same,
    stopCause_of_settled hs fun h => Memory.applyUnary_settled h.operands⟩⟩
  obtain ⟨s, hs, hm⟩ := bind_eq_ok_iff.1 hm
  cases hm
  exact .restack (.unary hs)

theorem binary_effects {op : BinaryOp} : Effects scope p (.binary op) (binary op) := by
  simp only [Effects, binary, ends_bind, ends_get, ends_liftStop, ends_setMemory, ends_pure]
  refine ⟨fun m hm => ?_, fun s hs => ⟨.same,
    stopCause_of_settled hs fun h => Memory.applyBinary_settled h.operands⟩⟩
  obtain ⟨s, hs, hm⟩ := bind_eq_ok_iff.1 hm
  cases hm
  exact .restack (.binary hs)

theorem binaryInPlace_effects {op : BinaryOp} :
    Effects scope p (.binaryInPlace op) (binaryInPlace op) := by
  simp only [Effects, binaryInPlace, ends_bind, ends_get, ends_liftStop, ends_setMemory,
    ends_pure]
  refine ⟨fun m hm => ?_, fun s hs => ⟨.same,
    stopCause_of_settled hs fun h => Memory.applyInPlace_settled h.operands⟩⟩
  obtain ⟨s, hs, hm⟩ := bind_eq_ok_iff.1 hm
  cases hm
  exact .restack (.binaryInPlace hs)

theorem constructInstance_effects {owner : Name} :
    Effects scope p (.constructInstance owner) (constructInstance scope owner) := by
  simp only [Effects, constructInstance, ends_bind, ends_get, ends_liftStop, ends_liftViolation]
  refine ⟨fun id hid => ?_, fun s hs => ⟨.same, .ofClass hs⟩⟩
  obtain ⟨classScope, hget, hclass⟩ := ScopeTree.resolveClass_eq_ok hid
  obtain ⟨layout, hlayout⟩ := Option.isSome_iff_exists.1 hclass
  rw [ScopeTree.get_eq_ok_iff.2 hget]
  refine ⟨fun s hs => ?_, fun v hv => by cases hv⟩
  cases hs
  simp only [hlayout, ends_bind, ends_liftFault, ends_push, ends_pure]
  exact ⟨fun members hm => .restack (.constructInstance hid (ScopeTree.get_eq_ok_iff.2 hget)
    hlayout hm), fun f _ => ⟨.same, .fault⟩⟩

theorem loadMember_effects {object member : Name} :
    Effects scope p (.loadMember object member) (loadMember scope object member) := by
  simp only [Effects, loadMember, objectCell, ends_bind, ends_get, ends_resolve, ends_liftFault]
  refine ⟨fun bound hbound => ⟨fun target htarget => ⟨fun holder hholder => ?_,
    fun f _ => ⟨.same, .fault⟩⟩, fun f _ => ⟨.same, .fault⟩⟩, fun s hs => ⟨.same, .name hs⟩⟩
  cases holder with
  | object o =>
    cases hv : o.member? member with
    | none =>
      simp only [Value.object?, hv, ends_bind, ends_fault]
      exact ⟨.same, .fault⟩
    | some v =>
      simp only [Value.object?, hv, ends_bind, ends_push, ends_pure]
      exact .restack (.loadMember hbound htarget hholder hv)
  | _ =>
    simp only [Value.object?, ends_bind, ends_fault]
    exact ⟨.same, .fault⟩

/-- An operand is still there after a store. -/
theorem exists_pop_set (h : 0 < p.memory.stack.size) (target : CellRef) (v : Value) :
    ∃ s, (p.memory.set target v).stack.pop = .ok s := by
  apply Operands.exists_pop
  rw [Memory.size_stack_set]
  exact h

/-- A top that cannot be read is not there. -/
theorem not_served_of_top {v : Violation} (ha : a.operandArity = 1)
    (hv : p.memory.stack.top = .error v) : ¬ Served p a := fun h =>
  Operands.topAt_ne_error Nat.one_pos (ha ▸ h.operands) hv

theorem assignLocal_effects {name : Name} {source : Operand} :
    Effects scope p (.assignLocal name source) (assignLocal scope name source) := by
  cases source with
  | literal v =>
    simp only [Effects, assignLocal, ends_bind, ends_resolve, ends_owned, ends_get,
      ends_liftFault, ends_setMemory, ends_pure]
    refine ⟨fun target htarget => ⟨fun w hw => ⟨fun m hm => ?_, fun f _ => ⟨.same, .fault⟩⟩,
      fun f _ => ⟨.same, .fault⟩⟩, fun s hs => ⟨.same, .name hs⟩⟩
    obtain ⟨hconst, old, w', hold, hw', rfl⟩ := Memory.update_eq_ok_iff.1 hm
    cases hw'
    exact .store (.assignLiteral htarget hw) hold hconst
  | pop =>
    simp only [Effects, assignLocal, ends_bind, ends_resolve, ends_ownedTop, ends_get,
      ends_liftFault, ends_setMemory, pop, ends_onStack, ends_pure]
    refine ⟨fun target htarget => ⟨fun v hv => ⟨fun w hw => ⟨fun m hm => ?_,
      fun f _ => ⟨.same, .fault⟩⟩, fun f _ => ⟨.same, .fault⟩⟩,
      fun v hv => ⟨.same, .operands (not_served_of_top rfl hv)⟩⟩, fun s hs => ⟨.same, .name hs⟩⟩
    obtain ⟨hconst, old, w', hold, hw', rfl⟩ := Memory.update_eq_ok_iff.1 hm
    cases hw'
    obtain ⟨s, hs⟩ := exists_pop_set (Operands.pos_of_topAt hv) target w
    rw [hs]
    refine ⟨fun s' hs' => ?_, fun s hs => by cases hs⟩
    cases hs'
    exact .store (.assignPopped htarget hv hw hs) hold hconst

theorem assignMember_effects {object member : Name} :
    Effects scope p (.assignMember object member) (assignMember scope object member) := by
  simp only [Effects, assignMember, objectCell, ends_bind, ends_resolve, ends_ownedTop, ends_get,
    ends_liftFault, ends_setMemory, pop, ends_onStack, ends_pure]
  refine ⟨fun bound hbound => ⟨fun target htarget => ⟨fun v hv => ⟨fun w hw => ⟨fun m hm => ?_,
    fun f _ => ⟨.same, .fault⟩⟩, fun f _ => ⟨.same, .fault⟩⟩,
    fun v hv => ⟨.same, .operands (not_served_of_top rfl hv)⟩⟩, fun f _ => ⟨.same, .fault⟩⟩,
    fun s hs => ⟨.same, .name hs⟩⟩
  obtain ⟨hconst, holder, changed, hholder, hchanged, rfl⟩ := Memory.update_eq_ok_iff.1 hm
  obtain ⟨s, hs⟩ := exists_pop_set (Operands.pos_of_topAt hv) target changed
  rw [hs]
  refine ⟨fun s' hs' => ?_, fun s hs => by cases hs⟩
  cases hs'
  exact .store (.assignMember hbound htarget hv hw hholder hchanged hs) hholder hconst

theorem ret_effects : Effects scope p .ret ret := by
  simp only [Effects, ret, ends_bind, ends_ownedTop, pop, ends_onStack, ends_modify, ends_pure]
  refine ⟨fun v hv => ⟨fun w hw => ?_, fun f _ => ⟨.same, .fault⟩⟩,
    fun v hv => ⟨.same, .operands (not_served_of_top rfl hv)⟩⟩
  obtain ⟨s, hs⟩ := Operands.exists_pop (Operands.pos_of_topAt hv)
  rw [hs]
  refine ⟨fun s' hs' => ?_, fun s hs => by cases hs⟩
  cases hs'
  exact .ret hv hw hs

theorem debugPrint_effects {name : Name} :
    Effects scope p (.debugPrint name) (debugPrint scope name) := by
  simp only [Effects, debugPrint, ends_bind, ends_resolve, ends_get, ends_liftFault]
  refine ⟨fun target htarget => ⟨fun v hv => ?_, fun f _ => ⟨.same, .fault⟩⟩,
    fun s hs => ⟨.same, .name hs⟩⟩
  cases ht : p.memory.render? v with
  | none =>
    rw [ends_throw]
    exact ⟨.same, .endless htarget (Memory.fetch_eq_ok_iff.1 hv) ht⟩
  | some text =>
    simp only [ends_bind, ends_modify, ends_pure]
    exact .debugPrint htarget hv ht

/-- The value for the cell of the first parameter is found, or nothing happens. Its cell is added,
and the defaults of the others follow unless its name is taken. -/
theorem bindDefaults_cons_ends {slots : SlotSet} {param : Parameter} {params : List Parameter}
    {done : SlotSet → Program → Prop} {stopped : Stop Fault → Program → Prop}
    (hfailed : ∀ cause, stopped (.fault cause) p)
    (hnext : ∀ w, (∀ v, param.default = some v → p.memory.owned "default" v = .ok w) →
      (param.default = none → w = .undefined) →
      (∀ cause, stopped (.fault cause) { p with memory := (p.memory.allocate w true).2 }) ∧
      ∀ slots', slots.insert param.name (p.memory.allocate w true).1 = .ok slots' →
        Ends (bindDefaults slots' params) { p with memory := (p.memory.allocate w true).2 }
          done stopped) :
    Ends (bindDefaults slots (param :: params)) p done stopped := by
  unfold bindDefaults
  cases hd : param.default with
  | none =>
    simp only [ends_bind, ends_pure, ends_allocate]
    obtain ⟨hstop, hrest⟩ := hnext .undefined (fun v hv => by rw [hd] at hv; cases hv) fun _ => rfl
    cases hi : slots.insert param.name (p.memory.allocate .undefined true).1 with
    | error e => exact hstop _
    | ok slots' => exact hrest slots' hi
  | some v =>
    simp only [ends_bind, ends_owned, ends_allocate]
    refine ⟨fun w hw => ?_, fun cause _ => hfailed cause⟩
    obtain ⟨hstop, hrest⟩ := hnext w (fun v' hv => by rw [hd] at hv; cases hv; exact hw)
      fun hnone => by rw [hd] at hnone; cases hnone
    cases hi : slots.insert param.name (p.memory.allocate w true).1 with
    | error e => exact hstop _
    | ok slots' => exact hrest slots' hi

/-- The defaults are stored one after the other up to the first that fails. -/
theorem bindDefaults_ends {slots : SlotSet} (hslots : slots.Consistent) (hstatic : slots.Static)
    (params : List Parameter) :
    Ends (bindDefaults slots params) p
      (fun slots' q => slots'.Consistent ∧ slots'.Static ∧ Defaults p params q)
      (Halts (fun _ q => Defaults p params q) fun _ => False) := by
  induction params generalizing p slots with
  | nil => exact ⟨hslots, hstatic, .stop⟩
  | cons param params ih =>
    refine bindDefaults_cons_ends (fun _ => Defaults.stop) fun w hw hnone =>
      ⟨fun _ => Defaults.next hw hnone .stop, fun slots' hi => ?_⟩
    exact (ih (hslots.insert hi) (hstatic.insert hi)).imp
      (fun _ q hq => ⟨hq.1, hq.2.1, .next hw hnone hq.2.2⟩)
      fun s q hs => hs.imp (fun _ hd => .next hw hnone hd) False.elim

theorem Defaults.scopes_eq {params : List Parameter} (h : Defaults p params q) :
    q.scopes = p.scopes := by
  induction h with
  | stop => rfl
  | next _ _ _ ih => exact ih

theorem defineMethod_effects {name : Name} {params : List Parameter} {body : List Action} :
    Effects scope p (.defineMethod name params body) (defineMethod scope name params body) := by
  simp only [Effects, defineMethod, ends_bind]
  refine (bindDefaults_ends SlotSet.consistent_empty SlotSet.static_empty params).imp
    (fun slots p' hp' => ?_) fun s q hs => ?_
  · obtain ⟨hslots, hstatic, hd⟩ := hp'
    refine (bindNew_cases p' scope name _ false).imp
      (fun _ q hq => .defineMethod hslots hstatic hd hq) ?_
    rintro s q ⟨rfl, ⟨cause, rfl⟩ | ⟨v, rfl, hv⟩⟩
    · exact ⟨.defaulted hd, .fault⟩
    · rw [hd.scopes_eq] at hv
      exact ⟨.defaulted hd, .scope hv⟩
  · cases s with
    | fault cause => exact ⟨.defaulted hs, .fault⟩
    | breach v => exact hs.elim
    | unending => exact hs.elim

/-! ## Calls -/

/-- `q` is `p` with values of the list put on the stack from `base` up. -/
def Placed (base : Nat) (args : List (Name × Value)) (p q : Program) : Prop :=
  ∃ s : Operands, q = p.withStack s ∧ Operands.Below base p.memory.stack s ∧
    ∀ K : Value → Prop, p.memory.stack.All K → (∀ arg ∈ args, K arg.2) → s.All K

theorem placeArguments_ends {base index : Nat} (hbase : base ≤ index) (slots : SlotSet)
    (args : List (Name × Value)) :
    Ends (placeArguments index slots args) p (fun _ q => Placed base args p q)
      (Halts (fun _ q => Placed base args p q) fun _ => False) := by
  have hsame : ∀ (p : Program) (args : List (Name × Value)), Placed base args p p := fun p _ =>
    ⟨p.memory.stack, rfl, .refl _ _, fun _ h _ => h⟩
  induction args generalizing p index slots with
  | nil => exact hsame p []
  | cons arg args ih =>
    obtain ⟨name, v⟩ := arg
    simp only [placeArguments, ends_bind, ends_get, ends_liftFault, ends_setMemory]
    refine ⟨fun m hm => ?_, fun f _ => hsame p _⟩
    obtain ⟨-, -, w, -, hw, rfl⟩ := Memory.update_eq_ok_iff.1 hm
    cases hw
    -- the rest is placed on the stack that this write leaves
    have hrest : ∀ q, Placed base args { p with memory := p.memory.set (.stack index) v } q →
        Placed base ((name, v) :: args) p q := by
      rintro q ⟨s, rfl, hbelow, hs⟩
      refine ⟨s, rfl, (Operands.below_set hbase v).trans hbelow, fun K hstack hargs => ?_⟩
      exact hs K (hstack.set (hargs _ List.mem_cons_self) index)
        fun arg harg => hargs arg (List.mem_cons_of_mem _ harg)
    cases hi : slots.insert name (.stack index) with
    | error e =>
      rw [ends_fault]
      exact hrest _ (hsame _ args)
    | ok slots' =>
      exact (ih (Nat.le_succ_of_le hbase) slots').imp (fun _ q hq => hrest q hq)
        fun s q hs => hs.imp (fun _ hq => hrest q hq) False.elim

/-- The slots of the parameters lead to the places where their values lie. -/
theorem placeArguments_values {V : Value → Prop} {index : Nat} {slots : SlotSet}
    {args : List (Name × Value)}
    (hslots : ∀ slot ∈ slots.slots, ∃ i v, slot.target = .stack i ∧ i < index ∧
      p.memory.stack.get? i = some v ∧ V v) (hargs : ∀ arg ∈ args, V arg.2) :
    Ends (placeArguments index slots args) p (fun slots' q => ∀ slot ∈ slots'.slots, ∀ v,
      q.memory.read slot.target = some v → V v) fun _ _ => True := by
  induction args generalizing p index slots with
  | nil =>
    intro slot hslot v hv
    obtain ⟨i, w, htarget, -, hw, hV⟩ := hslots slot hslot
    rw [htarget] at hv
    cases hw.symm.trans hv
    exact hV
  | cons arg args ih =>
    obtain ⟨name, v⟩ := arg
    simp only [placeArguments, ends_bind, ends_get, ends_liftFault, ends_setMemory]
    refine ⟨fun m hm => ?_, fun f _ => trivial⟩
    obtain ⟨-, old, w, hold, hw, rfl⟩ := Memory.update_eq_ok_iff.1 hm
    cases hw
    have hlt : index < p.memory.stack.values.size := (Array.getElem?_eq_some_iff.1 hold).1
    cases hi : slots.insert name (.stack index) with
    | error e => trivial
    | ok slots' =>
      obtain ⟨-, rfl⟩ := SlotSet.insert_eq_ok_iff.1 hi
      refine ih (fun slot hslot => ?_) fun arg harg => hargs arg (List.mem_cons_of_mem _ harg)
      -- the new slot has its value at `index`, and the others are below
      rcases Array.mem_push.1 hslot with hslot | rfl
      · obtain ⟨i, u, htarget, hless, hu, hV⟩ := hslots slot hslot
        refine ⟨i, u, htarget, Nat.lt_succ_of_lt hless, ?_, hV⟩
        exact (Array.getElem?_setIfInBounds_ne (Nat.ne_of_gt hless)).trans hu
      · exact ⟨index, v, rfl, Nat.lt_succ_self _, Array.getElem?_setIfInBounds_self_of_lt hlt,
          hargs _ List.mem_cons_self⟩

/-- A native call that fails has at most written down its arguments. -/
theorem callNative_effects {name : Name} {arity : Nat} (native : NativeMethod) :
    Ends (callNative native arity) p (fun _ q => Performs scope p (.call name arity) .next q)
      fun s q => Refuses p (.call name arity) q ∧ StopCause scope p (.call name arity) s := by
  simp only [callNative, ends_bind, ends_ite, ends_fault, ends_get, ends_liftViolation,
    ends_liftFault]
  refine ⟨fun _ => ⟨.same, .fault⟩, fun _ => ⟨fun base hbase => ⟨fun values hvalues => ?_,
    fun f _ => ⟨.same, .fault⟩⟩, fun v hv => ⟨.same, .operands fun hserved => ?_⟩⟩⟩
  · obtain ⟨-, rfl⟩ := Operands.base_eq_ok_iff.1 hbase
    -- an argument is what memory holds, and no reference
    have hgiven : ∀ arg ∈ native.params.zip values, (∀ K, p.memory.read.All K → K arg.2) ∧
        arg.2.isReference = false := by
      intro arg harg
      obtain ⟨w, hw, howned⟩ := exists_of_mem_mapM hvalues (List.of_mem_zip harg).2
      exact ⟨fun K hp => hp.owned ((Memory.all_read_iff.1 hp).2.2.above w hw) howned,
        Reader.isReference_owned howned⟩
    have hplaced : ∀ (K : Value → Prop) (s : Operands), p.memory.read.All K →
        (p.memory.stack.All K → (∀ arg ∈ native.params.zip values, K arg.2) → s.All K) →
        s.All K := by
      intro K s hp hs
      exact hs (Memory.all_read_iff.1 hp).2.2 fun arg harg => (hgiven arg harg).1 K hp
    refine ((placeArguments_ends (Nat.le_refl _) .empty _).and (placeArguments_values
      (V := fun v => (∀ K, p.memory.read.All K → K v) ∧ v.isReference = false)
      (fun slot hslot => absurd hslot (Array.not_mem_empty slot)) hgiven)).imp ?_
      fun stop q hstop => ?_
    · rintro slots - ⟨⟨s, rfl, hbelow, hs⟩, hread⟩
      rw [ends_modify]
      show Performs scope p (.call name arity) .next
        (p.withStack ((s.truncate (p.memory.stack.size - arity)).push (p.host native.entry
          { slots, read := (p.withStack s).memory.read })))
      rw [hbelow.truncate_eq]
      refine .restack (.native (fun K hp => Memory.all_restack hp (hplaced K s hp (hs K)))
        fun K hp v hv => ?_)
      obtain ⟨position, -, hat⟩ := List.mem_filterMap.1 hv
      obtain ⟨slot, hslot, hv⟩ := Option.bind_eq_some_iff.1 hat
      obtain ⟨hall, hplain⟩ := hread slot (Array.mem_of_getElem? hslot) v hv
      exact ⟨hall K hp, hplain⟩
    · cases stop with
      | fault cause =>
        obtain ⟨s, rfl, hbelow, hs⟩ := hstop.1
        exact ⟨.placed hbelow fun K hp => hplaced K s hp (hs K), .fault⟩
      | breach v => exact hstop.1.elim
      | unending => exact hstop.1.elim
  · have harity : arity ≤ p.memory.stack.size := hserved.operands
    rw [Operands.base_eq_ok_iff.2 ⟨harity, rfl⟩] at hv
    cases hv

theorem callNative_ends {name : Name} {arity : Nat} (h : Ready scope p (.call name arity))
    (native : NativeMethod) :
    Ends (callNative native arity) p (fun _ q => Performs scope p (.call name arity) .next q)
      (Halts (fun _ q => Refuses p (.call name arity) q) fun _ => False) := by
  refine (callNative_effects native).imp (fun _ _ hq => hq) ?_
  rintro s q ⟨hq, hs⟩
  rcases hs.cases_of_ready h with ⟨cause, rfl⟩ | ⟨-, _, _, _, ha, -⟩
  · exact hq
  · cases ha

/-- The name leads to the value in the scope. -/
def Callee (scope : ScopeId) (p : Program) (name : Name) (v : Value) : Prop :=
  ∃ target w, p.scopes.resolve scope name = .ok target ∧ p.memory.read target = some w ∧
    p.memory.follow w = .ok v

/-- What all values in memory have, what a name leads to has. -/
theorem Callee.of_all {K : Value → Prop} {name : Name} {v : Value} (h : Callee scope p name v)
    (hp : p.memory.read.All K) : K v := by
  obtain ⟨target, w, -, hw, hfollow⟩ := h
  exact hp.follow (hp target w hw) hfollow

/-- The callee is found, or nothing is changed because the name leads nowhere. -/
theorem callee_cases (scope : ScopeId) (p : Program) (name : Name) :
    Ends (callee scope name) p (fun v q => q = p ∧ Callee scope p name v)
      fun s q => q = p ∧
        ((∃ cause, s = .fault cause) ∨ p.scopes.resolve scope name = .error s) := by
  simp only [callee, ends_bind, ends_resolve, ends_get, ends_liftFault]
  refine ⟨fun target htarget => ⟨fun w hw => ⟨fun v hv => ?_,
    fun f _ => ⟨trivial, Or.inl ⟨f, rfl⟩⟩⟩, fun f _ => ⟨trivial, Or.inl ⟨f, rfl⟩⟩⟩,
    fun s hs => ⟨trivial, Or.inr hs⟩⟩
  exact ⟨trivial, target, w, htarget, Memory.fetch_eq_ok_iff.1 hw, hv⟩

theorem callee_ends (h : p.scopes.Sound) (ho : p.scopes.owns scope = true) (name : Name) :
    Ends (callee scope name) p (fun v q => q = p ∧ Callee scope p name v)
      (Halts (fun _ q => q = p) fun _ => False) := by
  refine (callee_cases scope p name).imp (fun _ _ hv => hv) ?_
  rintro s q ⟨rfl, ⟨cause, rfl⟩ | hs⟩
  · rfl
  · obtain ⟨cause, rfl⟩ := h.resolve_settled ho name s hs
    rfl

/-- A call of anything but a method of the program opens no body. -/
theorem call_ends {run : Body} {name : Name} {arity : Nat} (h : Ready scope p (.call name arity))
    {done : Flow → Program → Prop} {refused : Fault → Program → Prop} {endless : Program → Prop}
    (hdone : ∀ q, Performs scope p (.call name arity) .next q → done .next q)
    (hrefused : ∀ cause q, Refuses p (.call name arity) q → refused cause q)
    (hmethod : ∀ m, Callee scope p name (.method m) →
      Ends (callMethod run m arity) p (fun _ q => done .next q) (Halts refused endless)) :
    Ends (call run scope name arity) p done (Halts refused endless) := by
  simp only [call, ends_bind]
  refine (callee_ends h.tree h.live name).imp ?_ ?_
  · rintro v q ⟨rfl, hv⟩
    cases v with
    | method m => simpa only [ends_bind, ends_pure] using hmethod m hv
    | native native =>
      rw [ends_bind]
      exact (callNative_ends h native).imp (fun _ q hq => hdone q hq)
        fun s q hs => hs.imp (fun cause hq => hrefused cause q hq) False.elim
    | _ =>
      simp only [ends_bind, ends_fault]
      exact hrefused _ _ .same
  · intro s q hs
    refine hs.imp (fun cause hq => ?_) False.elim
    subst hq
    exact hrefused cause q .same

end Exec

end ActionMachine
