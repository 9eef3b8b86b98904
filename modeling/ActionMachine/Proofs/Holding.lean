import ActionMachine.Proofs.Steps

/-
  What a program holds. A property is hereditary if all simple values have it, lists have it from
  their items, and objects hand it down to their members. `Program.Holds C` says that everything in
  memory is a reference or has the property `C`. Actions and calls keep this as long as their
  literals, the methods they define, the results of native functions and new objects do
  (`Performs.holds`, `openCall_holds`, `closeCall_holds`): they only hand on what was there. Nothing
  is assumed of the scopes.
-/

namespace ActionMachine

/-! ## Hereditary properties -/

/-- A property that a list has exactly if its items have it, and that an object hands down to its
members and keeps when one of them is given another value with the property. -/
structure Hereditary (C : Value → Prop) : Prop where
  simple : ∀ v, v.isSimple = true → C v
  list : ∀ items, C (.list items) ↔ ∀ item ∈ items, C item
  member : ∀ o : Object, C (.object o) → ∀ member ∈ o.members, C member.value
  setMember? : ∀ (o o' : Object) (name : Name) (v : Value), C (.object o) → C v →
    o.setMember? name v = some o' → C (.object o')

variable {C : Value → Prop} {v w : Value}

theorem Object.mem_setMember? {o o' : Object} {name : Name} (h : o.setMember? name v = some o')
    {member : Member} (hmem : member ∈ o'.members) : member ∈ o.members ∨ member.value = v := by
  simp only [Object.setMember?, bind, Option.bind_eq_some_iff, pure, Option.some.injEq] at h
  obtain ⟨position, -, old, -, rfl⟩ := h
  rcases List.mem_or_eq_of_mem_set hmem with hold | rfl
  · exact Or.inl hold
  · exact Or.inr rfl

/-- A property that comes from the values inside lists and objects alone is hereditary. -/
theorem Hereditary.of_object (simple : ∀ v, v.isSimple = true → C v)
    (list : ∀ items, C (.list items) ↔ ∀ item ∈ items, C item)
    (object : ∀ o, C (.object o) ↔ ∀ member ∈ o.members, C member.value) : Hereditary C := by
  refine ⟨simple, list, fun o => (object o).1, fun o o' name v ho hv hset => ?_⟩
  refine (object o').2 fun member hmem => ?_
  rcases Object.mem_setMember? hset hmem with hold | rfl
  · exact (object o).1 ho member hold
  · exact hv

theorem Hereditary.member? (hC : Hereditary C) {o : Object} {name : Name} (h : C (.object o))
    (hv : o.member? name = some v) : C v := by
  simp only [Object.member?, bind, Option.bind_eq_some_iff, pure, Option.some.injEq] at hv
  obtain ⟨position, -, member, hm, rfl⟩ := hv
  exact hC.member o h member (List.mem_of_getElem? hm)

theorem Hereditary.and {D : Value → Prop} (hC : Hereditary C) (hD : Hereditary D) :
    Hereditary fun v => C v ∧ D v := by
  refine ⟨fun v hv => ⟨hC.simple v hv, hD.simple v hv⟩, fun items => ?_, fun o h member hmem => ?_,
    fun o o' name v ho hv hset => ?_⟩
  · rw [hC.list, hD.list]
    exact ⟨fun h item hitem => ⟨h.1 item hitem, h.2 item hitem⟩,
      fun h => ⟨fun item hitem => (h item hitem).1, fun item hitem => (h item hitem).2⟩⟩
  · exact ⟨hC.member o h.1 member hmem, hD.member o h.2 member hmem⟩
  · exact ⟨hC.setMember? o o' name v ho.1 hv.1 hset, hD.setMember? o o' name v ho.2 hv.2 hset⟩

theorem hereditary_eachMethod (P : Method → Prop) : Hereditary (·.EachMethod P) :=
  .of_object (fun _ hv => Value.eachMethod_of_isSimple hv) (fun _ => Value.eachMethod_list)
    fun _ => Value.eachMethod_object

/-- A reference, or a value with the property. -/
def Value.Loose (C : Value → Prop) (v : Value) : Prop := v.isReference = true ∨ C v

theorem Value.Loose.resolve (h : v.Loose C) (hv : v.isReference = false) : C v :=
  h.resolve_left fun hr => by rw [hv] at hr; cases hr

/-- Nothing is loose about a property that all references have. -/
theorem Value.loose_eq (h : ∀ target, C (.reference target)) : Value.Loose C = C := by
  funext v
  refine propext ⟨fun hv => ?_, Or.inr⟩
  rcases hv with hv | hv
  · cases v with
    | reference target => exact h target
    | _ => cases hv
  · exact hv

/-- A reference holds no method. -/
theorem Value.loose_eachMethod (P : Method → Prop) :
    Value.Loose (·.EachMethod P) = (·.EachMethod P) := loose_eq fun _ => trivial

theorem Reader.All.owned_loose {read : Reader} (h : read.All (Value.Loose C)) {op : String}
    (hv : v.Loose C) (hw : read.owned op v = .ok w) : C w :=
  (h.owned hv hw).resolve (isReference_owned hw)

theorem BinaryOp.evaluate_loose {op : BinaryOp} {read : Reader} (hC : Hereditary C)
    (h : read.All (Value.Loose C)) {a b : Value} (ha : a.Loose C) (hb : b.Loose C)
    (hv : op.evaluate read a b = .ok v) : C v := by
  rcases evaluate_cases hv with hv | hv | hv
  · exact (h.follow ha hv).resolve (Reader.isReference_follow hv)
  · exact (h.follow hb hv).resolve (Reader.isReference_follow hv)
  · exact hC.simple v hv

/-- From arguments with the property, the host makes references and values with the property. -/
def Host.Conveys (C : Value → Prop) (host : Host) : Prop :=
  ∀ (entry : String) (args : Arguments), args.read.All (Value.Loose C) →
    (∀ v ∈ args.toList, C v) → (host entry args).Loose C

/-- The literals of the action itself, without those of the bodies inside it. -/
def Action.literals : Action → List Value
  | .declareConstant _ value | .pushLiteral value | .assignLocal _ (.literal value)
  | .addStaticMember _ _ value | .addInstanceMember _ _ value => [value]
  | .defineMethod _ params _ => params.filterMap (·.default)
  | _ => []

mutual

/-- Every literal of the action, and of the bodies inside it, satisfies `K`. -/
def Action.EachLiteral (K : Value → Prop) : Action → Prop
  | .declareConstant _ value | .pushLiteral value | .assignLocal _ (.literal value)
  | .addStaticMember _ _ value | .addInstanceMember _ _ value => K value
  | .defineNamespace _ body | .defineClass _ body => Action.AllLiterals K body
  | .defineMethod _ params body =>
    (∀ value ∈ params.filterMap (·.default), K value) ∧ Action.AllLiterals K body
  | _ => True

def Action.AllLiterals (K : Value → Prop) : List Action → Prop
  | [] => True
  | action :: actions => action.EachLiteral K ∧ Action.AllLiterals K actions

end

theorem Action.EachLiteral.literals {K : Value → Prop} {a : Action} (h : a.EachLiteral K) :
    ∀ value ∈ a.literals, K value := by
  intro value hvalue
  unfold Action.literals at hvalue
  split at hvalue
  case h_6 => exact h.1 value hvalue
  case h_7 => cases hvalue
  all_goals
    cases List.mem_singleton.1 hvalue
    exact h

theorem Host.conveys_eachMethod {host : Host} (h : host.MakesNoMethod) (P : Method → Prop) :
    host.Conveys (·.EachMethod P) := by
  intro entry args hargs _
  rw [Value.loose_eachMethod] at hargs ⊢
  exact h P entry args hargs

theorem Parameter.eachMethod_default {param : Parameter} {P : Method → Prop}
    (h : param.methodFree = true) (hv : param.default = some v) : v.EachMethod P := by
  unfold methodFree at h
  rw [hv] at h
  exact Value.eachMethod_of_methodFree v h

theorem Action.eachMethod_literals {a : Action} {P : Method → Prop} (ha : a.methodFree = true) :
    ∀ v ∈ a.literals, v.EachMethod P := by
  intro v hv
  unfold literals at hv
  split at hv
  case h_6 params body =>
    obtain ⟨param, hparam, hdefault⟩ := List.mem_filterMap.1 hv
    exact Parameter.eachMethod_default
      (List.all_eq_true.1 (Bool.and_eq_true_iff.1 ha).1 param hparam) hdefault
  case h_7 => cases hv
  all_goals
    cases List.mem_singleton.1 hv
    exact Value.eachMethod_of_methodFree v ha

/-! ## Programs -/

/-- Everything in memory, and the returned value, is a reference or has the property. -/
structure Program.Holds (C : Value → Prop) (p : Program) : Prop where
  memory : p.memory.read.All (Value.Loose C)
  returned : p.returned.Loose C

/-- New objects have the property. -/
def Program.Constructs (C : Value → Prop) (p : Program) : Prop :=
  ∀ id s layout members, p.scopes.get id = .ok s → s.layout? = some layout →
    Exec.templateMembers p.memory layout.template = .ok members →
      C (.object (.ofMembers id s.name layout.typeId members))

namespace Program.Holds

variable {p : Program}

theorem mono {D : Value → Prop} (h : p.Holds C) (hCD : ∀ v, C v → D v) : p.Holds D :=
  ⟨fun target v hv => (h.memory target v hv).imp_right (hCD v), h.returned.imp_right (hCD _)⟩

/-- Memory holds no other methods than those of which the property holds. -/
theorem eachMethod {P : Method → Prop} (h : p.Holds (·.EachMethod P)) :
    p.memory.read.EachMethod P := by
  have hall := h.memory
  rw [Value.loose_eachMethod] at hall
  exact hall

/-- A new program holds nothing. -/
theorem new {arena tree : StoreId} {host : Host} {mode : Mode} {sink : Sink} (h : C .undefined) :
    (Program.new arena tree host mode sink).Holds C :=
  ⟨Memory.all_read_iff.2 ⟨Cells.all_empty, Cells.all_empty, Operands.all_empty⟩, Or.inr h⟩

theorem stack (h : p.Holds C) : p.memory.stack.All (Value.Loose C) :=
  (Memory.all_read_iff.1 h.memory).2.2

theorem withStack (h : p.Holds C) {s : Operands} (hs : s.All (Value.Loose C)) :
    (p.withStack s).Holds C := ⟨Memory.all_restack h.memory hs, h.returned⟩

end Program.Holds

namespace Exec

variable {scope : ScopeId} {p q : Program} {a : Action} {flow : Flow}

theorem templateMembers_values {template : SlotSet} {members : List Member}
    (h : templateMembers p.memory template = .ok members) {member : Member}
    (hmem : member ∈ members) :
    ∃ slot ∈ template.slots, p.memory.read slot.target = some member.value := by
  obtain ⟨slot, hslot, h⟩ := exists_of_mem_mapM h hmem
  obtain ⟨v, hv, he⟩ := bind_eq_ok_iff.1 h
  cases he
  exact ⟨slot, Array.mem_toList_iff.1 hslot, Memory.fetch_eq_ok_iff.1 hv⟩

/-- What a new object is filled with has the property that all has that the program holds. -/
theorem holds_templateMembers (hp : p.Holds C) (hloose : Value.Loose C = C) {template : SlotSet}
    {members : List Member} (h : templateMembers p.memory template = .ok members) :
    ∀ member ∈ members, C member.value := by
  intro member hmem
  obtain ⟨slot, -, hread⟩ := templateMembers_values h hmem
  have hvalue := hp.memory _ _ hread
  rwa [hloose] at hvalue

/-- If all that new objects are filled with has the property, and objects have it from their
members, new objects have it. -/
theorem constructs_of_fill (hobject : ∀ o : Object, (∀ member ∈ o.members, C member.value) →
      C (.object o))
    (h : ∀ id s layout, p.scopes.get id = .ok s → s.layout? = some layout →
      ∀ slot ∈ layout.template.slots, ∀ v, p.memory.read slot.target = some v → C v) :
    p.Constructs C := by
  intro id s layout members hscope hlayout hmembers
  refine hobject _ fun member hmem => ?_
  obtain ⟨slot, hslot, hread⟩ := templateMembers_values hmembers hmem
  exact h id s layout hscope hlayout slot hslot _ hread

/-- An action puts nothing on the stack but what memory holds, its literals, lists and objects made
of them, simple values and what a native function makes. -/
theorem Restacks.all {s : Operands} (h : Restacks scope p a s) (hC : Hereditary C)
    (hp : p.memory.read.All (Value.Loose C)) (hhost : p.host.Conveys C)
    (ha : ∀ v ∈ a.literals, v.Loose C) (hnew : p.Constructs C) : s.All (Value.Loose C) := by
  obtain ⟨harena, hframe, hstack⟩ := Memory.all_read_iff.1 hp
  -- what an operator sees through a part of the stack
  have hview : ∀ rest : Operands, rest.All (Value.Loose C) →
      (p.memory.readWith rest).All (Value.Loose C) :=
    fun rest hrest => Memory.all_readWith_iff.2 ⟨harena, hframe, hrest⟩
  cases h with
  | resolveLocal _ => exact hstack.push (Or.inl rfl)
  | resolveQualified _ _ _ => exact hstack.push (Or.inl rfl)
  | pushLiteral _ => exact hstack.push (ha _ List.mem_cons_self)
  | pop h => exact hstack.pop h
  | duplicate h => exact hstack.duplicate h
  | swap h => exact hstack.swap h
  | buildList _ h =>
    refine (hstack.truncate _).push (Or.inr ((hC.list _).2 fun item hitem => ?_))
    obtain ⟨v, hv, howned⟩ := exists_of_mem_mapM h hitem
    exact hp.owned_loose (hstack.above v hv) howned
  | unary h =>
    obtain ⟨v, w, -, hw, rfl⟩ := Operands.mapTop_eq_ok h
    exact hstack.dropTop.push (Or.inr (hC.simple _ (UnaryOp.isSimple_evaluate hw)))
  | binary h =>
    obtain ⟨a, b, w, ha', hb, hw, rfl⟩ := Operands.mapTopTwo_eq_ok h
    exact (hstack.truncate _).push (Or.inr (BinaryOp.evaluate_loose hC
      (hview _ (hstack.truncate _)) (hstack.topAt ha') (hstack.topAt hb) hw))
  | @binaryInPlace op _ h =>
    obtain ⟨a, b, w, u, ha', hb, hw, rfl⟩ := Operands.foldTop_eq_ok h
    unfold BinaryOp.evaluateInPlace at hw
    split at hw
    · cases hw
      exact (hstack.set (Or.inr (BinaryOp.evaluate_loose hC (hview _ (hstack.truncate _))
        (hstack.topAt ha') (hstack.topAt hb) ‹_›)) _).dropTop
    · cases congrArg Prod.snd hw
  | constructInstance _ hscope hlayout h =>
    exact hstack.push (Or.inr (hnew _ _ _ _ hscope hlayout h))
  | loadMember _ _ ho h =>
    exact hstack.push (Or.inr (hC.member? ((hp _ _ (Memory.fetch_eq_ok_iff.1 ho)).resolve rfl) h))
  | native h hargs =>
    refine (hstack.truncate _).push (hhost _ _ (h _ hp) fun v hv => ?_)
    exact (hargs _ hp v hv).1.resolve (hargs _ hp v hv).2

theorem Bound.holds {id : ScopeId} {name : Name} {v : Value} {constant : Bool}
    (h : Bound p id name v constant q) (hp : p.Holds C) (hv : v.Loose C) : q.Holds C := by
  cases h with
  | inFrame => exact ⟨Memory.all_allocateFrame hp.memory hv constant, hp.returned⟩
  | inArena => exact ⟨Memory.all_allocate hp.memory hv constant, hp.returned⟩

theorem Binds.value {id : ScopeId} {name : Name} {v : Value} {constant : Bool}
    (h : Binds scope p a id name v constant) (hC : Hereditary C) (hp : p.Holds C)
    (ha : ∀ v ∈ a.literals, v.Loose C) : v.Loose C := by
  cases h with
  | declareLocal => exact Or.inr (hC.simple _ rfl)
  | declareConstant hw => exact Or.inr (hp.memory.owned_loose (ha _ List.mem_cons_self) hw)
  | addStaticMember _ hw => exact Or.inr (hp.memory.owned_loose (ha _ List.mem_cons_self) hw)

theorem withMember_eq_ok {member : Name} {w holder changed : Value}
    (h : withMember member w holder = .ok changed) :
    ∃ o o', holder = .object o ∧ o.setMember? member w = some o' ∧ changed = .object o' := by
  unfold withMember at h
  cases holder with
  | object o =>
    cases ho : o.setMember? member w with
    | none =>
      simp only [Value.object?, ho] at h
      cases h
    | some o' =>
      simp only [Value.object?, ho] at h
      cases h
      exact ⟨o, o', rfl, ho, rfl⟩
  | _ => cases h

/-- What is stored was in memory before, or is a literal, and is not a reference. -/
theorem Stores.value {target : CellRef} {v : Value} {s : Operands}
    (h : Stores scope p a target v s) (hC : Hereditary C) (hp : p.memory.read.All (Value.Loose C))
    (ha : ∀ v ∈ a.literals, v.Loose C) : C v ∧ v.isReference = false := by
  have hstack := (Memory.all_read_iff.1 hp).2.2
  cases h with
  | assignPopped _ hv hw _ =>
    exact ⟨hp.owned_loose (hstack.topAt hv) hw, Reader.isReference_owned hw⟩
  | assignLiteral _ hw =>
    exact ⟨hp.owned_loose (ha _ List.mem_cons_self) hw, Reader.isReference_owned hw⟩
  | assignMember _ _ hv hw hholder h _ =>
    obtain ⟨o, o', rfl, ho, rfl⟩ := withMember_eq_ok h
    exact ⟨hC.setMember? o o' _ _ ((hp _ _ hholder).resolve rfl)
      (hp.owned_loose (hstack.topAt hv) hw) ho, rfl⟩

theorem Stores.stack_all {target : CellRef} {v : Value} {s : Operands} {K : Value → Prop}
    (h : Stores scope p a target v s) (hs : (p.memory.set target v).stack.All K) : s.All K := by
  cases h with
  | assignPopped _ _ _ hpop => exact hs.pop hpop
  | assignLiteral _ _ => exact hs
  | assignMember _ _ _ _ _ _ hpop => exact hs.pop hpop

/-- The value for the cell of a parameter is its default or nothing. -/
theorem default_value {param : Parameter} {w : Value} (hC : Hereditary C)
    (hp : p.memory.read.All (Value.Loose C))
    (hw : ∀ v, param.default = some v → p.memory.owned "default" v = .ok w)
    (hnone : param.default = none → w = .undefined)
    (hparam : ∀ v, param.default = some v → v.Loose C) : C w ∧ w.isReference = false := by
  cases hd : param.default with
  | none =>
    rw [hnone hd]
    exact ⟨hC.simple _ rfl, rfl⟩
  | some v =>
    exact ⟨hp.owned_loose (hparam v hd) (hw v hd), Reader.isReference_owned (hw v hd)⟩

theorem Defaults.holds {params : List Parameter} (h : Defaults p params q) (hC : Hereditary C)
    (hp : p.Holds C) (hparams : ∀ v ∈ params.filterMap (·.default), v.Loose C) : q.Holds C := by
  induction h with
  | stop => exact hp
  | @next p q param params w hw hnone _ ih =>
    have hvalue := default_value hC hp.memory hw hnone fun v hv =>
      hparams v (List.mem_filterMap.2 ⟨param, List.mem_cons_self, hv⟩)
    refine ih ⟨Memory.all_allocate hp.memory (Or.inr hvalue.1) true, hp.returned⟩ fun v hv => ?_
    obtain ⟨other, hother, hdefault⟩ := List.mem_filterMap.1 hv
    exact hparams v (List.mem_filterMap.2 ⟨other, List.mem_cons_of_mem _ hother, hdefault⟩)

/-- An action keeps what the program holds if its literals and the method that it defines have the
property. -/
theorem Performs.holds (h : Performs scope p a flow q) (hC : Hereditary C) (hp : p.Holds C)
    (hhost : p.host.Conveys C) (hnew : p.Constructs C) (ha : ∀ v ∈ a.literals, v.Loose C)
    (hmethod : ∀ name params body slots, a = .defineMethod name params body →
      C (.method { name, params := slots, scope, body })) : q.Holds C := by
  cases h with
  | restack h => exact hp.withStack (h.all hC hp.memory hhost ha hnew)
  | bind h hbound => exact hbound.holds hp (h.value hC hp ha)
  | @store _ target v _ s h _ _ =>
    have hset := Memory.all_set hp.memory (Or.inr (h.value hC hp.memory ha).1) target
    exact ⟨Memory.all_restack hset (h.stack_all (Memory.all_read_iff.1 hset).2.2), hp.returned⟩
  | addInstanceMember _ hw _ _ _ =>
    have hvalue := hp.memory.owned_loose (ha _ List.mem_cons_self) hw
    exact ⟨Memory.all_allocate hp.memory (Or.inr hvalue) false, hp.returned⟩
  | @defineMethod name params body slots _ _ _ _ hd hbound =>
    have hq := hbound.holds (hd.holds hC hp ha) (Or.inr (hmethod name params body slots rfl))
    exact ⟨hq.memory, hq.returned⟩
  | ret hv hw hs =>
    exact ⟨Memory.all_restack hp.memory (hp.stack.pop hs),
      Or.inr (hp.memory.owned_loose (hp.stack.topAt hv) hw)⟩
  | debugPrint _ _ _ => exact ⟨hp.memory, hp.returned⟩

theorem Refuses.holds (h : Refuses p a q) (hC : Hereditary C) (hp : p.Holds C)
    (ha : ∀ v ∈ a.literals, v.Loose C) : q.Holds C := by
  cases h with
  | same => exact hp
  | numbered => exact ⟨hp.memory, hp.returned⟩
  | defaulted h => exact h.holds hC hp ha
  | placed _ h => exact hp.withStack (h _ hp.memory)

/-! ## Calls -/

/-- What each new cell and each name bound to it keep holds wherever the binding of arguments
ends. -/
theorem bindArguments_induction {I : Program → Prop} {id : ScopeId} {args : List (Slot × Value)}
    (hp : I p)
    (hcell : ∀ q, ∀ arg ∈ args, I q → I { q with memory := (q.memory.allocateFrame arg.2 false).2 })
    (hname : ∀ q, ∀ arg ∈ args, ∀ u, I q →
      q.scopes.addLocal id arg.1.name (q.memory.allocateFrame arg.2 false).1 = .ok u →
        I { q with memory := (q.memory.allocateFrame arg.2 false).2, scopes := u }) :
    Ends (bindArguments id args) p (fun _ q => I q) fun _ q => I q := by
  induction args generalizing p with
  | nil => exact hp
  | cons arg args ih =>
    simp only [bindArguments, ends_bind, ends_allocateFrame, ends_get, ends_liftStop,
      ends_setScopes]
    refine ⟨fun u hu => ?_, fun _ _ => hcell p arg List.mem_cons_self hp⟩
    exact ih (hname p arg List.mem_cons_self u hp hu)
      (fun q other hother => hcell q other (List.mem_cons_of_mem _ hother))
      fun q other hother => hname q other (List.mem_cons_of_mem _ hother)

theorem bindArguments_holds {id : ScopeId} {args : List (Slot × Value)} (hp : p.Holds C)
    (hargs : ∀ arg ∈ args, arg.2.Loose C) :
    Ends (bindArguments id args) p (fun _ q => q.Holds C) fun _ q => q.Holds C := by
  have hpushed : ∀ q : Program, ∀ arg ∈ args, q.Holds C →
      (q.memory.allocateFrame arg.2 false).2.read.All (Value.Loose C) :=
    fun q arg harg hq => Memory.all_allocateFrame hq.memory (hargs arg harg) false
  exact bindArguments_induction hp (fun q arg harg hq => ⟨hpushed q arg harg hq, hq.returned⟩)
    fun q arg harg _ hq _ => ⟨hpushed q arg harg hq, hq.returned⟩

theorem leave_holds {cells base : Nat} (hp : p.Holds C) :
    Ends (leave scope cells base) p (fun _ q => q.Holds C) fun _ q => q.Holds C := by
  have hcut := hp.withStack (hp.stack.truncate base)
  simp only [leave, ends_bind, ends_modify, ends_get, ends_liftViolation, ends_setScopes, ends_ite,
    ends_pure]
  refine ⟨fun b _ => ⟨fun _ => ?_, fun _ => ⟨hcut.memory, hcut.returned⟩⟩, fun v _ => hcut⟩
  obtain ⟨harena, hframe, hstack⟩ := Memory.all_read_iff.1 hcut.memory
  exact ⟨Memory.all_read_iff.2 ⟨harena, hframe.truncate cells, hstack⟩, hcut.returned⟩

/-- A default is what the cell of some parameter holds. -/
theorem exists_of_mem_defaultValues {memory : Memory} {missing : Fault} {slots : List Slot}
    {values : List Value} (h : defaultValues memory missing slots = .ok values) {v : Value}
    (hv : v ∈ values) : ∃ slot ∈ slots, memory.read slot.target = some v := by
  induction slots generalizing values with
  | nil =>
    cases h
    cases hv
  | cons slot slots ih =>
    unfold defaultValues at h
    obtain ⟨w, hw, h⟩ := bind_eq_ok_iff.1 h
    split at h
    · cases h
    · obtain ⟨rest, hrest, h⟩ := bind_eq_ok_iff.1 h
      cases h
      rcases List.mem_cons.1 hv with rfl | hv
      · exact ⟨slot, List.mem_cons_self, Memory.fetch_eq_ok_iff.1 hw⟩
      · obtain ⟨other, hmem, hread⟩ := ih hrest hv
        exact ⟨other, List.mem_cons_of_mem _ hmem, hread⟩

/-- Arguments and defaults are what memory holds. -/
theorem argumentValues_loose {m : Method} {arity base : Nat} (hp : p.Holds C) :
    Ends (argumentValues m arity base) p (fun values q => q = p ∧ ∀ v ∈ values, v.Loose C)
      fun _ q => q = p := by
  simp only [argumentValues, ends_bind, ends_get, ends_liftFault, ends_pure]
  refine ⟨fun given hgiven => ⟨fun defaults hdefaults => ⟨trivial, fun v hv => ?_⟩,
    fun f _ => trivial⟩, fun f _ => trivial⟩
  rcases List.mem_append.1 hv with hv | hv
  · exact hp.memory.ownedAll hp.stack.above hgiven v hv
  · obtain ⟨slot, -, hread⟩ := exists_of_mem_defaultValues hdefaults hv
    exact hp.memory _ _ hread

/-- What `openCall` does once its checks have passed. -/
def openChecked (m : Method) (arity : Nat) : Exec Fault Frame := do
  let base ← (← get).memory.stack.base arity
  let values ← argumentValues m arity base
  modify (·.mapStack (·.truncate base))
  let cells := (← get).memory.frame.size
  let scope ← pushCallScope m
  match ← settle (bindArguments scope (m.params.slots.toList.zip values)) with
  | .error cause =>
    leave scope cells base
    fault cause
  | .ok _ =>
    let returned := (← get).returned
    modify fun p => { p with returned := .undefined, callDepth := p.callDepth + 1 }
    return { scope, cells, base, returned }

/-- The checks that come first. -/
theorem ends_openCall {m : Method} {arity : Nat} {done : Frame → Program → Prop}
    {stopped : Stop Fault → Program → Prop} :
    Ends (openCall m arity) p done stopped ↔
      (m.arity < arity → stopped (.fault (.arityMismatch m.name m.arity arity)) p) ∧
      (arity ≤ m.arity →
        (∀ limit, p.mode.maxCallDepth = some limit → limit ≤ p.callDepth →
          stopped (.fault (.recursionLimit limit)) p) ∧
        ((∀ limit, p.mode.maxCallDepth = some limit → p.callDepth < limit) →
          Ends (openChecked m arity) p done stopped)) := by
  unfold openCall
  simp only [ends_bind, ends_ite, ends_fault, ends_get, Nat.not_lt]
  refine and_congr Iff.rfl (imp_congr Iff.rfl ?_)
  cases hmode : p.mode.maxCallDepth with
  | none =>
    refine ⟨fun h => ⟨fun limit hlimit => ?_, fun _ => h⟩, fun h => h.2 fun limit hlimit => ?_⟩
    · cases hlimit
    · cases hlimit
  | some limit =>
    change Ends (get >>= _) p _ _ ↔ _
    rw [ends_bind, ends_get, ends_ite]
    refine ⟨fun h => ⟨fun limit' hlimit hle => ?_, fun hlow => h.2 ?_⟩,
      fun h => ⟨fun hle => ?_, fun hlow => h.2 fun limit' hlimit => ?_⟩⟩
    · cases hlimit
      exact h.1 hle
    · exact Nat.not_le_of_lt (hlow limit rfl)
    · exact h.1 limit rfl hle
    · cases hlimit
      omega

theorem openChecked_holds {m : Method} {arity : Nat} (hC : Hereditary C) (hp : p.Holds C) :
    Ends (openChecked m arity) p (fun frame q => q.Holds C ∧ frame.returned.Loose C)
      fun _ q => q.Holds C := by
  simp only [openChecked, ends_bind, ends_get, ends_liftViolation]
  refine ⟨fun base _ => (argumentValues_loose hp).imp ?_ fun s q hq => hq ▸ hp, fun v _ => hp⟩
  rintro values p ⟨rfl, hvalues⟩
  simp only [ends_modify, pushCallScope, ends_modifyGet, ends_settle]
  have hcut := hp.withStack (hp.stack.truncate base)
  have hpushed : ∀ tree, ({ p.withStack (p.memory.stack.truncate base) with
      scopes := tree } : Program).Holds C := fun tree => ⟨hcut.memory, hcut.returned⟩
  refine (bindArguments_holds (hpushed _) fun arg harg =>
    hvalues arg.2 (List.of_mem_zip harg).2).imp (fun _ r hr => ?_) fun s r hr => ?_
  · simp only [ends_bind, ends_get, ends_modify, ends_pure]
    exact ⟨⟨hr.memory, Or.inr (hC.simple _ rfl)⟩, hr.returned⟩
  · cases s with
    | fault cause =>
      change Ends (_ >>= _) r _ _
      rw [ends_bind]
      exact (leave_holds hr).imp (fun _ _ h => h) fun _ _ h => h
    | breach v => exact hr
    | unending => exact hr

theorem openCall_holds {m : Method} {arity : Nat} (hC : Hereditary C) (hp : p.Holds C) :
    Ends (openCall m arity) p (fun frame q => q.Holds C ∧ frame.returned.Loose C)
      fun _ q => q.Holds C := by
  rw [ends_openCall]
  exact ⟨fun _ => hp, fun _ => ⟨fun _ _ _ => hp, fun _ => openChecked_holds hC hp⟩⟩

theorem closeCall_holds {frame : Frame} {name : Name} {outcome : Except Failure Flow}
    (hC : Hereditary C) (hp : p.Holds C) (hframe : frame.returned.Loose C) :
    Ends (closeCall frame name outcome) p (fun _ q => q.Holds C) fun _ q => q.Holds C := by
  simp only [closeCall, ends_bind, ends_get, ends_modify]
  have hback : ({ p with returned := frame.returned, callDepth := p.callDepth - 1 } :
      Program).Holds C := ⟨hp.memory, hframe⟩
  refine (leave_holds hback).imp (fun _ q hq => ?_) fun _ _ h => h
  cases outcome with
  | error failure => exact hq
  | ok flow =>
    refine hq.withStack (hq.stack.push ?_)
    unfold callResult
    split
    · exact Or.inr (hC.simple _ rfl)
    · exact hp.returned

end Exec

end ActionMachine
