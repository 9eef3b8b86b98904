import ActionMachine.Native.Catalogue
import ActionMachine.Proofs.Ends

/-
  The methods inside values. `EachMethod P v` says that every method in `v`, at any depth of lists
  and objects, satisfies `P`. Walking references, operators, members and the reading of arguments
  hand over no method that was not there before. A literal is free of methods if it holds none at
  any depth; an action is if all its literals are, also those of the bodies inside it.
-/

namespace ActionMachine

/-! ## Methods of a value -/

mutual

/-- Every method inside the value satisfies `P`. -/
def Value.EachMethod (P : Method → Prop) : Value → Prop
  | .method m => P m
  | .list items => Value.EachMethodOfItems P items
  | .object ⟨_, _, _, members, _⟩ => Value.EachMethodOfMembers P members
  | _ => True

def Value.EachMethodOfItems (P : Method → Prop) : List Value → Prop
  | [] => True
  | item :: items => item.EachMethod P ∧ Value.EachMethodOfItems P items

def Value.EachMethodOfMembers (P : Method → Prop) : List Member → Prop
  | [] => True
  | ⟨_, value⟩ :: members => value.EachMethod P ∧ Value.EachMethodOfMembers P members

end

mutual

def Value.methodFree : Value → Bool
  | .method _ => false
  | .list items => Value.itemsMethodFree items
  | .object ⟨_, _, _, members, _⟩ => Value.membersMethodFree members
  | _ => true

def Value.itemsMethodFree : List Value → Bool
  | [] => true
  | item :: items => item.methodFree && Value.itemsMethodFree items

def Value.membersMethodFree : List Member → Bool
  | [] => true
  | ⟨_, value⟩ :: members => value.methodFree && Value.membersMethodFree members

end

namespace Value

variable {P Q : Method → Prop}

theorem eachMethodOfItems_iff {items : List Value} :
    EachMethodOfItems P items ↔ ∀ item ∈ items, item.EachMethod P := by
  induction items with
  | nil => simp [EachMethodOfItems]
  | cons item items ih => simp [EachMethodOfItems, ih]

theorem eachMethodOfMembers_iff {members : List Member} :
    EachMethodOfMembers P members ↔ ∀ member ∈ members, member.value.EachMethod P := by
  induction members with
  | nil => simp [EachMethodOfMembers]
  | cons member members ih =>
    cases member
    simp [EachMethodOfMembers, ih]

theorem eachMethod_list {items : List Value} :
    (list items).EachMethod P ↔ ∀ item ∈ items, item.EachMethod P := by
  rw [EachMethod, eachMethodOfItems_iff]

theorem eachMethod_object {o : Object} :
    (object o).EachMethod P ↔ ∀ member ∈ o.members, member.value.EachMethod P := by
  cases o
  rw [EachMethod, eachMethodOfMembers_iff]

mutual

theorem EachMethod.mono (h : ∀ m, P m → Q m) : (v : Value) → v.EachMethod P → v.EachMethod Q
  | .method m, hv => h m hv
  | .list items, hv => eachMethodOfItems_mono h items hv
  | .object ⟨_, _, _, members, _⟩, hv => eachMethodOfMembers_mono h members hv
  | .int _, _ | .uint _, _ | .float _, _ | .bool _, _ | .char _, _ | .byte _, _ | .view _, _
  | .none, _ | .undefined, _ | .reference _, _ | .str _, _ | .scope _, _ | .native _, _ => trivial

theorem eachMethodOfItems_mono (h : ∀ m, P m → Q m) :
    (items : List Value) → EachMethodOfItems P items → EachMethodOfItems Q items
  | [], _ => trivial
  | item :: items, hv => ⟨EachMethod.mono h item hv.1, eachMethodOfItems_mono h items hv.2⟩

theorem eachMethodOfMembers_mono (h : ∀ m, P m → Q m) :
    (members : List Member) → EachMethodOfMembers P members → EachMethodOfMembers Q members
  | [], _ => trivial
  | ⟨_, value⟩ :: members, hv =>
    ⟨EachMethod.mono h value hv.1, eachMethodOfMembers_mono h members hv.2⟩

end

mutual

theorem eachMethod_of_methodFree : (v : Value) → v.methodFree = true → v.EachMethod P
  | .method _, h => by cases h
  | .list items, h => eachMethodOfItems_of_methodFree items h
  | .object ⟨_, _, _, members, _⟩, h => eachMethodOfMembers_of_methodFree members h
  | .int _, _ | .uint _, _ | .float _, _ | .bool _, _ | .char _, _ | .byte _, _ | .view _, _
  | .none, _ | .undefined, _ | .reference _, _ | .str _, _ | .scope _, _ | .native _, _ => trivial

theorem eachMethodOfItems_of_methodFree :
    (items : List Value) → itemsMethodFree items = true → EachMethodOfItems P items
  | [], _ => trivial
  | item :: items, h =>
    have h := Bool.and_eq_true_iff.1 h
    ⟨eachMethod_of_methodFree item h.1, eachMethodOfItems_of_methodFree items h.2⟩

theorem eachMethodOfMembers_of_methodFree :
    (members : List Member) → membersMethodFree members = true → EachMethodOfMembers P members
  | [], _ => trivial
  | ⟨_, value⟩ :: members, h =>
    have h := Bool.and_eq_true_iff.1 h
    ⟨eachMethod_of_methodFree value h.1, eachMethodOfMembers_of_methodFree members h.2⟩

end

end Value

/-! ## Walks and operators -/

def Value.isReference : Value → Bool
  | .reference _ => true
  | _ => false

namespace Reader

variable {P : Method → Prop} {K : Value → Prop} {read : Reader}

/-- Every value that the reader can reach satisfies `K`. -/
def All (K : Value → Prop) (read : Reader) : Prop :=
  ∀ target value, read target = some value → K value

theorem All.followWithin (h : read.All K) {hops : Nat} {v w : Value} (hv : K v)
    (hw : read.followWithin hops v = .ok w) : K w := by
  induction hops generalizing v with
  | zero => cases hw
  | succ hops ih =>
    unfold Reader.followWithin at hw
    split at hw
    · split at hw
      · exact ih (h _ _ ‹_›) hw
      · cases hw
    · cases hw
    · cases hw; exact hv

theorem All.follow (h : read.All K) {v w : Value} (hv : K v) (hw : read.follow v = .ok w) : K w :=
  h.followWithin hv hw

/-- Every method that the reader can reach satisfies `P`. -/
def EachMethod (P : Method → Prop) (read : Reader) : Prop :=
  ∀ target value, read target = some value → value.EachMethod P

theorem owned_eq_ok {op : String} {v w : Value} (h : read.owned op v = .ok w) :
    read.follow v = .ok w ∧ w.isUndefined = false := by
  obtain ⟨u, hu, h⟩ := bind_eq_ok_iff.1 h
  split at h
  · cases h
  · cases h
    exact ⟨hu, eq_false_of_ne_true ‹_›⟩

/-- A walk ends at a value that is no reference. -/
theorem isReference_follow {v w : Value} (h : read.follow v = .ok w) :
    w.isReference = false := by
  have hwithin : ∀ hops v, read.followWithin hops v = .ok w → w.isReference = false := by
    intro hops
    induction hops with
    | zero => exact fun v h => by cases h
    | succ hops ih =>
      intro v h
      unfold Reader.followWithin at h
      split at h
      · split at h
        · exact ih _ h
        · cases h
      · cases h
      · rename_i hsome hnone
        cases h
        cases w with
        | reference target =>
          cases target with
          | none => exact absurd rfl hnone
          | some target => exact absurd rfl (hsome target)
        | _ => rfl
  exact hwithin _ v h

theorem followWithin_of_plain {v : Value} (h : v.isReference = false) (hops : Nat) :
    read.followWithin (hops + 1) v = .ok v := by
  cases v with
  | reference => cases h
  | _ => rfl

/-- What is no reference leads to itself. -/
theorem follow_of_plain {v : Value} (h : v.isReference = false) : read.follow v = .ok v :=
  followWithin_of_plain h 65535

theorem isReference_owned {op : String} {v w : Value}
    (h : read.owned op v = .ok w) : w.isReference = false :=
  isReference_follow (owned_eq_ok h).1

theorem All.owned (h : read.All K) {op : String} {v w : Value} (hv : K v)
    (hw : read.owned op v = .ok w) : K w := h.follow hv (owned_eq_ok hw).1

theorem All.ownedAll (h : read.All K) {op : String} {vs ws : List Value} (hv : ∀ v ∈ vs, K v)
    (hw : read.ownedAll op vs = .ok ws) : ∀ w ∈ ws, K w := by
  intro w hmem
  obtain ⟨v, hvmem, hvw⟩ := exists_of_mem_mapM hw hmem
  exact h.owned (hv v hvmem) hvw

theorem EachMethod.owned (h : read.EachMethod P) {op : String} {v w : Value}
    (hv : v.EachMethod P) (hw : read.owned op v = .ok w) : w.EachMethod P := All.owned h hv hw

end Reader

/-- Neither a list, nor an object, nor a method, nor a reference. -/
def Value.isSimple : Value → Bool
  | .list _ | .object _ | .method _ | .reference _ => false
  | _ => true

theorem Value.eachMethod_of_isSimple {P : Method → Prop} {v : Value} (h : v.isSimple = true) :
    v.EachMethod P := by
  cases v with
  | list => cases h
  | object => cases h
  | method => cases h
  | reference => cases h
  | _ => simp [Value.EachMethod]

/-- The result of an operator on plain operands is a number or a truth value. -/
theorem BinaryOp.isSimple_onValues {op : BinaryOp} {a b v : Value} (h : op.onValues a b = .ok v) :
    v.isSimple = true := by
  unfold onValues at h
  split at h
  case h_6 => cases h
  case h_4 =>
    obtain ⟨n, -, h⟩ := bind_eq_ok_iff.1 h
    cases h
    rfl
  all_goals
    obtain ⟨n, -, h⟩ := bind_eq_ok_iff.1 h
    obtain ⟨r, -, h⟩ := bind_eq_ok_iff.1 h
    cases h
    rfl

/-- An operator gives what one of its operands leads to, or a simple value. -/
theorem BinaryOp.evaluate_cases {op : BinaryOp} {read : Reader} {a b v : Value}
    (h : op.evaluate read a b = .ok v) :
    read.follow a = .ok v ∨ read.follow b = .ok v ∨ v.isSimple = true := by
  obtain ⟨l, hl, h⟩ := bind_eq_ok_iff.1 h
  obtain ⟨r, hr, h⟩ := bind_eq_ok_iff.1 h
  split at h
  · cases h
  · split at h
    · cases h
      exact Or.inr (Or.inl hr)
    · cases h
      exact Or.inl hl
    · exact Or.inr (Or.inr (isSimple_onValues h))

theorem UnaryOp.isSimple_evaluate {op : UnaryOp} {read : Reader} {a v : Value}
    (h : op.evaluate read a = .ok v) : v.isSimple = true := by
  obtain ⟨u, -, h⟩ := bind_eq_ok_iff.1 h
  split at h <;> cases h <;> rfl

/-! ## Literals of an action -/

def Parameter.methodFree (param : Parameter) : Bool :=
  match param.default with
  | some value => value.methodFree
  | none => true

mutual

/-- No literal of the action, or of the bodies inside it, holds a method. -/
def Action.methodFree : Action → Bool
  | .declareConstant _ value | .pushLiteral value | .assignLocal _ (.literal value)
  | .addStaticMember _ _ value | .addInstanceMember _ _ value => value.methodFree
  | .defineNamespace _ body | .defineClass _ body => Action.allMethodFree body
  | .defineMethod _ params body => params.all Parameter.methodFree && Action.allMethodFree body
  | _ => true

def Action.allMethodFree : List Action → Bool
  | [] => true
  | action :: actions => action.methodFree && Action.allMethodFree actions

end

/-! ## Native functions -/

/-- The host hands over no method but those that its functions can read. -/
def Host.MakesNoMethod (host : Host) : Prop :=
  ∀ (P : Method → Prop) (entry : String) (args : Arguments),
    args.read.EachMethod P → (host entry args).EachMethod P

namespace Native

variable {C : Value → Prop} {args : Arguments}

theorem getD_of_read (hnone : C .none) (hread : args.read.All C) {o : Option Value}
    (h : ∀ v, o = some v → ∃ target, args.read target = some v) : C (o.getD .none) := by
  cases o with
  | none => exact hnone
  | some v =>
    obtain ⟨target, hv⟩ := h v rfl
    exact hread target v hv

theorem exists_read_of_at? {position : Nat} {v : Value} (h : args.at? position = some v) :
    ∃ target, args.read target = some v := by
  obtain ⟨slot, -, hread⟩ := Option.bind_eq_some_iff.1 h
  exact ⟨_, hread⟩

theorem exists_read_of_mem_toList {v : Value} (h : v ∈ args.toList) :
    ∃ target, args.read target = some v := by
  obtain ⟨position, -, hat⟩ := List.mem_filterMap.1 h
  exact exists_read_of_at? hat

/-- A function of the catalogue gives back something simple, a reference, one of its arguments, the
list of them or a list of texts. -/
theorem catalogue_of_parts (hsimple : ∀ v : Value, v.isSimple = true → C v)
    (hreference : ∀ target, C (.reference target))
    (htexts : ∀ texts : List Value, (∀ v ∈ texts, v.isSimple = true) → C (.list texts))
    (hread : args.read.All C) (hlist : C (.list args.toList)) (entry : String) :
    C (catalogue entry args) := by
  have hnone : C .none := hsimple _ rfl
  unfold catalogue
  split
  case h_2 | h_16 => exact hreference _
  case h_4 =>
    unfold sum
    split <;> exact hsimple _ rfl
  case h_7 | h_8 => exact getD_of_read hnone hread fun v hv => exists_read_of_at? hv
  case h_9 =>
    refine getD_of_read hnone hread fun v hv => ?_
    obtain ⟨slot, -, hslot⟩ := Option.bind_eq_some_iff.1 hv
    exact ⟨_, hslot⟩
  case h_10 => exact hlist
  case h_11 | h_13 =>
    refine htexts _ fun v hv => ?_
    obtain ⟨_, -, rfl⟩ := List.mem_map.1 hv
    rfl
  case h_12 =>
    unfold firstDisplay
    split <;> exact hsimple _ rfl
  case h_14 =>
    refine getD_of_read hnone hread fun v hv => ?_
    split at hv <;> exact exists_read_of_at? hv
  case h_15 =>
    unfold firstReference
    split
    · exact hreference _
    · exact hnone
  all_goals exact hsimple _ rfl

/-- What lists have from their items, the results have from what can be read. -/
theorem catalogue_of_items (hsimple : ∀ v : Value, v.isSimple = true → C v)
    (hreference : ∀ target, C (.reference target))
    (hlist : ∀ items, (∀ item ∈ items, C item) → C (.list items)) (hread : args.read.All C)
    (entry : String) : C (catalogue entry args) := by
  refine catalogue_of_parts hsimple hreference
    (fun texts h => hlist texts fun v hv => hsimple v (h v hv)) hread
    (hlist _ fun v hv => ?_) entry
  obtain ⟨target, hv⟩ := exists_read_of_mem_toList hv
  exact hread target v hv

/-- No function of the catalogue makes a method of its own. -/
theorem catalogue_makesNoMethod : Host.MakesNoMethod catalogue := fun _ entry _ hread =>
  catalogue_of_items (fun _ => Value.eachMethod_of_isSimple) (fun _ => trivial)
    (fun _ => Value.eachMethod_list.2) hread entry

end Native

end ActionMachine
