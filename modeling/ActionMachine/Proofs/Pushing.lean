import ActionMachine.Proofs.Dispatch
import ActionMachine.Proofs.Memory
import ActionMachine.Proofs.Rendering
import ActionMachine.Proofs.Walks
import ActionMachine.Value.Action

/-
  The pushing form of an action has each operator that works in place, also in the bodies inside it
  and in the methods of its literals, written as the operator that pushes its result. Values have a
  pushing form too, which differs from them in the bodies of their methods only. A memory may be
  mapped through its values; walks, operators, members and texts see nothing of the bodies, so each
  of them gives the pushing form of its result on the pushing form of what it is given.
-/

namespace ActionMachine

/-! ## Pushing forms -/

mutual

/-- The value with the bodies of its methods in pushing form. -/
def Value.pushing : Value → Value
  | .list items => .list (Value.pushingItems items)
  | .object object => .object object.pushing
  | .method method => .method method.pushing
  | value => value

def Value.pushingItems : List Value → List Value
  | [] => []
  | item :: items => item.pushing :: Value.pushingItems items

def Member.pushing : Member → Member
  | ⟨name, value⟩ => ⟨name, value.pushing⟩

def Object.pushing : Object → Object
  | ⟨classScope, className, typeId, members, index⟩ =>
    ⟨classScope, className, typeId, Object.pushingMembers members, index⟩

def Object.pushingMembers : List Member → List Member
  | [] => []
  | member :: members => member.pushing :: Object.pushingMembers members

def Method.pushing : Method → Method
  | ⟨name, params, scope, body⟩ => ⟨name, params, scope, Action.allPushing body⟩

def Operand.pushing : Operand → Operand
  | .pop => .pop
  | .literal value => .literal value.pushing

def Parameter.pushingDefault : Option Value → Option Value
  | none => none
  | some value => some value.pushing

def Parameter.allPushing : List Parameter → List Parameter
  | [] => []
  | ⟨name, default⟩ :: params =>
    ⟨name, Parameter.pushingDefault default⟩ :: Parameter.allPushing params

/-- The action with operators that push where they work in place. -/
def Action.pushing : Action → Action
  | .binaryInPlace op => .binary op
  | .declareConstant name value => .declareConstant name value.pushing
  | .assignLocal name source => .assignLocal name source.pushing
  | .pushLiteral value => .pushLiteral value.pushing
  | .defineNamespace name body => .defineNamespace name (Action.allPushing body)
  | .defineClass name body => .defineClass name (Action.allPushing body)
  | .addStaticMember owner name value => .addStaticMember owner name value.pushing
  | .addInstanceMember owner name value => .addInstanceMember owner name value.pushing
  | .defineMethod name params body =>
    .defineMethod name (Parameter.allPushing params) (Action.allPushing body)
  | action => action

def Action.allPushing : List Action → List Action
  | [] => []
  | action :: actions => action.pushing :: Action.allPushing actions

end

mutual

/-- Nothing in a pushing form is left to change. -/
theorem Value.pushing_pushing : (v : Value) → v.pushing.pushing = v.pushing
  | .list items => congrArg Value.list (Value.pushingItems_pushingItems items)
  | .object o => congrArg Value.object (Object.pushing_pushing o)
  | .method m => congrArg Value.method (Method.pushing_pushing m)
  | .int _ | .uint _ | .float _ | .bool _ | .char _ | .byte _ | .view _ | .none | .undefined
  | .reference _ | .str _ | .scope _ | .native _ => rfl

theorem Value.pushingItems_pushingItems : (items : List Value) →
    Value.pushingItems (Value.pushingItems items) = Value.pushingItems items
  | [] => rfl
  | item :: items => by
    simp only [Value.pushingItems, Value.pushing_pushing item,
      Value.pushingItems_pushingItems items]

theorem Object.pushing_pushing : (o : Object) → o.pushing.pushing = o.pushing
  | ⟨_, _, _, members, _⟩ => by
    simp only [Object.pushing, Object.pushingMembers_pushingMembers members]

theorem Object.pushingMembers_pushingMembers : (members : List Member) →
    Object.pushingMembers (Object.pushingMembers members) = Object.pushingMembers members
  | [] => rfl
  | ⟨_, value⟩ :: members => by
    simp only [Object.pushingMembers, Member.pushing, Value.pushing_pushing value,
      Object.pushingMembers_pushingMembers members]

theorem Method.pushing_pushing : (m : Method) → m.pushing.pushing = m.pushing
  | ⟨_, _, _, body⟩ => by simp only [Method.pushing, Action.allPushing_allPushing body]

theorem Operand.pushing_pushing : (source : Operand) → source.pushing.pushing = source.pushing
  | .pop => rfl
  | .literal value => congrArg Operand.literal (Value.pushing_pushing value)

theorem Parameter.pushingDefault_pushingDefault : (default : Option Value) →
    Parameter.pushingDefault (Parameter.pushingDefault default) = Parameter.pushingDefault default
  | none => rfl
  | some value => congrArg some (Value.pushing_pushing value)

theorem Parameter.allPushing_allPushing : (params : List Parameter) →
    Parameter.allPushing (Parameter.allPushing params) = Parameter.allPushing params
  | [] => rfl
  | ⟨_, default⟩ :: params => by
    simp only [Parameter.allPushing, Parameter.pushingDefault_pushingDefault default,
      Parameter.allPushing_allPushing params]

theorem Action.pushing_pushing : (a : Action) → a.pushing.pushing = a.pushing
  | .declareConstant name value =>
    congrArg (Action.declareConstant name) (Value.pushing_pushing value)
  | .assignLocal name source => congrArg (Action.assignLocal name) (Operand.pushing_pushing source)
  | .pushLiteral value => congrArg Action.pushLiteral (Value.pushing_pushing value)
  | .defineNamespace name body =>
    congrArg (Action.defineNamespace name) (Action.allPushing_allPushing body)
  | .defineClass name body => congrArg (Action.defineClass name) (Action.allPushing_allPushing body)
  | .addStaticMember owner name value =>
    congrArg (Action.addStaticMember owner name) (Value.pushing_pushing value)
  | .addInstanceMember owner name value =>
    congrArg (Action.addInstanceMember owner name) (Value.pushing_pushing value)
  | .defineMethod name params body => by
    simp only [Action.pushing, Parameter.allPushing_allPushing params,
      Action.allPushing_allPushing body]
  | .declareLocal _ | .resolveLocal _ | .resolveQualified _ _ | .pop | .duplicate _ | .swap _
  | .buildList _ | .unary _ | .binary _ | .binaryInPlace _ | .constructInstance _
  | .loadMember _ _ | .assignMember _ _ | .call _ _ | .ret | .debugPrint _ => rfl

theorem Action.allPushing_allPushing : (actions : List Action) →
    Action.allPushing (Action.allPushing actions) = Action.allPushing actions
  | [] => rfl
  | action :: actions => by
    simp only [Action.allPushing, Action.pushing_pushing action,
      Action.allPushing_allPushing actions]

end

theorem Object.pushingMembers_eq (members : List Member) :
    pushingMembers members = members.map Member.pushing := by
  induction members with
  | nil => rfl
  | cons member members ih => rw [pushingMembers, ih, List.map_cons]

theorem Object.members_pushing (o : Object) : o.pushing.members = o.members.map Member.pushing := by
  cases o
  exact pushingMembers_eq _

theorem Object.index_pushing (o : Object) : o.pushing.index = o.index := by
  cases o
  rfl

namespace Value

theorem pushingItems_eq (items : List Value) : pushingItems items = items.map pushing := by
  induction items with
  | nil => rfl
  | cons item items ih => rw [pushingItems, ih, List.map_cons]

theorem pushing_list (items : List Value) : (list items).pushing = list (items.map pushing) := by
  rw [pushing, pushingItems_eq]

mutual

theorem methodFree_pushing : (v : Value) → v.pushing.methodFree = v.methodFree
  | .list items => itemsMethodFree_pushing items
  | .object ⟨_, _, _, members, _⟩ => membersMethodFree_pushing members
  | .method _ | .int _ | .uint _ | .float _ | .bool _ | .char _ | .byte _ | .view _ | .none
  | .undefined | .reference _ | .str _ | .scope _ | .native _ => rfl

theorem itemsMethodFree_pushing : (items : List Value) →
    itemsMethodFree (pushingItems items) = itemsMethodFree items
  | [] => rfl
  | item :: items => by
    rw [pushingItems, itemsMethodFree, itemsMethodFree, methodFree_pushing item,
      itemsMethodFree_pushing items]

theorem membersMethodFree_pushing : (members : List Member) →
    membersMethodFree (Object.pushingMembers members) = membersMethodFree members
  | [] => rfl
  | ⟨_, value⟩ :: members => by
    rw [Object.pushingMembers, Member.pushing, membersMethodFree, membersMethodFree,
      methodFree_pushing value, membersMethodFree_pushing members]

end

mutual

theorem pushing_of_methodFree : (v : Value) → v.methodFree = true → v.pushing = v
  | .method _, h => by cases h
  | .list items, h => congrArg list (pushingItems_of_methodFree items h)
  | .object ⟨_, _, _, members, _⟩, h => by
    rw [pushing, Object.pushing, pushingMembers_of_methodFree members h]
  | .int _, _ | .uint _, _ | .float _, _ | .bool _, _ | .char _, _ | .byte _, _ | .view _, _
  | .none, _ | .undefined, _ | .reference _, _ | .str _, _ | .scope _, _ | .native _, _ => rfl

theorem pushingItems_of_methodFree :
    (items : List Value) → itemsMethodFree items = true → pushingItems items = items
  | [], _ => rfl
  | item :: items, h => by
    have h := Bool.and_eq_true_iff.1 h
    rw [pushingItems, pushing_of_methodFree item h.1, pushingItems_of_methodFree items h.2]

theorem pushingMembers_of_methodFree : (members : List Member) →
    membersMethodFree members = true → Object.pushingMembers members = members
  | [], _ => rfl
  | ⟨_, value⟩ :: members, h => by
    have h := Bool.and_eq_true_iff.1 h
    rw [Object.pushingMembers, Member.pushing, pushing_of_methodFree value h.1,
      pushingMembers_of_methodFree members h.2]

end

/-- Without methods, values of one pushing form are the same. -/
theorem eq_of_pushing_eq {v w : Value} (h : v.pushing = w.pushing) (hv : v.methodFree = true) :
    v = w := by
  have hw : w.methodFree = true := by rw [← methodFree_pushing, ← h, methodFree_pushing, hv]
  rw [← pushing_of_methodFree v hv, h, pushing_of_methodFree w hw]

@[simp] theorem kind_pushing (v : Value) : v.pushing.kind = v.kind := by
  cases v <;> rfl

@[simp] theorem isUndefined_pushing (v : Value) : v.pushing.isUndefined = v.isUndefined := by
  cases v <;> rfl

@[simp] theorem isReference_pushing (v : Value) : v.pushing.isReference = v.isReference := by
  cases v <;> rfl

@[simp] theorem asInt64_pushing (v : Value) : v.pushing.asInt64 = v.asInt64 := by
  cases v <;> rfl

@[simp] theorem asUInt64_pushing (v : Value) : v.pushing.asUInt64 = v.asUInt64 := by
  cases v <;> rfl

@[simp] theorem asUInt8_pushing (v : Value) : v.pushing.asUInt8 = v.asUInt8 := by
  rw [asUInt8, asUInt8, asUInt64_pushing]

@[simp] theorem asFloat_pushing (v : Value) : v.pushing.asFloat = v.asFloat := by
  cases v <;> rfl

@[simp] theorem isZeroAs_pushing (v : Value) (kind : ValueKind) :
    v.pushing.isZeroAs kind = v.isZeroAs kind := by
  cases kind <;> simp [isZeroAs]

theorem negated_pushing (v : Value) : v.pushing.negated = v.negated.pushing := by
  cases v <;> rfl

theorem object?_pushing (v : Value) : v.pushing.object? = v.object?.map Object.pushing := by
  cases v <;> rfl

end Value

/-! ## Walks -/

/-- What is read in pushing form. -/
def Reader.pushing (read : Reader) : Reader := fun target => (read target).map Value.pushing

namespace Reader

theorem pushing_pushing (read : Reader) : read.pushing.pushing = read.pushing := by
  funext target
  simp only [pushing, Option.map_map, Function.comp_def, Value.pushing_pushing]

theorem followWithin_pushing (read : Reader) (hops : Nat) (v : Value) :
    read.pushing.followWithin hops v.pushing = (read.followWithin hops v).map Value.pushing := by
  induction hops generalizing v with
  | zero => rfl
  | succ hops ih =>
    cases hplain : v.isReference with
    | false =>
      have hplain' : v.pushing.isReference = false := v.isReference_pushing.trans hplain
      rw [followWithin_of_plain hplain, followWithin_of_plain hplain']
      rfl
    | true =>
      cases v with
      | reference target =>
        cases target with
        | none => rfl
        | some target =>
          show read.pushing.followWithin (hops + 1) (.reference (some target)) = _
          cases hread : read target with
          | none =>
            have hread' : read.pushing target = none := congrArg (Option.map Value.pushing) hread
            rw [followWithin_dangling hread, followWithin_dangling hread']
            rfl
          | some next =>
            have hread' : read.pushing target = some next.pushing :=
              congrArg (Option.map Value.pushing) hread
            rw [followWithin_reference hread, followWithin_reference hread', ih]
      | _ => cases hplain

theorem follow_pushing (read : Reader) (v : Value) :
    read.pushing.follow v.pushing = (read.follow v).map Value.pushing :=
  followWithin_pushing read maxHops v

theorem resolveWithin_pushing (read : Reader) (hops : Nat) (target : CellRef) :
    read.pushing.resolveWithin hops target = read.resolveWithin hops target := by
  induction hops generalizing target with
  | zero => rfl
  | succ hops ih =>
    simp only [resolveWithin, pushing]
    cases read target with
    | none => rfl
    | some v =>
      cases v with
      | reference next =>
        cases next with
        | none => rfl
        | some next => exact ih next
      | _ => rfl

theorem resolve_pushing (read : Reader) (target : CellRef) :
    read.pushing.resolve target = read.resolve target :=
  resolveWithin_pushing read maxHops target

theorem owned_pushing (read : Reader) (op : String) (v : Value) :
    read.pushing.owned op v.pushing = (read.owned op v).map Value.pushing := by
  unfold owned
  rw [follow_pushing]
  cases read.follow v with
  | error cause => rfl
  | ok w =>
    show (if w.pushing.isUndefined then _ else _) = Except.map _ (if w.isUndefined then _ else _)
    rw [Value.isUndefined_pushing]
    split <;> rfl

theorem ownedAll_pushing (read : Reader) (op : String) (vs : List Value) :
    read.pushing.ownedAll op (vs.map Value.pushing) =
      (read.ownedAll op vs).map (List.map Value.pushing) := by
  unfold ownedAll
  induction vs with
  | nil => rfl
  | cons v vs ih =>
    rw [List.map_cons, List.mapM_cons, List.mapM_cons, owned_pushing, ih]
    cases read.owned op v with
    | error cause => rfl
    | ok w => cases vs.mapM (read.owned op) <;> rfl

end Reader

/-! ## Operators -/

theorem BinaryOp.combine_pushing (op : BinaryOp) (left right : Value) :
    op.combine left.pushing right.pushing = (op.combine left right).pushing := by
  cases left <;>
    simp only [combine, Value.pushing, Value.asInt64_pushing, Value.asUInt64_pushing,
      Value.asUInt8_pushing, Value.asFloat_pushing]

theorem BinaryOp.evaluate_pushing (op : BinaryOp) (read : Reader) (left right : Value) :
    op.evaluate read.pushing left.pushing right.pushing =
      (op.evaluate read left right).map Value.pushing := by
  have hdecided : ∀ l r : Value,
      op.decided l.pushing r.pushing = (op.decided l r).map Value.pushing := by
    intro l r
    simp only [decided, Value.isUndefined_pushing, Value.kind_pushing, Value.isZeroAs_pushing,
      combine_pushing]
    repeat' split
    all_goals rfl
  rw [evaluate_eq, evaluate_eq, Reader.follow_pushing, Reader.follow_pushing]
  cases read.follow left with
  | error cause => rfl
  | ok l =>
    cases read.follow right with
    | error cause => rfl
    | ok r => exact hdecided l r

theorem UnaryOp.evaluate_pushing (op : UnaryOp) (read : Reader) (v : Value) :
    op.evaluate read.pushing v.pushing = (op.evaluate read v).map Value.pushing := by
  have hdecided : ∀ w : Value, op.decided w.pushing = (op.decided w).map Value.pushing := by
    intro w
    simp only [decided, Value.isUndefined_pushing, Value.kind_pushing, Value.negated_pushing]
    repeat' split
    all_goals rfl
  rw [evaluate_eq, evaluate_eq, Reader.follow_pushing]
  cases read.follow v with
  | error cause => rfl
  | ok w => exact hdecided w

/-! ## Objects -/

namespace Object

theorem member?_pushing (o : Object) (name : Name) :
    o.pushing.member? name = (o.member? name).map Value.pushing := by
  simp only [member?, index_pushing, members_pushing, List.getElem?_map]
  cases o.index[name]? with
  | none => rfl
  | some position =>
    show Option.bind (Option.map _ o.members[position]?) _ =
      Option.map _ (Option.bind o.members[position]? _)
    cases o.members[position]? with
    | none => rfl
    | some member => cases member; rfl

theorem setMember?_pushing (o : Object) (name : Name) (v : Value) :
    o.pushing.setMember? name v.pushing = (o.setMember? name v).map pushing := by
  simp only [setMember?, index_pushing, members_pushing, List.getElem?_map]
  cases o.index[name]? with
  | none => rfl
  | some position =>
    show Option.bind (Option.map _ o.members[position]?) _ =
      Option.map _ (Option.bind o.members[position]? _)
    cases o.members[position]? with
    | none => rfl
    | some member =>
      cases o
      cases member
      simp only [Option.map_some, Option.bind_some, pure, pushing, pushingMembers_eq, List.map_set,
        Member.pushing]

/-- The index tells names, which stay. -/
theorem indexOf_pushing (members : List Member) :
    indexOf (members.map Member.pushing) = indexOf members := by
  unfold indexOf
  rw [List.zipIdx_map, List.foldl_map]
  congr 1
  funext index entry
  obtain ⟨⟨name, value⟩, position⟩ := entry
  rfl

theorem ofMembers_pushing (classScope : ScopeId) (className : Name) (typeId : TypeId)
    (members : List Member) :
    ofMembers classScope className typeId (members.map Member.pushing) =
      (ofMembers classScope className typeId members).pushing := by
  unfold ofMembers
  rw [indexOf_pushing, pushing, pushingMembers_eq]

end Object

/-! ## Texts -/

mutual

theorem Value.display_pushing : (v : Value) → v.pushing.display = v.display
  | .list items => congrArg bracketed (Value.displayItems_pushing items)
  | .object ⟨_, className, _, members, _⟩ =>
    congrArg (braced className) (Object.displayMembers_pushing members)
  | .method ⟨_, _, _, _⟩ => rfl
  | .int _ | .uint _ | .float _ | .bool _ | .char _ | .byte _ | .view _ | .none | .undefined
  | .reference _ | .str _ | .scope _ | .native _ => rfl

theorem Value.displayItems_pushing : (items : List Value) →
    Value.displayItems (Value.pushingItems items) = Value.displayItems items
  | [] => rfl
  | item :: items => by
    rw [Value.pushingItems, Value.displayItems, Value.displayItems, Value.display_pushing item,
      Value.displayItems_pushing items]

theorem Object.displayMembers_pushing : (members : List Member) →
    Object.displayMembers (Object.pushingMembers members) = Object.displayMembers members
  | [] => rfl
  | ⟨_, value⟩ :: members => by
    rw [Object.pushingMembers, Member.pushing, Object.displayMembers, Object.displayMembers,
      Value.display_pushing value, Object.displayMembers_pushing members]

end

namespace Value

variable {read : Reader} {opened opened' : Value → Option String}

mutual

theorem renderWith_pushing (h : ∀ w : Value, opened' w.pushing = opened w) :
    (v : Value) → renderWith read.pushing opened' v.pushing = renderWith read opened v
  | .reference target => by
    have hfollow : read.pushing.follow (reference target) =
        (read.follow (reference target)).map pushing :=
      read.follow_pushing (reference target)
    show renderWith read.pushing opened' (reference target) = _
    rw [renderWith, renderWith, hfollow]
    cases read.follow (reference target) with
    | error cause => rfl
    | ok w => exact h w
  | .list items => congrArg (Option.map bracketed) (renderItems_pushing h items)
  | .object ⟨_, className, _, members, _⟩ =>
    congrArg (Option.map (braced className)) (renderMembers_pushing h members)
  | .method ⟨_, _, _, _⟩ => rfl
  | .int _ | .uint _ | .float _ | .bool _ | .char _ | .byte _ | .view _ | .none | .undefined
  | .str _ | .scope _ | .native _ => rfl

theorem renderItems_pushing (h : ∀ w : Value, opened' w.pushing = opened w) :
    (items : List Value) →
      renderItems read.pushing opened' (pushingItems items) = renderItems read opened items
  | [] => rfl
  | item :: items => by
    rw [pushingItems, renderItems, renderItems, renderWith_pushing h item,
      renderItems_pushing h items]

theorem renderMembers_pushing (h : ∀ w : Value, opened' w.pushing = opened w) :
    (members : List Member) →
      renderMembers read.pushing opened' (Object.pushingMembers members) =
        renderMembers read opened members
  | [] => rfl
  | ⟨_, value⟩ :: members => by
    rw [Object.pushingMembers, Member.pushing, renderMembers, renderMembers,
      renderWith_pushing h value, renderMembers_pushing h members]

end

theorem render?_pushing (read : Reader) (depth : Nat) (v : Value) :
    render? read.pushing depth v.pushing = render? read depth v := by
  rw [render?_eq_renderWith, render?_eq_renderWith]
  induction depth generalizing v with
  | zero => exact renderWith_pushing (fun _ => rfl) v
  | succ depth ih =>
    refine renderWith_pushing (fun w => ?_) v
    rw [openedWithin, openedWithin, render?_eq_renderWith, render?_eq_renderWith]
    exact ih w

end Value

/-! ## Stores -/

def Cells.pushing (c : Cells) : Cells := { c with values := c.values.map Value.pushing }

def Operands.pushing (s : Operands) : Operands := ⟨s.values.map Value.pushing⟩

/-- The memory with all that its cells and its stack hold in pushing form. -/
def Memory.pushing (m : Memory) : Memory :=
  { m with arena := m.arena.pushing, frame := m.frame.pushing, stack := m.stack.pushing }

theorem map_shrink {α β : Type} (xs : Array α) (f : α → β) (n : Nat) :
    (xs.shrink n).map f = (xs.map f).shrink n := by
  apply Array.ext_getElem?
  intro i
  rw [Array.getElem?_map, getElem?_shrink, getElem?_shrink, Array.getElem?_map]
  split <;> rfl

theorem map_swapIfInBounds {α β : Type} (xs : Array α) (f : α → β) (i j : Nat) :
    (xs.swapIfInBounds i j).map f = (xs.map f).swapIfInBounds i j := by
  rw [Array.swapIfInBounds_def, Array.swapIfInBounds_def]
  by_cases hi : i < xs.size
  · by_cases hj : j < xs.size
    · simp [hi, hj, Array.swap_def]
    · simp [hi, hj]
  · simp [hi]

namespace Cells

@[simp] theorem size_pushing (c : Cells) : c.pushing.size = c.size := Array.size_map

@[simp] theorem get?_pushing (c : Cells) (i : Nat) :
    c.pushing.get? i = (c.get? i).map Value.pushing := by
  unfold get? pushing
  rw [Array.getElem?_map]

@[simp] theorem isConstant_pushing (c : Cells) (i : Nat) :
    c.pushing.isConstant i = c.isConstant i := rfl

theorem push_pushing (c : Cells) (v : Value) (constant : Bool) :
    c.pushing.push v.pushing constant = (c.push v constant).pushing := by
  simp only [push, pushing, size, Array.map_push, Array.size_map]

theorem set_pushing (c : Cells) (i : Nat) (v : Value) :
    c.pushing.set i v.pushing = (c.set i v).pushing := by
  simp only [set, pushing, Array.map_setIfInBounds]

theorem truncate_pushing (c : Cells) (n : Nat) :
    c.pushing.truncate n = (c.truncate n).pushing := by
  simp only [truncate, pushing, map_shrink]

end Cells

namespace Operands

@[simp] theorem size_pushing (s : Operands) : s.pushing.size = s.size := Array.size_map

@[simp] theorem get?_pushing (s : Operands) (i : Nat) :
    s.pushing.get? i = (s.get? i).map Value.pushing := Array.getElem?_map

theorem push_pushing (s : Operands) (v : Value) :
    s.pushing.push v.pushing = (s.push v).pushing := by
  simp only [push, pushing, Array.map_push]

theorem truncate_pushing (s : Operands) (n : Nat) :
    s.pushing.truncate n = (s.truncate n).pushing := by
  simp only [truncate, pushing, map_shrink]

theorem require_pushing (s : Operands) (depth : Nat) :
    s.pushing.require depth = s.require depth := by
  unfold require
  rw [size_pushing]

theorem position_pushing (s : Operands) (offset : Nat) :
    s.pushing.position offset = s.position offset := by
  unfold position
  rw [size_pushing, require_pushing]

theorem base_pushing (s : Operands) (count : Nat) : s.pushing.base count = s.base count := by
  unfold base
  rw [size_pushing]

theorem above_pushing (s : Operands) (i : Nat) :
    s.pushing.above i = (s.above i).map Value.pushing := by
  unfold above
  rw [size_pushing]
  simp only [pushing, Array.toList_extract, Array.toList_map, List.extract_eq_take_drop,
    List.map_take, List.map_drop]

theorem topAt_pushing (s : Operands) (offset : Nat) :
    s.pushing.topAt offset = (s.topAt offset).map Value.pushing := by
  unfold topAt
  rw [position_pushing, size_pushing]
  cases s.position offset with
  | error violation => rfl
  | ok index =>
    simp only [bind, Except.bind, pushing, Array.getElem?_map]
    cases s.values[index]? <;> rfl

theorem pop_pushing (s : Operands) : s.pushing.pop = s.pop.map pushing := by
  unfold pop
  rw [require_pushing]
  cases s.require 1 with
  | error violation => rfl
  | ok _ =>
    show Except.ok _ = Except.ok _
    simp only [pushing, Array.map_pop]

theorem duplicate_pushing (s : Operands) (offset : Nat) :
    s.pushing.duplicate offset = (s.duplicate offset).map pushing := by
  unfold duplicate
  rw [topAt_pushing]
  cases s.topAt offset with
  | error violation => rfl
  | ok v => exact congrArg Except.ok (s.push_pushing v)

theorem swap_pushing (s : Operands) (offset : Nat) :
    s.pushing.swap offset = (s.swap offset).map pushing := by
  unfold swap
  rw [position_pushing, size_pushing]
  cases s.position offset with
  | error violation => rfl
  | ok index =>
    show Except.ok _ = Except.ok _
    simp only [pushing, map_swapIfInBounds]

theorem mapTop_pushing (s : Operands) {f g : Operands → Value → Except Fault Value}
    (h : ∀ rest v, g rest.pushing v.pushing = (f rest v).map Value.pushing) :
    s.pushing.mapTop g = (s.mapTop f).map pushing := by
  rcases Nat.lt_or_ge s.size 1 with hlt | hge
  · unfold mapTop
    rw [require_pushing, require_eq_error hlt]
    rfl
  · obtain ⟨v, hv⟩ := exists_topAt Nat.one_pos hge
    have hv' : s.pushing.topAt 1 = .ok v.pushing := by
      rw [topAt_pushing, hv]
      rfl
    have hrest : (⟨s.pushing.values.pop⟩ : Operands) = pushing ⟨s.values.pop⟩ := by
      simp only [pushing, Array.map_pop]
    rw [mapTop_eq hv, mapTop_eq hv', hrest, h]
    cases f ⟨s.values.pop⟩ v with
    | error cause => rfl
    | ok w => exact congrArg Except.ok (push_pushing _ w)

theorem mapTopTwo_pushing (s : Operands) {f g : Operands → Value → Value → Except Fault Value}
    (h : ∀ rest v w, g rest.pushing v.pushing w.pushing = (f rest v w).map Value.pushing) :
    s.pushing.mapTopTwo g = (s.mapTopTwo f).map pushing := by
  rcases Nat.lt_or_ge s.size 2 with hlt | hge
  · unfold mapTopTwo
    rw [require_pushing, require_eq_error hlt]
    rfl
  · obtain ⟨v, hv⟩ := exists_topAt Nat.two_pos hge
    obtain ⟨w, hw⟩ := exists_topAt (s := s) Nat.one_pos (by omega)
    have hv' : s.pushing.topAt 2 = .ok v.pushing := by
      rw [topAt_pushing, hv]
      rfl
    have hw' : s.pushing.topAt 1 = .ok w.pushing := by
      rw [topAt_pushing, hw]
      rfl
    rw [mapTopTwo_eq hv hw, mapTopTwo_eq hv' hw', size_pushing, truncate_pushing, h]
    cases f (s.truncate (s.size - 2)) v w with
    | error cause => rfl
    | ok u => exact congrArg Except.ok (push_pushing _ u)

end Operands

namespace Memory

@[simp] theorem size_pushing (m : Memory) : m.pushing.size = m.size := by
  simp only [size, pushing, Cells.size_pushing, Operands.size_pushing]

@[simp] theorem read_pushing (m : Memory) : m.pushing.read = m.read.pushing := by
  funext target
  cases target with
  | static cell =>
    show (if cell.arena = m.id then m.arena.pushing.get? cell.index else none) =
      Option.map _ (if cell.arena = m.id then m.arena.get? cell.index else none)
    split
    · exact m.arena.get?_pushing cell.index
    · rfl
  | frame i => exact m.frame.get?_pushing i
  | stack i => exact m.stack.get?_pushing i

theorem readWith_pushing (m : Memory) (s : Operands) :
    m.pushing.readWith s.pushing = (m.readWith s).pushing := by
  rw [readWith_eq_read, readWith_eq_read, ← read_pushing]
  rfl

@[simp] theorem isConstant_pushing (m : Memory) (target : CellRef) :
    m.pushing.isConstant target = m.isConstant target := by
  cases target with
  | static cell => exact congrArg (_ && ·) (m.arena.isConstant_pushing cell.index)
  | frame i => exact m.frame.isConstant_pushing i
  | stack i => rfl

theorem fetch_pushing (m : Memory) (target : CellRef) :
    m.pushing.fetch target = (m.fetch target).map Value.pushing := by
  unfold fetch
  rw [read_pushing, Reader.pushing]
  cases m.read target <;> rfl

theorem follow_pushing (m : Memory) (v : Value) :
    m.pushing.follow v.pushing = (m.follow v).map Value.pushing := by
  unfold follow
  rw [read_pushing, Reader.follow_pushing]

theorem resolve_pushing (m : Memory) (target : CellRef) :
    m.pushing.resolve target = m.resolve target := by
  unfold resolve
  rw [read_pushing, Reader.resolve_pushing]

theorem owned_pushing (m : Memory) (op : String) (v : Value) :
    m.pushing.owned op v.pushing = (m.owned op v).map Value.pushing := by
  unfold owned
  rw [read_pushing, Reader.owned_pushing]

theorem render?_pushing (m : Memory) (v : Value) : m.pushing.render? v.pushing = m.render? v := by
  unfold render?
  rw [read_pushing, size_pushing, Value.render?_pushing]

theorem set_pushing (m : Memory) (target : CellRef) (v : Value) :
    m.pushing.set target v.pushing = (m.set target v).pushing := by
  cases target with
  | static cell =>
    unfold set
    show (if cell.arena = m.id then _ else _) = pushing (if cell.arena = m.id then _ else _)
    split
    · simp only [pushing, Cells.set_pushing]
    · rfl
  | frame i => simp only [set, pushing, Cells.set_pushing]
  | stack i => simp only [set, pushing, Operands.pushing, Array.map_setIfInBounds]

theorem update_pushing (m : Memory) (target : CellRef) {f g : Value → Except Fault Value}
    (h : ∀ v, g v.pushing = (f v).map Value.pushing) :
    m.pushing.update target g = (m.update target f).map pushing := by
  unfold update
  rw [isConstant_pushing, read_pushing, Reader.pushing]
  split
  · rfl
  · cases m.read target with
    | none => rfl
    | some v =>
      simp only [Option.map_some, h]
      cases f v with
      | error cause => rfl
      | ok w => exact congrArg Except.ok (m.set_pushing target w)

theorem allocate_pushing (m : Memory) (v : Value) (constant : Bool) :
    m.pushing.allocate v.pushing constant =
      ((m.allocate v constant).1, (m.allocate v constant).2.pushing) := by
  simp only [allocate, pushing, staticRef, Cells.size_pushing, Cells.push_pushing]

theorem allocateFrame_pushing (m : Memory) (v : Value) (constant : Bool) :
    m.pushing.allocateFrame v.pushing constant =
      ((m.allocateFrame v constant).1, (m.allocateFrame v constant).2.pushing) := by
  simp only [allocateFrame, pushing, Cells.size_pushing, Cells.push_pushing]

theorem applyUnary_pushing (m : Memory) (op : UnaryOp) :
    m.pushing.applyUnary op = (m.applyUnary op).map pushing := by
  unfold applyUnary
  have hstack := m.stack.mapTop_pushing (f := fun rest => op.evaluate (m.readWith rest))
    (g := fun rest => op.evaluate (m.pushing.readWith rest)) fun rest v => by
      rw [readWith_pushing, UnaryOp.evaluate_pushing]
  show (m.stack.pushing.mapTop _ >>= _) = _
  rw [hstack]
  cases m.stack.mapTop fun rest => op.evaluate (m.readWith rest) <;> rfl

theorem applyBinary_pushing (m : Memory) (op : BinaryOp) :
    m.pushing.applyBinary op = (m.applyBinary op).map pushing := by
  unfold applyBinary
  have hstack := m.stack.mapTopTwo_pushing (f := fun rest => op.evaluate (m.readWith rest))
    (g := fun rest => op.evaluate (m.pushing.readWith rest)) fun rest v w => by
      rw [readWith_pushing, BinaryOp.evaluate_pushing]
  show (m.stack.pushing.mapTopTwo _ >>= _) = _
  rw [hstack]
  cases m.stack.mapTopTwo fun rest => op.evaluate (m.readWith rest) <;> rfl

end Memory

end ActionMachine
