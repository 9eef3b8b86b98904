import ActionMachine.Value.Basic

/-
  Equality of values. Floats compare as numbers, so no value that holds a NaN equals itself;
  native methods compare by name and parameters, whatever function they run; members, items,
  slots and actions compare in order.
-/

namespace ActionMachine

mutual

protected def Value.beq : Value → Value → Bool
  | .int a, .int b => a == b
  | .uint a, .uint b => a == b
  | .float a, .float b => a == b
  | .bool a, .bool b => a == b
  | .char a, .char b => a == b
  | .byte a, .byte b => a == b
  | .view a, .view b => a == b
  | .none, .none => true
  | .undefined, .undefined => true
  | .reference a, .reference b => a == b
  | .str a, .str b => a == b
  | .scope a, .scope b => a == b
  | .object a, .object b => a.beq b
  | .method a, .method b => a.beq b
  | .native a, .native b => a.name == b.name && a.params == b.params
  | .list a, .list b => Value.beqItems a b
  | _, _ => false

def Value.beqItems : List Value → List Value → Bool
  | [], [] => true
  | a :: as, b :: bs => a.beq b && Value.beqItems as bs
  | _, _ => false

protected def Object.beq : Object → Object → Bool
  | ⟨scope, name, typeId, members, index⟩, o =>
    scope == o.classScope && name == o.className && typeId == o.typeId &&
      Object.beqMembers members o.members && index == o.index

def Object.beqMembers : List Member → List Member → Bool
  | [], [] => true
  | ⟨name, value⟩ :: as, b :: bs =>
    name == b.name && value.beq b.value && Object.beqMembers as bs
  | _, _ => false

protected def Method.beq : Method → Method → Bool
  | ⟨name, params, scope, body⟩, m =>
    name == m.name && params == m.params && scope == m.scope && Action.beqBody body m.body

protected def Operand.beq : Operand → Operand → Bool
  | .pop, .pop => true
  | .literal a, .literal b => a.beq b
  | _, _ => false

def Parameter.beqDefault : Option Value → Option Value → Bool
  | none, none => true
  | some a, some b => a.beq b
  | _, _ => false

def Parameter.beqAll : List Parameter → List Parameter → Bool
  | [], [] => true
  | ⟨name, default⟩ :: as, b :: bs =>
    name == b.name && Parameter.beqDefault default b.default && Parameter.beqAll as bs
  | _, _ => false

protected def Action.beq : Action → Action → Bool
  | .declareLocal m, .declareLocal n => m == n
  | .declareConstant m v, .declareConstant n w => m == n && v.beq w
  | .resolveLocal m, .resolveLocal n => m == n
  | .resolveQualified r m, .resolveQualified s n => r == s && m == n
  | .assignLocal m v, .assignLocal n w => m == n && v.beq w
  | .pushLiteral v, .pushLiteral w => v.beq w
  | .pop, .pop => true
  | .duplicate i, .duplicate j => i == j
  | .swap i, .swap j => i == j
  | .buildList i, .buildList j => i == j
  | .unary o, .unary p => o == p
  | .binary o, .binary p => o == p
  | .binaryInPlace o, .binaryInPlace p => o == p
  | .defineNamespace m b, .defineNamespace n c => m == n && Action.beqBody b c
  | .defineClass m b, .defineClass n c => m == n && Action.beqBody b c
  | .addStaticMember r m v, .addStaticMember s n w => r == s && m == n && v.beq w
  | .addInstanceMember r m v, .addInstanceMember s n w => r == s && m == n && v.beq w
  | .constructInstance m, .constructInstance n => m == n
  | .loadMember r m, .loadMember s n => r == s && m == n
  | .assignMember r m, .assignMember s n => r == s && m == n
  | .defineMethod m p b, .defineMethod n q c =>
    m == n && Parameter.beqAll p q && Action.beqBody b c
  | .call m i, .call n j => m == n && i == j
  | .ret, .ret => true
  | .debugPrint m, .debugPrint n => m == n
  | _, _ => false

def Action.beqBody : List Action → List Action → Bool
  | [], [] => true
  | a :: as, b :: bs => a.beq b && Action.beqBody as bs
  | _, _ => false

end

instance : BEq Value := ⟨Value.beq⟩
instance : BEq Object := ⟨Object.beq⟩
instance : BEq Method := ⟨Method.beq⟩
instance : BEq Operand := ⟨Operand.beq⟩
instance : BEq Action := ⟨Action.beq⟩

end ActionMachine
