import ActionMachine.Value.Basic

/-
  What is known of an action before it is performed: its name in reports and the number of
  operands that the stack must hold.
-/

namespace ActionMachine.Action

def label : Action → String
  | .declareLocal _ => "DeclareLocal"
  | .declareConstant _ _ => "DeclareConstant"
  | .resolveLocal _ => "ResolveLocal"
  | .resolveQualified _ _ => "ResolveQualified"
  | .assignLocal _ _ => "AssignLocal"
  | .pushLiteral _ => "PushLiteral"
  | .pop => "Pop"
  | .duplicate _ => "Duplicate"
  | .swap _ => "Swap"
  | .buildList _ => "BuildList"
  | .unary .negate => "UnaryNegate"
  | .binary .add => "BinaryAdd"
  | .binary .sub => "BinarySubtract"
  | .binary .mul => "BinaryMultiply"
  | .binary .div => "BinaryDivide"
  | .binaryInPlace _ => "BinaryInPlace"
  | .defineNamespace _ _ => "DefineNamespace"
  | .defineClass _ _ => "DefineClass"
  | .addStaticMember _ _ _ => "AddClassStaticMember"
  | .addInstanceMember _ _ _ => "AddClassInstanceMember"
  | .constructInstance _ => "ConstructInstance"
  | .loadMember _ _ => "LoadMember"
  | .assignMember _ _ => "AssignMember"
  | .defineMethod _ _ _ => "DefineMethod"
  | .call _ _ => "Call"
  | .ret => "Return"
  | .debugPrint _ => "DebugPrint"

/-- Least depth of the operand stack that the action needs. -/
def operandArity : Action → Nat
  | .assignLocal _ .pop | .pop | .unary _ | .assignMember _ _ | .ret => 1
  | .binary _ | .binaryInPlace _ => 2
  | .duplicate offset | .swap offset => offset
  | .buildList len => len
  | .call _ arity => arity
  | .declareLocal _ | .declareConstant _ _ | .resolveLocal _ | .resolveQualified _ _
  | .assignLocal _ (.literal _) | .pushLiteral _ | .defineNamespace _ _ | .defineClass _ _
  | .addStaticMember _ _ _ | .addInstanceMember _ _ _ | .constructInstance _ | .loadMember _ _
  | .defineMethod _ _ _ | .debugPrint _ => 0

/-- Offsets count from 1, so an offset of 0 names no element. -/
def hasZeroOffset : Action → Bool
  | .duplicate 0 | .swap 0 => true
  | _ => false

end ActionMachine.Action
