import ActionMachine.Reader

/-
  Operators on values. Operands are followed first; an undefined one is refused, and the empty
  value leaves the other operand as it is. The left operand fixes the kind of the result: the
  right one is converted to it. Integers wrap around; only their division by zero fails.
-/

namespace ActionMachine

/-- A numeric operand before its conversion. -/
inductive Number where
  | int (n : Int64)
  | uint (n : UInt64)
  | float (x : Float)

namespace Number

/-- Integers wrap; a float is cut to its whole part and kept in range. -/
def toInt64 : Number → Int64
  | .int n => n
  | .uint n => n.toInt64
  | .float x => x.toInt64

def toUInt64 : Number → UInt64
  | .int n => n.toUInt64
  | .uint n => n
  | .float x => x.toUInt64

/-- The low byte of the unsigned number. -/
def toUInt8 (n : Number) : UInt8 := n.toUInt64.toUInt8

def toFloat : Number → Float
  | .int n => n.toFloat
  | .uint n => n.toFloat
  | .float x => x

end Number

/-- A truth value as 0 or 1. -/
def bit (b : Bool) : Int64 := if b then 1 else 0

/-- A value that was followed, as a number. -/
def Value.number (op : BinaryOp) : Value → Except Fault Number
  | .int n => .ok (.int n)
  | .uint n => .ok (.uint n)
  | .float x => .ok (.float x)
  | .bool b => .ok (.int (bit b))
  | .byte b => .ok (.uint b.toUInt64)
  | .undefined => .error (.undefinedOperand op.symbol)
  | value => .error (.notImplemented op.symbol value.kind)

namespace BinaryOp

/-- The operator on words of one width. -/
def onWords {α : Type} [Add α] [Sub α] [Mul α] [Div α] [OfNat α 0] [DecidableEq α]
    (op : BinaryOp) (a b : α) : Except Fault α :=
  match op with
  | .add => .ok (a + b)
  | .sub => .ok (a - b)
  | .mul => .ok (a * b)
  | .div => if b = 0 then .error .divisionByZero else .ok (a / b)

def onFloats (op : BinaryOp) (a b : Float) : Float :=
  match op with
  | .add => a + b
  | .sub => a - b
  | .mul => a * b
  | .div => a / b

/-- The operator on two defined values that are neither references nor empty, by the kind of the
left one. -/
def onValues (op : BinaryOp) (left right : Value) : Except Fault Value :=
  match left with
  | .int a => return .int (← op.onWords a (← right.number op).toInt64)
  | .uint a => return .uint (← op.onWords a (← right.number op).toUInt64)
  | .byte a => return .byte (← op.onWords a (← right.number op).toUInt8)
  | .float a => return .float (op.onFloats a (← right.number op).toFloat)
  | .bool a => return .bool ((← op.onWords (bit a) (← right.number op).toInt64) != 0)
  | left => .error (.notImplemented op.symbol left.kind)

/-- The result of `left op right`, with references followed through `read`. -/
def evaluate (op : BinaryOp) (read : Reader) (left right : Value) : Except Fault Value := do
  let left ← read.follow left
  let right ← read.follow right
  if left.isUndefined || right.isUndefined then .error (.undefinedOperand op.symbol)
  else match left, right with
    | .none, right => .ok right
    | left, .none => .ok left
    | left, right => op.onValues left right

/-- The target after `target op= right`, and how the operation ended; a target that cannot be
computed stays as it was. -/
def evaluateInPlace (op : BinaryOp) (read : Reader) (target right : Value) :
    Value × Except Fault Unit :=
  match op.evaluate read target right with
  | .ok result => (result, .ok ())
  | .error fault => (target, .error fault)

end BinaryOp

namespace UnaryOp

/-- The result of `op value`, with references followed through `read`. -/
def evaluate (op : UnaryOp) (read : Reader) (value : Value) : Except Fault Value := do
  match op, ← read.follow value with
  | .negate, .undefined => .error (.undefinedOperand op.symbol)
  | .negate, .none => .ok .none
  | .negate, .int n => .ok (.int (-n))
  | .negate, .uint n => .ok (.uint (-n))
  | .negate, .byte n => .ok (.byte (-n))
  | .negate, .float x => .ok (.float (-x))
  | .negate, .bool b => .ok (.bool (!b))
  | .negate, value => .error (.notImplemented op.symbol value.kind)

end UnaryOp

end ActionMachine
