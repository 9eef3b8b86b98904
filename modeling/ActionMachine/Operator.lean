/-
  The operators of the machine and their signs.
-/

namespace ActionMachine

inductive UnaryOp where
  /-- Change of sign; the opposite of a truth value. -/
  | negate
  deriving DecidableEq, Repr

def UnaryOp.symbol : UnaryOp → String
  | .negate => "-"

inductive BinaryOp where
  | add
  | sub
  | mul
  | div
  deriving DecidableEq, Repr

def BinaryOp.symbol : BinaryOp → String
  | .add => "+"
  | .sub => "-"
  | .mul => "*"
  | .div => "/"

end ActionMachine
