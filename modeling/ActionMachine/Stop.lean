import ActionMachine.Name

/-
  How a computation of the machine ends early. A fault is an answer that the caller can act on;
  a breach means that the caller broke the contract of an operation; `unending` stands for a
  computation that has no end.
-/

namespace ActionMachine

/-- A broken contract of an operation. -/
inductive Violation where
  | stackUnderflow (needed depth : Nat)
  | zeroOffset
  /-- More elements were to be taken off the stack than a number can count down. -/
  | sizeUnderflow
  | unboundName
  | slotOutOfRange (size position : Nat)
  | deadScope (index : Nat)
  | notCallScope (index : Nat)
  | notVisible (name : Name)
  deriving DecidableEq, Repr

def Violation.message : Violation → String
  | .stackUnderflow needed depth =>
    "operand stack underflow: need " ++ toString needed ++ ", have " ++ toString depth
  | .zeroOffset => "operand stack offsets start at 1"
  | .sizeUnderflow => "attempt to subtract with overflow"
  | .unboundName => "no entry found for key"
  | .slotOutOfRange size position =>
    "index out of bounds: the len is " ++ toString size ++ " but the index is " ++
      toString position
  | .deadScope index => "scope #" ++ toString index ++ " is not live in this tree"
  | .notCallScope index => "scope #" ++ toString index ++ " is not a call scope"
  | .notVisible name => "resolve_unchecked: `" ++ name ++ "` is not visible"

/-- The early end of a computation whose faults are of type `ε`. -/
inductive Stop (ε : Type) where
  | fault (cause : ε)
  | breach (violation : Violation)
  | unending
  deriving DecidableEq, Repr

def Stop.map {ε δ : Type} (f : ε → δ) : Stop ε → Stop δ
  | .fault cause => .fault (f cause)
  | .breach violation => .breach violation
  | .unending => .unending

instance {ε : Type} : MonadLift (Except Violation) (Except (Stop ε)) where
  monadLift
    | .ok a => .ok a
    | .error violation => .error (.breach violation)

end ActionMachine
