import ActionMachine.Sink

/-
  Modes of a program: how deep its calls may nest, and where its lines go unless it is told
  otherwise.
-/

namespace ActionMachine

inductive Mode where
  | interpret
  | capture
  | silent
  deriving DecidableEq, Repr

namespace Mode

def default : Mode := .interpret

/-- Greatest number of calls inside one another; `none` is no limit. -/
def maxCallDepth : Mode → Option Nat
  | .interpret => none
  | .capture => some 500
  | .silent => some 64

def sink : Mode → Sink
  | .interpret => { destination := .terminal }
  | .capture => { destination := .buffer }
  | .silent => { destination := .silent }

end Mode

end ActionMachine
