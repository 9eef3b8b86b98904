import ActionMachine.Native.Arguments
import ActionMachine.Value.Printer

/-
  A catalogue of small native functions: constants, a sum, a choice, and functions that tell
  what they were called with.
-/

namespace ActionMachine.Native

/-- Sum of the arguments `a` and `b` if both are signed integers. -/
def sum (args : Arguments) : Value :=
  match args.get? "a", args.get? "b" with
  | some (.int a), some (.int b) => .int (a + b)
  | _, _ => .none

/-- True, and every signed integer but 0, counts as a yes. -/
def isYes : Option Value → Bool
  | some (.bool b) => b
  | some (.int n) => n != 0
  | _ => false

/-- The second argument if the first is a yes, the third if not. -/
def choose (args : Arguments) : Value :=
  (if isYes (args.at? 0) then args.at? 1 else args.at? 2).getD .none

def firstDisplay (args : Arguments) : Value :=
  match args.at? 0 with
  | some value => .str value.display
  | none => .none

/-- A reference to the cell of the first argument. -/
def firstReference (args : Arguments) : Value :=
  match args.slots.get? 0 with
  | some slot => .reference (some slot.target)
  | none => .none

def catalogue : Host
  | "undefined", _ => .undefined
  | "null", _ => .reference none
  | "answer", _ => .int 42
  | "add", args => sum args
  | "count", args => .uint (.ofNat args.size)
  | "is_empty", args => .bool args.isEmpty
  | "first", args => (args.at? 0).getD .none
  | "beyond", args => (args.at? args.size).getD .none
  | "get_x", args => (args.get? "x").getD .none
  | "list", args => .list args.toList
  | "kinds", args => .list (args.toList.map fun value => .str value.kind.text)
  | "display", args => firstDisplay args
  | "names", args => .list (args.slots.slots.toList.map fun slot => .str slot.name)
  | "select", args => choose args
  | "ref0", args => firstReference args
  | "bottom", _ => .reference (some (.stack 0))
  | _, _ => .none

end ActionMachine.Native
