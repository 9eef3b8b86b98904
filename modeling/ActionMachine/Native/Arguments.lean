import ActionMachine.Reader

/-
  What a native method is called with: its parameters, each bound to the cell of its argument,
  and a way to read those cells. A host is the table of the functions that native methods run.
-/

namespace ActionMachine

structure Arguments where
  slots : SlotSet
  read : Reader

namespace Arguments

def size (a : Arguments) : Nat := a.slots.size

def isEmpty (a : Arguments) : Bool := a.slots.isEmpty

/-- The argument of the parameter `name`. -/
def get? (a : Arguments) (name : Name) : Option Value := do
  let slot ← (a.slots.find name).toOption
  a.read slot.target

def at? (a : Arguments) (position : Nat) : Option Value := do
  let slot ← a.slots.get? position
  a.read slot.target

/-- All arguments in order. -/
def toList (a : Arguments) : List Value := (List.range a.size).filterMap a.at?

end Arguments

/-- The functions of native methods by their entry names. -/
abbrev Host := String → Arguments → Value

end ActionMachine
