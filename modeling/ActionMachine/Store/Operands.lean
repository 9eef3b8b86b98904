import ActionMachine.Arithmetic

/-
  The operand stack. Offsets count from the top, which is 1; indices count from the bottom.
  Callers see to it that the stack is deep enough. Operators read references through the part
  of the stack below their operands, and leave the stack alone when they fail.
-/

namespace ActionMachine

structure Operands where
  values : Array Value := #[]

namespace Operands

def empty : Operands := {}

def size (s : Operands) : Nat := s.values.size

def isEmpty (s : Operands) : Bool := s.values.isEmpty

def get? (s : Operands) (index : Nat) : Option Value := s.values[index]?

def push (s : Operands) (value : Value) : Operands := ⟨s.values.push value⟩

/-- Keep the lowest `size` elements. -/
def truncate (s : Operands) (size : Nat) : Operands := ⟨s.values.shrink size⟩

/-- Refuse a stack of fewer than `depth` elements. -/
def require (s : Operands) (depth : Nat) : Except Violation Unit :=
  if s.size < depth then .error (.stackUnderflow depth s.size) else .ok ()

/-- Index of the element at an offset. -/
def position (s : Operands) (offset : Nat) : Except Violation Nat := do
  if offset = 0 then .error .zeroOffset
  s.require offset
  return s.size - offset

/-- Index of the lowest of the top `count` elements. -/
def base (s : Operands) (count : Nat) : Except Violation Nat :=
  if s.size < count then .error .sizeUnderflow else .ok (s.size - count)

/-- The elements from an index up, lowest first. -/
def above (s : Operands) (index : Nat) : List Value := (s.values.extract index s.size).toList

def topAt (s : Operands) (offset : Nat) : Except Violation Value := do
  let index ← s.position offset
  match s.values[index]? with
  | some value => return value
  | none => .error (.stackUnderflow offset s.size)

def top (s : Operands) : Except Violation Value := s.topAt 1

def setTopAt (s : Operands) (offset : Nat) (value : Value) : Except Violation Operands := do
  let index ← s.position offset
  return ⟨s.values.setIfInBounds index value⟩

def pop (s : Operands) : Except Violation Operands := do
  s.require 1
  return ⟨s.values.pop⟩

/-- The top and the rest. -/
def popTop (s : Operands) : Except Violation (Value × Operands) := do
  s.require 1
  return (← s.top, ⟨s.values.pop⟩)

/-- Push a copy of the element at an offset. -/
def duplicate (s : Operands) (offset : Nat) : Except Violation Operands :=
  return s.push (← s.topAt offset)

/-- Exchange the top with the element at an offset. -/
def swap (s : Operands) (offset : Nat) : Except Violation Operands := do
  let index ← s.position offset
  return ⟨s.values.swapIfInBounds (s.size - 1) index⟩

/-- Replace the top by what `f` makes of the rest of the stack and the top. -/
def mapTop (s : Operands) (f : Operands → Value → Except Fault Value) :
    Except (Stop Fault) Operands := do
  s.require 1
  let rest : Operands := ⟨s.values.pop⟩
  return rest.push (← f rest (← s.topAt 1))

/-- Replace the two upper elements by what `f` makes of the rest of the stack and them. -/
def mapTopTwo (s : Operands) (f : Operands → Value → Value → Except Fault Value) :
    Except (Stop Fault) Operands := do
  s.require 2
  let rest := s.truncate (s.size - 2)
  return rest.push (← f rest (← s.topAt 2) (← s.topAt 1))

/-- Let `f` change the element below the top, then drop the top; nothing is dropped if `f`
fails. -/
def foldTop (s : Operands) (f : Operands → Value → Value → Value × Except Fault Unit) :
    Except (Stop Fault) Operands := do
  s.require 2
  let (target, outcome) := f (s.truncate (s.size - 2)) (← s.topAt 2) (← s.topAt 1)
  outcome
  return (← (← s.setTopAt 2 target).pop)

end Operands

end ActionMachine
