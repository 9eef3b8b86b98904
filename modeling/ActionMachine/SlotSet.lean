import Std.Data.TreeMap
import ActionMachine.Handle
import ActionMachine.Stop

/-
  Ordered sets of slots, at most one slot a name. A slot ties a name to a cell kept elsewhere.
  Slots stand in the order of insertion, and removals keep the order of the rest; an index from
  names to positions answers look-ups.
-/

namespace ActionMachine

structure Slot where
  name : Name
  target : CellRef
  deriving DecidableEq, Repr

inductive SlotError where
  | alreadyPresent (name : Name)
  | missing (name : Name)
  deriving DecidableEq, Repr

namespace SlotError

def name : SlotError → Name
  | .alreadyPresent name => name
  | .missing name => name

def message : SlotError → String
  | .alreadyPresent name => "`" ++ name ++ "` is already bound"
  | .missing name => "`" ++ name ++ "` is not bound"

end SlotError

structure SlotSet where
  slots : Array Slot := #[]
  index : Std.TreeMap Name Nat := {}

namespace SlotSet

def empty : SlotSet := {}

def size (s : SlotSet) : Nat := s.slots.size

def isEmpty (s : SlotSet) : Bool := s.slots.isEmpty

def contains (s : SlotSet) (name : Name) : Bool := s.index.contains name

/-- Position of `name` in the order of insertion. -/
def position? (s : SlotSet) (name : Name) : Option Nat := s.index[name]?

/-- The slot at a position. -/
def get? (s : SlotSet) (position : Nat) : Option Slot := s.slots[position]?

/-- Bind `name`, which must be new, behind the slots there are. -/
def insert (s : SlotSet) (name : Name) (target : CellRef) : Except SlotError SlotSet :=
  if s.contains name then .error (.alreadyPresent name)
  else .ok ⟨s.slots.push ⟨name, target⟩, s.index.insert name s.slots.size⟩

/-- The slot of `name`, if it is bound. A position past the end would be a broken index. -/
def find? (s : SlotSet) (name : Name) : Except Violation (Option Slot) :=
  match s.position? name with
  | none => .ok none
  | some position =>
    match s.slots[position]? with
    | some slot => .ok (some slot)
    | none => .error (.slotOutOfRange s.slots.size position)

def find (s : SlotSet) (name : Name) : Except (Stop SlotError) Slot := do
  match ← s.find? name with
  | some slot => return slot
  | none => throw (.fault (.missing name))

/-- As `find`, for a name that the caller knows to be bound. -/
def findBound (s : SlotSet) (name : Name) : Except Violation Slot := do
  match ← s.find? name with
  | some slot => return slot
  | none => throw .unboundName

/-- Take the slot of `name` out; later slots move down by one. -/
def remove? (s : SlotSet) (name : Name) : Option (Slot × SlotSet) := do
  let position ← s.position? name
  let slot ← s.slots[position]?
  let index := (s.index.erase name).map fun _ later =>
    if position < later then later - 1 else later
  return (slot, ⟨s.slots.eraseIdxIfInBounds position, index⟩)

/-- The set with these slots, of which a repeated name is dropped. -/
def ofSlots (slots : List Slot) : SlotSet :=
  slots.foldl (fun s slot => (s.insert slot.name slot.target).toOption.getD s) empty

instance : BEq SlotSet where
  beq s t := s.slots == t.slots && s.index == t.index

end SlotSet

end ActionMachine
