import Std.Data.ExtTreeSet
import ActionMachine.Value.Basic

/-
  Rows of cells. The values of the cells stand in a row; which of the cells are constant is kept
  beside it, as a set of places. Cells are added at the end and only taken away from the end, so the
  place of a cell never changes.
-/

namespace ActionMachine

structure Cell where
  value : Value
  constant : Bool := false

structure Cells where
  values : Array Value := #[]
  /-- Places of constant cells. -/
  constants : Std.ExtTreeSet Nat := ∅

namespace Cells

def empty : Cells := {}

def size (c : Cells) : Nat := c.values.size

def isEmpty (c : Cells) : Bool := c.values.isEmpty

/-- Add a cell at the end, at place `c.size`. -/
def push (c : Cells) (value : Value) (constant : Bool) : Cells :=
  let constants := if constant then c.constants.insert c.size else c.constants
  { values := c.values.push value, constants }

def get? (c : Cells) (index : Nat) : Option Value := c.values[index]?

def isConstant (c : Cells) (index : Nat) : Bool := c.constants.contains index

/-- Put a value into a cell, constant or not, if there is one. -/
def set (c : Cells) (index : Nat) (value : Value) : Cells :=
  { c with values := c.values.setIfInBounds index value }

/-- Keep the first `size` cells, and of the constant places those of cells that are kept. -/
def truncate (c : Cells) (size : Nat) : Cells :=
  let constants := c.constants.filter (· < size)
  { values := c.values.shrink size, constants }

/-- The cells with what is known of each. -/
def cells (c : Cells) : Array Cell :=
  c.values.mapIdx fun index value => { value, constant := c.isConstant index }

end Cells

end ActionMachine
