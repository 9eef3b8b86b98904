import ActionMachine.Store.Cells
import ActionMachine.Store.Operands
import ActionMachine.Value.Rendering

/-
  The memory of one program: the arena, whose cells live as long as the program; the frame,
  whose cells live as long as the calls that made them; and the operand stack. Handles of
  another arena address nothing here.
-/

namespace ActionMachine

structure Memory where
  /-- Identity of the arena. -/
  id : StoreId
  arena : Cells := .empty
  frame : Cells := .empty
  stack : Operands := .empty

namespace Memory

/-- Number of live cells, stack elements included. -/
def size (m : Memory) : Nat := m.arena.size + m.frame.size + m.stack.size

def staticRef (m : Memory) (index : Nat) : CellRef := .static ⟨m.id, index⟩

/-- What a cell holds. -/
def read (m : Memory) : Reader
  | .static cell => if cell.arena = m.id then m.arena.get? cell.index else none
  | .frame index => m.frame.get? index
  | .stack index => m.stack.get? index

/-- What a cell holds in a view of memory, in which the stack is `stack`. -/
def readWith (m : Memory) (stack : Operands) : Reader
  | .static cell => if cell.arena = m.id then m.arena.get? cell.index else none
  | .frame index => m.frame.values[index]?
  | .stack index => stack.values[index]?

/-- Reading with only the lowest `count` stack elements in view. -/
def view (m : Memory) (count : Nat) : Reader := m.readWith (m.stack.truncate count)

def isConstant (m : Memory) : CellRef → Bool
  | .static cell => cell.arena = m.id && m.arena.isConstant cell.index
  | .frame index => m.frame.isConstant index
  | .stack _ => false

/-- Put a value into a cell, constant or not, if it is live. -/
def set (m : Memory) (target : CellRef) (value : Value) : Memory :=
  match target with
  | .static cell =>
    if cell.arena = m.id then { m with arena := m.arena.set cell.index value } else m
  | .frame index => { m with frame := m.frame.set index value }
  | .stack index => { m with stack := ⟨m.stack.values.setIfInBounds index value⟩ }

/-- Change what a cell holds. A constant cell is refused before a cell that is not live. -/
def update (m : Memory) (target : CellRef) (f : Value → Except Fault Value) :
    Except Fault Memory :=
  if m.isConstant target then .error (.constantAssignment target)
  else match m.read target with
    | none => .error (.danglingReference target)
    | some value => return m.set target (← f value)

def write (m : Memory) (target : CellRef) (value : Value) : Except Fault Memory :=
  m.update target fun _ => .ok value

/-- What a cell holds; a cell that is not live is a fault. -/
def fetch (m : Memory) (target : CellRef) : Except Fault Value :=
  match m.read target with
  | some value => .ok value
  | none => .error (.danglingReference target)

/-- A new cell that lives as long as the program. -/
def allocate (m : Memory) (value : Value) (constant : Bool) : CellRef × Memory :=
  (m.staticRef m.arena.size, { m with arena := m.arena.push value constant })

/-- A new cell of the running call. -/
def allocateFrame (m : Memory) (value : Value) (constant : Bool) : CellRef × Memory :=
  (.frame m.frame.size, { m with frame := m.frame.push value constant })

def follow (m : Memory) (value : Value) : Except Fault Value := m.read.follow value

def resolve (m : Memory) (target : CellRef) : Except Fault CellRef := m.read.resolve target

def owned (m : Memory) (op : String) (value : Value) : Except Fault Value := m.read.owned op value

/-- Apply an operator to the top of the stack, reading through what lies below it. -/
def applyUnary (m : Memory) (op : UnaryOp) : Except (Stop Fault) Memory := do
  let stack ← m.stack.mapTop fun rest => op.evaluate (m.readWith rest)
  return { m with stack }

/-- Replace the two upper elements by the result of an operator. -/
def applyBinary (m : Memory) (op : BinaryOp) : Except (Stop Fault) Memory := do
  let stack ← m.stack.mapTopTwo fun rest => op.evaluate (m.readWith rest)
  return { m with stack }

/-- Let an operator change the element below the top, then drop the top. -/
def applyInPlace (m : Memory) (op : BinaryOp) : Except (Stop Fault) Memory := do
  let stack ← m.stack.foldTop fun rest => op.evaluateInPlace (m.readWith rest)
  return { m with stack }

/-- Text of a value with its references followed, if it is finite. References opened inside one
another lead to different cells unless the text has no end, so no more of them are needed than
there are cells. -/
def render? (m : Memory) (value : Value) : Option String := value.render? m.read m.size

end Memory

end ActionMachine
