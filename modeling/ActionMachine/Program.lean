import ActionMachine.Mode
import ActionMachine.Native.Arguments
import ActionMachine.ScopeTree
import ActionMachine.Store.Memory

/-
  The state of one program. Everything that a run can touch is here: memory, scopes, the slot
  for the returned value, the depth of calls, the last number given to a class and the lines
  printed so far.
-/

namespace ActionMachine

structure Program where
  memory : Memory
  scopes : ScopeTree
  /-- What the last `ret` handed over; undefined if none did. -/
  returned : Value := .undefined
  mode : Mode := .default
  sink : Sink
  callDepth : Nat := 0
  lastTypeId : TypeId := 0
  host : Host

namespace Program

/-- A program without declarations. The identities are those of its arena and its scope tree. -/
def new (arena tree : StoreId) (host : Host) (mode : Mode) (sink : Sink) : Program :=
  { memory := { id := arena }, scopes := { id := tree }, mode, sink, host }

/-- The value of `name` as the outermost scope sees it. -/
def lookup (p : Program) (name : Name) : Except (Stop Fault) Value := do
  let target ← p.scopes.resolve .global name
  p.memory.fetch target

def mapMemory (p : Program) (f : Memory → Memory) : Program := { p with memory := f p.memory }

def mapStack (p : Program) (f : Operands → Operands) : Program :=
  p.mapMemory fun m => { m with stack := f m.stack }

end Program

end ActionMachine
