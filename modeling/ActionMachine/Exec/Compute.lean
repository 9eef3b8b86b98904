import ActionMachine.Exec.Basic

/-
  Actions on the operand stack.
-/

namespace ActionMachine.Exec

def pushLiteral (value : Value) : Exec Fault Flow := do
  if value.isUndefined then fault (.undefinedOperand "push")
  push value
  return .next

def duplicate (offset : Nat) : Exec Fault Flow := do
  onStack fun stack => stack.duplicate offset
  return .next

def swap (offset : Nat) : Exec Fault Flow := do
  onStack fun stack => stack.swap offset
  return .next

/-- Replace the top `len` elements by the list of what they lead to, lowest first. -/
def buildList (len : Nat) : Exec Fault Flow := do
  let memory := (← get).memory
  let base ← memory.stack.base len
  let items ← memory.read.ownedAll "list" (memory.stack.above base)
  modify (·.mapStack fun stack => (stack.truncate base).push (.list items))
  return .next

def unary (op : UnaryOp) : Exec Fault Flow := do
  setMemory (← (← get).memory.applyUnary op)
  return .next

def binary (op : BinaryOp) : Exec Fault Flow := do
  setMemory (← (← get).memory.applyBinary op)
  return .next

def binaryInPlace (op : BinaryOp) : Exec Fault Flow := do
  setMemory (← (← get).memory.applyInPlace op)
  return .next

end ActionMachine.Exec
