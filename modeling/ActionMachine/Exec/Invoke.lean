import ActionMachine.Exec.Basic

/-
  Calls. A method of the program runs in a scope of its own, with its arguments in new cells of
  the frame; when it ends, the stack is cut back to what lay below the arguments, and scope and
  cells go unless something defined inside keeps them. A native method reads its arguments where
  they lie on the stack.
-/

namespace ActionMachine.Exec

/-- How a body is run in a scope. -/
abbrev Body := ScopeId → List Action → Exec Failure Flow

/-- Defaults of the parameters that were given no argument. `missing` is the fault if one of them
has none. -/
def defaultValues (memory : Memory) (missing : Fault) : List Slot → Except Fault (List Value)
  | [] => .ok []
  | slot :: slots => do
    let value ← memory.fetch slot.target
    if value.isUndefined then .error missing
    let values ← defaultValues memory missing slots
    return value :: values

/-- The scope of a new call. -/
def pushCallScope (method : Method) : Exec Fault ScopeId :=
  modifyGet fun p =>
    let (id, scopes) := p.scopes.pushCallScope method.scope method.name
    (id, { p with scopes })

/-- Bind parameters to new cells of the frame. -/
def bindArguments (scope : ScopeId) : List (Slot × Value) → Exec Fault Unit
  | [] => pure ()
  | (slot, value) :: rest => do
    let target ← allocateFrame value false
    setScopes (← (← get).scopes.addLocal scope slot.name target)
    bindArguments scope rest

/-- Cut the stack back to `base` elements, and the frame to `cells` if the scope of the call can
go. -/
def leave (scope : ScopeId) (cells base : Nat) : Exec Fault Unit := do
  modify (·.mapStack (·.truncate base))
  let (released, scopes) ← (← get).scopes.releaseCallScope scope
  setScopes scopes
  if released then modify (·.mapMemory fun m => { m with frame := m.frame.truncate cells })

/-- Values of all parameters of a call with the top `arity` elements as arguments. -/
def argumentValues (method : Method) (arity base : Nat) : Exec Fault (List Value) := do
  let memory := (← get).memory
  let given ← memory.read.ownedAll "argument" (memory.stack.above base)
  let missing := Fault.arityMismatch method.name method.arity arity
  let defaults ← defaultValues memory missing (method.params.slots.toList.drop arity)
  return given ++ defaults

/-- What a call has to put back when it ends. -/
structure Frame where
  /-- Scope of the call. -/
  scope : ScopeId
  /-- Number of frame cells below the call. -/
  cells : Nat
  /-- Number of stack elements below the arguments. -/
  base : Nat
  /-- What the slot for returned values held. -/
  returned : Value

/-- All that comes before the body: check the call, take the arguments off the stack and bind the
parameters in a new scope. The slot for returned values is empty when the body starts. -/
def openCall (method : Method) (arity : Nat) : Exec Fault Frame := do
  if method.arity < arity then fault (.arityMismatch method.name method.arity arity)
  if let some limit := (← get).mode.maxCallDepth then
    if limit ≤ (← get).callDepth then fault (.recursionLimit limit)
  let base ← (← get).memory.stack.base arity
  let values ← argumentValues method arity base
  modify (·.mapStack (·.truncate base))
  let cells := (← get).memory.frame.size
  let scope ← pushCallScope method
  match ← settle (bindArguments scope (method.params.slots.toList.zip values)) with
  | .error cause =>
    leave scope cells base
    fault cause
  | .ok _ =>
    let returned := (← get).returned
    modify fun p => { p with returned := .undefined, callDepth := p.callDepth + 1 }
    return { scope, cells, base, returned }

/-- A call that hands nothing over has the empty value as its result. -/
def callResult (returned : Value) : Value := if returned.isUndefined then .none else returned

/-- All that comes after the body: put back what the frame says and push the result. -/
def closeCall (frame : Frame) (method : Name) (outcome : Except Failure Flow) :
    Exec Fault Unit := do
  let returned := (← get).returned
  modify fun p => { p with returned := frame.returned, callDepth := p.callDepth - 1 }
  leave frame.scope frame.cells frame.base
  match outcome with
  | .error failure => fault (failure.within (.method method))
  | .ok _ => push (callResult returned)

def callMethod (run : Body) (method : Method) (arity : Nat) : Exec Fault Unit := do
  let frame ← openCall method arity
  let outcome ← settle (run frame.scope method.body)
  closeCall frame method.name outcome

/-- Put each argument, as it is handed over, at its place on the stack and bind its parameter to
that place. -/
def placeArguments (index : Nat) (slots : SlotSet) : List (Name × Value) → Exec Fault SlotSet
  | [] => pure slots
  | (param, value) :: rest => do
    setMemory (← (← get).memory.write (.stack index) value)
    match slots.insert param (.stack index) with
    | .ok slots => placeArguments (index + 1) slots rest
    | .error error => fault error.toFault

def callNative (native : NativeMethod) (arity : Nat) : Exec Fault Unit := do
  if arity ≠ native.arity then fault (.arityMismatch native.name native.arity arity)
  let memory := (← get).memory
  let base ← memory.stack.base arity
  let values ← memory.read.ownedAll "argument" (memory.stack.above base)
  let slots ← placeArguments base .empty (native.params.zip values)
  modify fun p =>
    let result := p.host native.entry { slots, read := p.memory.read }
    p.mapStack fun stack => (stack.truncate base).push result

/-- What the name of a callee leads to. -/
def callee (scope : ScopeId) (name : Name) : Exec Fault Value := do
  let target ← resolve scope name
  let memory := (← get).memory
  memory.follow (← memory.fetch target)

/-- Replace the top `arity` elements by the result of a call. -/
def call (run : Body) (scope : ScopeId) (name : Name) (arity : Nat) : Exec Fault Flow := do
  match ← callee scope name with
  | .method method => callMethod run method arity
  | .native native => callNative native arity
  | value => fault (.notCallable value.kind)
  return .next

/-- Hand the top of the stack over and leave the block. -/
def ret : Exec Fault Flow := do
  let value ← ownedTop "return"
  pop
  modify ({ · with returned := value })
  return .ret

end ActionMachine.Exec
