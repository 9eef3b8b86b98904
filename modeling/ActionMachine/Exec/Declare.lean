import ActionMachine.Exec.Basic

/-
  Actions that declare: variables, constants, members of classes and methods. What is stored
  for a literal is what it leads to, never a reference.
-/

namespace ActionMachine.Exec

/-- Bind `name` in `scope` to a new cell: one of the frame inside a call, else one of the arena.
A name that is taken is refused before anything is allocated. -/
def bindNew (scope : ScopeId) (name : Name) (value : Value) (constant : Bool) :
    Exec Fault CellRef := do
  let owner ← (← get).scopes.get scope
  if owner.locals.contains name then fault (.alreadyDeclared name)
  let target ← if owner.kind.isCall then allocateFrame value constant else allocate value constant
  setScopes (← (← get).scopes.addLocal scope name target)
  return target

def declareLocal (scope : ScopeId) (name : Name) : Exec Fault Flow := do
  let _ ← bindNew scope name .undefined false
  return .next

def declareConstant (scope : ScopeId) (name : Name) (value : Value) : Exec Fault Flow := do
  let value ← owned "const" value
  let _ ← bindNew scope name value true
  return .next

def addStaticMember (scope : ScopeId) (owner name : Name) (value : Value) : Exec Fault Flow := do
  let id ← (← get).scopes.resolveClass scope owner
  let value ← owned "static member" value
  let _ ← bindNew id name value false
  return .next

/-- Add a member to the template of a class. New objects start with what its cell holds. -/
def addInstanceMember (scope : ScopeId) (owner name : Name) (value : Value) :
    Exec Fault Flow := do
  let id ← (← get).scopes.resolveClass scope owner
  let value ← owned "instance member" value
  let declared := (← (← get).scopes.get id).template?.any (·.contains name)
  if declared then fault (.alreadyDeclared name)
  let target ← allocate value false
  setScopes (← (← get).scopes.addInstanceMember id name target)
  return .next

/-- Give each parameter a constant cell with its default, or with nothing if it has none. -/
def bindDefaults (slots : SlotSet) : List Parameter → Exec Fault SlotSet
  | [] => pure slots
  | param :: params => do
    let default ← match param.default with
      | some value => owned "default" value
      | none => pure .undefined
    let target ← allocate default true
    match slots.insert param.name target with
    | .ok slots => bindDefaults slots params
    | .error error => fault error.toFault

/-- Bind a method. It keeps the scope it is defined in alive. -/
def defineMethod (scope : ScopeId) (name : Name) (params : List Parameter) (body : List Action) :
    Exec Fault Flow := do
  let slots ← bindDefaults .empty params
  let _ ← bindNew scope name (.method { name, params := slots, scope, body }) false
  setScopes ((← get).scopes.retain scope)
  return .next

/-- Bind a native method in the outermost scope. -/
def registerNative (native : NativeMethod) : Exec Fault CellRef := do
  if ← (← get).scopes.containsLocal .global native.name then fault (.alreadyDeclared native.name)
  let target ← allocate (.native native) true
  setScopes (← (← get).scopes.addLocal .global native.name target)
  return target

end ActionMachine.Exec
