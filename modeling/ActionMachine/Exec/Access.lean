import ActionMachine.Exec.Basic

/-
  Actions that use declarations: references to variables, assignments, objects and their
  members, and lines that show a variable.
-/

namespace ActionMachine.Exec

def resolveLocal (scope : ScopeId) (name : Name) : Exec Fault Flow := do
  let target ← resolve scope name
  push (.reference (some target))
  return .next

/-- The name must be declared in the nested scope itself, not further out. -/
def resolveQualified (scope : ScopeId) (nested name : Name) : Exec Fault Flow := do
  let id ← (← get).scopes.resolveScope scope nested
  let owner ← (← get).scopes.get id
  let target ← (owner.findLocal name).mapError (Stop.map SlotError.toFault)
  push (.reference (some target))
  return .next

/-- The variable is looked up first, then the value; only a stored value leaves the stack. -/
def assignLocal (scope : ScopeId) (name : Name) (source : Operand) : Exec Fault Flow := do
  let target ← resolve scope name
  let value ← match source with
    | .pop => ownedTop "="
    | .literal value => owned "=" value
  setMemory (← (← get).memory.write target value)
  match source with
  | .pop => pop
  | .literal _ => pure ()
  return .next

/-- Name and current value of each member of a template. -/
def templateMembers (memory : Memory) (template : SlotSet) : Except Fault (List Member) :=
  template.slots.toList.mapM fun slot => return ⟨slot.name, ← memory.fetch slot.target⟩

/-- Push a new object, filled from the template of its class. -/
def constructInstance (scope : ScopeId) (owner : Name) : Exec Fault Flow := do
  let p ← get
  let id ← p.scopes.resolveClass scope owner
  let classScope ← p.scopes.get id
  match classScope.layout? with
  | none => fault (.notAClass owner classScope.kind.text)
  | some layout =>
    let members ← templateMembers p.memory layout.template
    push (.object (.ofMembers id classScope.name layout.typeId members))
    return .next

/-- The cell that holds the object of a variable. -/
def objectCell (scope : ScopeId) (object : Name) : Exec Fault CellRef := do
  let bound ← resolve scope object
  (← get).memory.resolve bound

def loadMember (scope : ScopeId) (object member : Name) : Exec Fault Flow := do
  let target ← objectCell scope object
  let holder ← (← get).memory.fetch target
  match holder.object? with
  | none => fault (.typeMismatch "object" holder.kind)
  | some object =>
    match object.member? member with
    | none => fault (.notDeclared member)
    | some value => push value
  return .next

/-- The value with another value in one of its members. -/
def withMember (member : Name) (value holder : Value) : Except Fault Value :=
  match holder.object? with
  | none => .error (.typeMismatch "object" holder.kind)
  | some object =>
    match object.setMember? member value with
    | none => .error (.notDeclared member)
    | some object => .ok (.object object)

def assignMember (scope : ScopeId) (object member : Name) : Exec Fault Flow := do
  let target ← objectCell scope object
  let value ← ownedTop "="
  setMemory (← (← get).memory.update target (withMember member value))
  pop
  return .next

/-- Print a variable and its value. -/
def debugPrint (scope : ScopeId) (name : Name) : Exec Fault Flow := do
  let target ← resolve scope name
  let value ← (← get).memory.fetch target
  match (← get).memory.render? value with
  | none => throw .unending
  | some text =>
    modify fun p => { p with sink := p.sink.println (name ++ " = " ++ text) }
    return .next

end ActionMachine.Exec
