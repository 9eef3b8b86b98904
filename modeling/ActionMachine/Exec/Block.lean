import ActionMachine.Exec.Access
import ActionMachine.Exec.Compute
import ActionMachine.Exec.Declare
import ActionMachine.Exec.Invoke
import ActionMachine.Value.Action

/-
  Performing blocks of actions. A block stops at its first failure and after a `ret`. Bodies of
  namespaces and classes are parts of the action that opens them; the body of a called method is
  not, so calls are counted: `enter n` runs a body in which calls may nest `n - 1` deep.
-/

namespace ActionMachine.Exec

/-- Refuse an action that the operand stack cannot serve. -/
def checkOperands (action : Action) : Exec Fault Unit := do
  if action.hasZeroOffset then fault (.zeroOffset action.label)
  let depth := (← get).memory.stack.size
  if depth < action.operandArity then
    fault (.stackUnderflow action.label action.operandArity depth)

/-- The scope of a namespace that is opened. -/
def openNamespace (scope : ScopeId) (name : Name) : Exec Fault ScopeId := do
  let (id, scopes) ← (← get).scopes.defineNamespace scope name
  setScopes scopes
  return id

/-- The scope of a new class. A number is used up even if the name is taken. -/
def openClass (scope : ScopeId) (name : Name) : Exec Fault ScopeId := do
  modify fun p => { p with lastTypeId := p.lastTypeId + 1 }
  let (id, scopes) ← (← get).scopes.defineClass scope name (← get).lastTypeId
  setScopes scopes
  return id

/-- Run the body of a namespace or class; a `ret` inside ends only this body. -/
def inside (place : Place) (body : Exec Failure Flow) : Exec Fault Flow := do
  match ← settle body with
  | .ok _ => return .next
  | .error failure => fault (failure.within place)

mutual

/-- Perform an action in a scope, with `run` for the bodies of called methods. The operands are
taken to be there. -/
def perform (run : Body) (scope : ScopeId) : Action → Exec Fault Flow
  | .declareLocal name => declareLocal scope name
  | .declareConstant name value => declareConstant scope name value
  | .resolveLocal name => resolveLocal scope name
  | .resolveQualified nested name => resolveQualified scope nested name
  | .assignLocal name source => assignLocal scope name source
  | .pushLiteral value => pushLiteral value
  | .pop => do pop; return .next
  | .duplicate offset => duplicate offset
  | .swap offset => swap offset
  | .buildList len => buildList len
  | .unary op => unary op
  | .binary op => binary op
  | .binaryInPlace op => binaryInPlace op
  | .defineNamespace name body => do
    let id ← openNamespace scope name
    inside (.nameSpace name) (performAll run id 0 body)
  | .defineClass name body => do
    let id ← openClass scope name
    inside (.classBody name) (performAll run id 0 body)
  | .addStaticMember owner name value => addStaticMember scope owner name value
  | .addInstanceMember owner name value => addInstanceMember scope owner name value
  | .constructInstance owner => constructInstance scope owner
  | .loadMember object member => loadMember scope object member
  | .assignMember object member => assignMember scope object member
  | .defineMethod name params body => defineMethod scope name params body
  | .call name arity => call run scope name arity
  | .ret => ret
  | .debugPrint name => debugPrint scope name

/-- Perform the actions of a block from the one at `index` on. -/
def performAll (run : Body) (scope : ScopeId) (index : Nat) : List Action → Exec Failure Flow
  | [] => pure .next
  | action :: actions => do
    let flow ← report index action.label do
      checkOperands action
      perform run scope action
    match flow with
    | .next => performAll run scope (index + 1) actions
    | .ret => return .ret

end

/-- Run a body that may hold calls nested at most `n - 1` deep. -/
def enter : Nat → Body
  | 0 => fun _ _ => throw .unending
  | n + 1 => fun scope body => performAll (enter n) scope 0 body

/-- Perform one action without looking at its operands; `calls` bounds the nesting of calls. -/
def performOne (calls : Nat) (scope : ScopeId) (action : Action) : Exec Fault Flow :=
  perform (enter calls) scope action

/-- Perform a block; `calls` bounds the nesting of calls. -/
def block (calls : Nat) (scope : ScopeId) (actions : List Action) : Exec Failure Flow :=
  performAll (enter calls) scope 0 actions

/-- Run a block against a scope of this program. The answer is what it returned, or undefined; the
slot for it is emptied in any case. -/
def runIn (calls : Nat) (scope : ScopeId) (actions : List Action) : Exec Failure Value := do
  match (← get).scopes.check scope with
  | .error cause =>
    let action := (actions.head?.map Action.label).getD "Run"
    throw (.fault { index := 0, action, fault := cause })
  | .ok _ =>
    let outcome ← settle (block calls scope actions)
    let returned := (← get).returned
    modify ({ · with returned := .undefined })
    match outcome with
    | .ok _ => return returned
    | .error failure => throw (.fault failure)

/-- Run a block against the outermost scope. -/
def run (calls : Nat) (actions : List Action) : Exec Failure Value := runIn calls .global actions

end ActionMachine.Exec
