import ActionMachine.Program

/-
  Computations on a program. What was done before a computation stopped stays done.
-/

namespace ActionMachine

/-- A computation that may stop with a fault of type `ε`. -/
abbrev Exec (ε : Type) := EStateM (Stop ε) Program

/-- How an action leaves its block. -/
inductive Flow where
  | next
  /-- The rest of the block is skipped. -/
  | ret
  deriving DecidableEq, Repr

def Flow.text : Flow → String
  | .next => "Continue"
  | .ret => "Return"

namespace Exec

variable {ε δ α : Type}

def fault (f : Fault) : Exec Fault α := throw (.fault f)

instance : MonadLift (Except (Stop ε)) (Exec ε) where
  monadLift
    | .ok a => pure a
    | .error stop => throw stop

/-- Turn a fault into a result; other stops go on. -/
def settle (x : Exec ε α) : Exec δ (Except ε α) := fun p =>
  match x p with
  | .ok a p => .ok (.ok a) p
  | .error (.fault cause) p => .ok (.error cause) p
  | .error (.breach violation) p => .error (.breach violation) p
  | .error .unending p => .error .unending p

/-- Report a fault of the action at `index` of its block. -/
def report (index : Nat) (action : String) (x : Exec Fault α) : Exec Failure α := fun p =>
  match x p with
  | .ok a p => .ok a p
  | .error stop p => .error (stop.map (Failure.mk index action)) p

def push (value : Value) : Exec ε Unit := modify (·.mapStack (·.push value))

/-- Replace the stack by what `f` makes of it. -/
def onStack (f : Operands → Except (Stop ε) Operands) : Exec ε Unit := do
  let stack ← f (← get).memory.stack
  modify (·.mapStack fun _ => stack)

def pop : Exec ε Unit := onStack fun stack => stack.pop

/-- The value to store for `value`; see `Reader.owned`. -/
def owned (op : String) (value : Value) : Exec Fault Value := do
  (← get).memory.owned op value

/-- As `owned`, on the top of the stack, which stays where it is. -/
def ownedTop (op : String) : Exec Fault Value := do
  owned op (← (← get).memory.stack.top)

def resolve (scope : ScopeId) (name : Name) : Exec Fault CellRef := do
  (← get).scopes.resolve scope name

def allocate (value : Value) (constant : Bool) : Exec ε CellRef :=
  modifyGet fun p =>
    let (target, memory) := p.memory.allocate value constant
    (target, { p with memory })

def allocateFrame (value : Value) (constant : Bool) : Exec ε CellRef :=
  modifyGet fun p =>
    let (target, memory) := p.memory.allocateFrame value constant
    (target, { p with memory })

def setMemory (memory : Memory) : Exec ε Unit := modify ({ · with memory })

def setScopes (scopes : ScopeTree) : Exec ε Unit := modify ({ · with scopes })

end Exec

end ActionMachine
