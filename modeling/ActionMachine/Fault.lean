import ActionMachine.Value.Basic

/-
  Why an action failed. A fault names its cause; the code and the message are read off it. A
  fault inside the body of a namespace, class or method is kept whole, with the place and the
  action that it came from.
-/

namespace ActionMachine

inductive ErrorCode where
  | noError
  | undefinedValueOperation
  | nullReferenceOperation
  | variableAlreadyDeclared
  | variableNotDeclared
  | notImplemented
  | scopeNotDeclared
  | scopeRedefinition
  | constantAssignment
  | divisionByZero
  | typeMismatch
  | notCallable
  | arityMismatch
  | recursionLimitExceeded
  | stackUnderflow
  deriving DecidableEq, Repr

def ErrorCode.text : ErrorCode → String
  | .noError => "NoError"
  | .undefinedValueOperation => "UndefinedValueOperation"
  | .nullReferenceOperation => "NullReferenceOperation"
  | .variableAlreadyDeclared => "VariableAlreadyDeclared"
  | .variableNotDeclared => "VariableNotDeclared"
  | .notImplemented => "NotImplemented"
  | .scopeNotDeclared => "ScopeNotDeclared"
  | .scopeRedefinition => "ScopeRedefinition"
  | .constantAssignment => "ConstantAssignment"
  | .divisionByZero => "DivisionByZero"
  | .typeMismatch => "TypeMismatch"
  | .notCallable => "NotCallable"
  | .arityMismatch => "ArityMismatch"
  | .recursionLimitExceeded => "RecursionLimitExceeded"
  | .stackUnderflow => "StackUnderflow"

/-- A body that actions run in, such as the namespace called `n`. -/
structure Place where
  sort : String
  name : Name
  deriving DecidableEq, Repr

namespace Place

def nameSpace (name : Name) : Place := ⟨"namespace", name⟩

def classBody (name : Name) : Place := ⟨"class", name⟩

def method (name : Name) : Place := ⟨"method", name⟩

def text (place : Place) : String := place.sort ++ " `" ++ place.name ++ "`"

end Place

inductive Fault where
  | undefinedOperand (op : String)
  | nullReference
  | danglingReference (target : CellRef)
  | chainTooLong (hops : Nat)
  | notImplemented (op : String) (kind : ValueKind)
  | divisionByZero
  | typeMismatch (expected : String) (found : ValueKind)
  | alreadyDeclared (name : Name)
  | notDeclared (name : Name)
  | scopeNotDeclared (name : Name)
  | foreignScope (id : ScopeId)
  | scopeRedefinition (name : Name) (existing : String)
  | notAClass (name : Name) (kind : String)
  | constantAssignment (target : CellRef)
  | notCallable (kind : ValueKind)
  | arityMismatch (name : Name) (expected got : Nat)
  | recursionLimit (limit : Nat)
  | stackUnderflow (action : String) (needed depth : Nat)
  | zeroOffset (action : String)
  /-- The action at `index` of the body of `place` failed. -/
  | within (place : Place) (index : Nat) (action : String) (cause : Fault)
  deriving DecidableEq, Repr

namespace Fault

def code : Fault → ErrorCode
  | .undefinedOperand _ => .undefinedValueOperation
  | .nullReference | .danglingReference _ | .chainTooLong _ => .nullReferenceOperation
  | .notImplemented _ _ => .notImplemented
  | .divisionByZero => .divisionByZero
  | .typeMismatch _ _ | .notAClass _ _ => .typeMismatch
  | .alreadyDeclared _ => .variableAlreadyDeclared
  | .notDeclared _ => .variableNotDeclared
  | .scopeNotDeclared _ | .foreignScope _ => .scopeNotDeclared
  | .scopeRedefinition _ _ => .scopeRedefinition
  | .constantAssignment _ => .constantAssignment
  | .notCallable _ => .notCallable
  | .arityMismatch _ _ _ => .arityMismatch
  | .recursionLimit _ => .recursionLimitExceeded
  | .stackUnderflow _ _ _ | .zeroOffset _ => .stackUnderflow
  | .within _ _ _ cause => cause.code

def message : Fault → String
  | .undefinedOperand op => "undefined value used as operand of `" ++ op ++ "`"
  | .nullReference => "dereferenced a null reference"
  | .danglingReference target =>
    "reference to " ++ target.display ++ " does not address a live cell"
  | .chainTooLong hops => "reference chain exceeds " ++ toString hops ++ " hops"
  | .notImplemented op kind => "operator `" ++ op ++ "` is not implemented for " ++ kind.text
  | .divisionByZero => "integer division by zero"
  | .typeMismatch expected found => "expected " ++ expected ++ ", found " ++ found.text
  | .alreadyDeclared name => "`" ++ name ++ "` is already declared in this scope"
  | .notDeclared name => "`" ++ name ++ "` is not declared"
  | .scopeNotDeclared name => "no namespace or class named `" ++ name ++ "` is visible"
  | .foreignScope id => "scope #" ++ toString id.index ++ " was not issued by this program"
  | .scopeRedefinition name existing => "`" ++ name ++ "` is already defined as a " ++ existing
  | .notAClass name kind => "`" ++ name ++ "` is a " ++ kind ++ ", not a class"
  | .constantAssignment target => "cell " ++ target.display ++ " holds a constant"
  | .notCallable kind => kind.text ++ " is not callable"
  | .arityMismatch name expected got =>
    "`" ++ name ++ "` takes " ++ toString expected ++ " argument(s), " ++ toString got ++
      " supplied"
  | .recursionLimit limit => "call depth limit of " ++ toString limit ++ " exceeded"
  | .stackUnderflow action needed depth =>
    action ++ " needs " ++ toString needed ++ " operand(s), stack holds " ++ toString depth
  | .zeroOffset action => action ++ " offsets count from 1 at the top"
  | .within place index action cause =>
    "in " ++ place.text ++ ", action #" ++ toString index ++ " (" ++ action ++ "): " ++
      cause.message

def display (f : Fault) : String := f.code.text ++ ": " ++ f.message

end Fault

/-- A name bound twice or not at all is a fault of the declaration. -/
def SlotError.toFault : SlotError → Fault
  | .alreadyPresent name => .alreadyDeclared name
  | .missing name => .notDeclared name

/-- The first action of a block that failed. -/
structure Failure where
  index : Nat
  action : String
  fault : Fault
  deriving DecidableEq, Repr

namespace Failure

def display (f : Failure) : String :=
  "action #" ++ toString f.index ++ " (" ++ f.action ++ ") failed: " ++ f.fault.display

/-- The failure of a body as a fault of the action that ran it. -/
def within (f : Failure) (place : Place) : Fault := .within place f.index f.action f.fault

end Failure

/-- The code of an outcome. -/
def ErrorCode.of {α : Type} : Except Fault α → ErrorCode
  | .ok _ => .noError
  | .error fault => fault.code

instance : MonadLift (Except Fault) (Except (Stop Fault)) where
  monadLift
    | .ok a => .ok a
    | .error fault => .error (.fault fault)

instance : MonadLift (Except SlotError) (Except (Stop Fault)) where
  monadLift
    | .ok a => .ok a
    | .error error => .error (.fault error.toFault)

end ActionMachine
