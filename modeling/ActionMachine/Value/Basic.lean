import ActionMachine.Operator
import ActionMachine.Scope

/-
  The values that the machine computes with, and the actions that it performs. The two types
  meet: an action may hold a value as its literal, and a method is a value that holds actions.
  Values are trees without sharing; the only way to point elsewhere is a reference to a cell.
-/

namespace ActionMachine

/-- A method implemented outside the machine. `entry` selects the function in the host's table. -/
structure NativeMethod where
  name : Name
  params : List Name
  entry : String
  deriving DecidableEq, Repr

mutual

inductive Value where
  | int (n : Int64)
  | uint (n : UInt64)
  | float (x : Float)
  | bool (b : Bool)
  | char (c : Char)
  | byte (b : UInt8)
  /-- Text that is part of the program. -/
  | view (text : String)
  /-- The empty value, neutral for every operator. -/
  | none
  /-- What a cell holds before its first assignment. -/
  | undefined
  /-- A pointer to a cell, or to nothing. -/
  | reference (target : Option CellRef)
  | str (text : String)
  | scope (scope : Scope)
  | object (object : Object)
  | method (method : Method)
  | native (native : NativeMethod)
  | list (items : List Value)

structure Member where
  name : Name
  value : Value

/-- An instance of a class. The index leads from a name to the first member of that name. -/
structure Object where
  classScope : ScopeId
  className : Name
  typeId : TypeId
  members : List Member
  index : Std.TreeMap Name Nat

/-- A method of the program. Each parameter is bound to the cell of its default, and names in the
body resolve from `scope`. -/
structure Method where
  name : Name
  params : SlotSet
  scope : ScopeId
  body : List Action

/-- Where an assignment takes its value from. -/
inductive Operand where
  | pop
  | literal (value : Value)

structure Parameter where
  name : Name
  default : Option Value

inductive Action where
  | declareLocal (name : Name)
  | declareConstant (name : Name) (value : Value)
  /-- Push a reference to the cell of `name`. -/
  | resolveLocal (name : Name)
  /-- Push a reference to the cell of `name` in the nested scope `scope`. -/
  | resolveQualified (scope name : Name)
  | assignLocal (name : Name) (source : Operand)
  | pushLiteral (value : Value)
  | pop
  /-- Push a copy of the element `offset` places from the top, the top being 1. -/
  | duplicate (offset : Nat)
  | swap (offset : Nat)
  | buildList (len : Nat)
  | unary (op : UnaryOp)
  | binary (op : BinaryOp)
  /-- As `binary`, with the result put where the left operand was. -/
  | binaryInPlace (op : BinaryOp)
  | defineNamespace (name : Name) (body : List Action)
  | defineClass (name : Name) (body : List Action)
  | addStaticMember (owner name : Name) (value : Value)
  | addInstanceMember (owner name : Name) (value : Value)
  | constructInstance (owner : Name)
  | loadMember (object member : Name)
  | assignMember (object member : Name)
  | defineMethod (name : Name) (params : List Parameter) (body : List Action)
  | call (callee : Name) (arity : Nat)
  | ret
  | debugPrint (name : Name)

end

inductive ValueKind where
  | int | uint | float | bool | char | byte | view | none | undefined | reference
  | str | scope | object | method | native | list
  deriving DecidableEq, Repr

namespace ValueKind

def text : ValueKind → String
  | .int => "int"
  | .uint => "uint"
  | .float => "float"
  | .bool => "bool"
  | .char => "char"
  | .byte => "byte"
  | .view => "str_view"
  | .none => "none"
  | .undefined => "undefined"
  | .reference => "reference"
  | .str => "str"
  | .scope => "scope"
  | .object => "object"
  | .method => "method"
  | .native => "native_method"
  | .list => "list"

/-- Kinds that an action can hold without storage of their own. -/
def isLiteral : ValueKind → Bool
  | .int | .uint | .float | .bool | .char | .byte | .view | .none | .undefined | .reference => true
  | .str | .scope | .object | .method | .native | .list => false

end ValueKind

namespace Method

def arity (m : Method) : Nat := m.params.size

end Method

namespace NativeMethod

def arity (m : NativeMethod) : Nat := m.params.length

/-- The method as diagnostics show it, without its function. -/
def debug (m : NativeMethod) : String :=
  "NativeMethod \x7b name: " ++ m.name.debug ++ ", params: [" ++
    ", ".intercalate (m.params.map Name.debug) ++ "], .. \x7d"

end NativeMethod

namespace Value

instance : Inhabited Value := ⟨.undefined⟩

def kind : Value → ValueKind
  | .int _ => .int
  | .uint _ => .uint
  | .float _ => .float
  | .bool _ => .bool
  | .char _ => .char
  | .byte _ => .byte
  | .view _ => .view
  | .none => .none
  | .undefined => .undefined
  | .reference _ => .reference
  | .str _ => .str
  | .scope _ => .scope
  | .object _ => .object
  | .method _ => .method
  | .native _ => .native
  | .list _ => .list

def isUndefined : Value → Bool
  | .undefined => true
  | _ => false

def object? : Value → Option Object
  | .object o => some o
  | _ => Option.none

def list? : Value → Option (List Value)
  | .list items => some items
  | _ => Option.none

def text? : Value → Option String
  | .str text => some text
  | .view text => some text
  | _ => Option.none

end Value

namespace Object

/-- Each name with the position of its first member. -/
def indexOf (members : List Member) : Std.TreeMap Name Nat :=
  members.zipIdx.foldl (fun index (member, position) => index.insertIfNew member.name position) {}

def ofMembers (classScope : ScopeId) (className : Name) (typeId : TypeId)
    (members : List Member) : Object :=
  { classScope, className, typeId, members, index := indexOf members }

def size (o : Object) : Nat := o.members.length

def isEmpty (o : Object) : Bool := o.members.isEmpty

def member? (o : Object) (name : Name) : Option Value := do
  let position ← o.index[name]?
  let member ← o.members[position]?
  return member.value

/-- The object with another value in the member that `member?` finds. -/
def setMember? (o : Object) (name : Name) (value : Value) : Option Object := do
  let position ← o.index[name]?
  let member ← o.members[position]?
  return { o with members := o.members.set position { member with value } }

end Object

end ActionMachine
