import ActionMachine.SlotSet

/-
  Declaration scopes. A scope holds its locals and the names of the scopes declared inside it;
  a class also holds the template that its objects are filled from. Parents and nested scopes
  are handles into the tree that owns them.
-/

namespace ActionMachine

/-- What a class adds to a scope: its number and the cells that new objects copy. -/
structure ClassLayout where
  typeId : TypeId
  template : SlotSet := .empty

instance : BEq ClassLayout where
  beq a b := a.typeId == b.typeId && a.template == b.template

inductive ScopeKind where
  | undefined
  | global
  | nameSpace
  | classScope
  /-- The scope of one running call. -/
  | call
  deriving DecidableEq, Repr

namespace ScopeKind

def text : ScopeKind → String
  | .undefined => "undefined"
  | .global => "global"
  | .nameSpace => "namespace"
  | .classScope => "class"
  | .call => "call"

def isCall : ScopeKind → Bool
  | .call => true
  | _ => false

def isNameSpace : ScopeKind → Bool
  | .nameSpace => true
  | _ => false

end ScopeKind

structure Scope where
  kind : ScopeKind
  name : Name
  parent : ScopeId
  locals : SlotSet := .empty
  nested : Std.TreeMap Name ScopeId := {}
  /-- Only classes have one. -/
  layout? : Option ClassLayout := none

namespace Scope

/-- The scope that nothing resolves to, its own parent. -/
def undefined : Scope := { kind := .undefined, name := .reserved, parent := .undefined }

/-- The outermost scope, its own parent. -/
def global : Scope := { kind := .global, name := "global", parent := .global }

def nameSpace (name : Name) (parent : ScopeId) : Scope := { kind := .nameSpace, name, parent }

def classNamed (name : Name) (parent : ScopeId) (typeId : TypeId) : Scope :=
  { kind := .classScope, name, parent, layout? := some { typeId } }

/-- The scope of a call of `method`, inside the scope that the method was defined in. -/
def call (method : Name) (lexical : ScopeId) : Scope :=
  { kind := .call, name := method, parent := lexical }

def isClass (s : Scope) : Bool := s.layout?.isSome

def template? (s : Scope) : Option SlotSet := s.layout?.map (·.template)

/-- The scope with another template, if it has one. -/
def setTemplate (s : Scope) (template : SlotSet) : Scope :=
  { s with layout? := s.layout?.map ({ · with template }) }

def addLocal (s : Scope) (name : Name) (target : CellRef) : Except SlotError Scope := do
  let locals ← s.locals.insert name target
  return { s with locals }

def findLocal? (s : Scope) (name : Name) : Except Violation (Option CellRef) :=
  return (← s.locals.find? name).map (·.target)

def findLocal (s : Scope) (name : Name) : Except (Stop SlotError) CellRef :=
  return (← s.locals.find name).target

/-- As `findLocal`, for a name that the caller knows to be declared here. -/
def findBoundLocal (s : Scope) (name : Name) : Except Violation CellRef :=
  return (← s.locals.findBound name).target

def nested? (s : Scope) (name : Name) : Option ScopeId := s.nested[name]?

def addNested (s : Scope) (name : Name) (id : ScopeId) : Scope :=
  { s with nested := s.nested.insert name id }

instance : BEq Scope where
  beq a b := a.kind == b.kind && a.name == b.name && a.parent == b.parent &&
    a.locals == b.locals && a.nested == b.nested && a.layout? == b.layout?

end Scope

end ActionMachine
