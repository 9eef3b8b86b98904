import ActionMachine.Fault

/-
  The tree of scopes of one program. Scopes stand in one row; a scope is pushed after its
  parent. Names resolve from a scope outwards along its parents. Only the scopes of calls are
  ever taken away, and only above the last scope that something keeps alive.
-/

namespace ActionMachine

structure ScopeTree where
  id : StoreId
  scopes : Array Scope := #[.undefined, .global]
  /-- Scopes below this index stay for good. -/
  retained : Nat := 2

namespace ScopeTree

def size (t : ScopeTree) : Nat := t.scopes.size

/-- Whether a handle addresses a live scope of this tree. -/
def owns (t : ScopeTree) (id : ScopeId) : Bool :=
  if id.tree = .shared then id.index < 2 else id.tree = t.id && id.index < t.size

def check (t : ScopeTree) (id : ScopeId) : Except Fault ScopeId :=
  if t.owns id then .ok id else .error (.foreignScope id)

def get? (t : ScopeTree) (id : ScopeId) : Option Scope :=
  if t.owns id then t.scopes[id.index]? else none

/-- The scope of a live handle. -/
def get (t : ScopeTree) (id : ScopeId) : Except Violation Scope :=
  match t.get? id with
  | some scope => .ok scope
  | none => .error (.deadScope id.index)

def set (t : ScopeTree) (id : ScopeId) (scope : Scope) : ScopeTree :=
  { t with scopes := t.scopes.setIfInBounds id.index scope }

def parent (t : ScopeTree) (id : ScopeId) : Except Violation ScopeId := return (← t.get id).parent

def containsLocal (t : ScopeTree) (id : ScopeId) (name : Name) : Except Violation Bool :=
  return (← t.get id).locals.contains name

def addLocal (t : ScopeTree) (id : ScopeId) (name : Name) (target : CellRef) :
    Except (Stop Fault) ScopeTree := do
  let scope ← t.get id
  return t.set id (← scope.addLocal name target)

/-- What `f` finds in the first scope on the way out from `id` in which it finds something. -/
def searchWithin {α : Type} (t : ScopeTree) (f : Scope → Except Violation (Option α)) :
    Nat → ScopeId → Except (Stop Fault) (Option α)
  | 0, _ => .error .unending
  | steps + 1, id => do
    let scope ← t.get id
    match ← f scope with
    | some found => return some found
    | none => if scope.parent = id then return none else searchWithin t f steps scope.parent

/-- The undefined scope is the one place to start from that has no way out. A way that meets no
scope twice passes through each live handle at most once, the two shared ones included, so a
longer one has no end. -/
def search {α : Type} (t : ScopeTree) (f : Scope → Except Violation (Option α))
    (start : ScopeId) : Except (Stop Fault) (Option α) :=
  if start = .undefined then return none else t.searchWithin f (t.size + 3) start

/-- The cell that `name` means in the scope `start`. -/
def resolve (t : ScopeTree) (start : ScopeId) (name : Name) : Except (Stop Fault) CellRef := do
  match ← t.search (·.findLocal? name) start with
  | some target => return target
  | none => throw (.fault (.notDeclared name))

/-- As `resolve`, for a name that the caller knows to be visible. -/
def resolveVisible (t : ScopeTree) (start : ScopeId) (name : Name) :
    Except (Stop Fault) CellRef := do
  let declaring (scope : Scope) : Except Violation (Option Scope) :=
    return if scope.locals.contains name then some scope else none
  match ← t.search declaring start with
  | some scope => scope.findBoundLocal name
  | none => throw (.breach (.notVisible name))

/-- The namespace or class that `name` means in the scope `start`. -/
def resolveScope (t : ScopeTree) (start : ScopeId) (name : Name) :
    Except (Stop Fault) ScopeId := do
  match ← t.search (fun scope => return scope.nested? name) start with
  | some id => return id
  | none => throw (.fault (.scopeNotDeclared name))

def resolveClass (t : ScopeTree) (start : ScopeId) (name : Name) :
    Except (Stop Fault) ScopeId := do
  let id ← t.resolveScope start name
  let scope ← t.get id
  if scope.isClass then return id else throw (.fault (.notAClass name scope.kind.text))

def push (t : ScopeTree) (scope : Scope) : ScopeId × ScopeTree :=
  (⟨t.id, t.size⟩, { t with scopes := t.scopes.push scope })

/-- Keep a scope, and all pushed before it, for good. -/
def retain (t : ScopeTree) (id : ScopeId) : ScopeTree :=
  { t with retained := max t.retained (id.index + 1) }

/-- Push a scope for good and enter its name in its parent. -/
def declare (t : ScopeTree) (parent : ScopeId) (name : Name) (scope : Scope) :
    Except Violation (ScopeId × ScopeTree) := do
  let (id, t) := t.push scope
  let t := t.retain id
  let owner ← t.get parent
  return (id, t.set parent (owner.addNested name id))

/-- The namespace `name` inside `parent`, made if it is new. -/
def defineNamespace (t : ScopeTree) (parent : ScopeId) (name : Name) :
    Except (Stop Fault) (ScopeId × ScopeTree) := do
  let owner ← t.get parent
  match owner.nested? name with
  | some id =>
    let existing ← t.get id
    if existing.kind.isNameSpace then return (id, t)
    else throw (.fault (.scopeRedefinition name existing.kind.text))
  | none => t.declare parent name (.nameSpace name parent)

/-- A new class `name` inside `parent`. -/
def defineClass (t : ScopeTree) (parent : ScopeId) (name : Name) (typeId : TypeId) :
    Except (Stop Fault) (ScopeId × ScopeTree) := do
  let owner ← t.get parent
  match owner.nested? name with
  | some id => throw (.fault (.scopeRedefinition name (← t.get id).kind.text))
  | none => t.declare parent name (.classNamed name parent typeId)

/-- Add a member to the template of a class. -/
def addInstanceMember (t : ScopeTree) (id : ScopeId) (name : Name) (target : CellRef) :
    Except (Stop Fault) ScopeTree := do
  let scope ← t.get id
  match scope.template? with
  | none => throw (.fault (.notAClass scope.name scope.kind.text))
  | some template => return t.set id (scope.setTemplate (← template.insert name target))

/-- Push the scope of a call of `method`, inside the scope that the method was defined in. -/
def pushCallScope (t : ScopeTree) (lexical : ScopeId) (method : Name) : ScopeId × ScopeTree :=
  t.push (.call method lexical)

/-- Take the scope of a finished call away, with all scopes above it, unless it is kept for
good. The flag tells whether it was taken away. -/
def releaseCallScope (t : ScopeTree) (id : ScopeId) : Except Violation (Bool × ScopeTree) := do
  let scope ← t.get id
  if !scope.kind.isCall then .error (.notCallScope id.index)
  else if id.index < t.retained then return (false, t)
  else return (true, { t with scopes := t.scopes.shrink id.index })

end ScopeTree

end ActionMachine
