/-
  Handles of cells and scopes. A handle carries the number of the store that issued it, so a
  handle of one program is never taken for a handle of another.
-/

namespace ActionMachine

/-- Identity of one arena or one scope tree. -/
structure StoreId where
  number : Nat
  deriving DecidableEq, Repr

/-- Owner of the two scopes that every tree has. No arena and no tree is given this number. -/
def StoreId.shared : StoreId := ⟨0⟩

/-- A cell of an arena. -/
structure CellId where
  arena : StoreId
  index : Nat
  deriving DecidableEq, Repr

/-- What a name is bound to and what a reference points at. -/
inductive CellRef where
  /-- A cell of an arena, which lives as long as its program. -/
  | static (cell : CellId)
  /-- A cell of the running calls. -/
  | frame (index : Nat)
  /-- A place on the operand stack, counted from the bottom. -/
  | stack (index : Nat)
  deriving DecidableEq, Repr

def CellRef.display : CellRef → String
  | .static cell => "static#" ++ toString cell.index
  | .frame index => "frame#" ++ toString index
  | .stack index => "stack#" ++ toString index

/-- A scope of a tree. -/
structure ScopeId where
  tree : StoreId
  index : Nat
  deriving DecidableEq, Repr

namespace ScopeId

/-- The scope that nothing resolves to. -/
def undefined : ScopeId := ⟨.shared, 0⟩

/-- The outermost scope. -/
def global : ScopeId := ⟨.shared, 1⟩

end ScopeId

/-- Number that a class is given when it is defined. -/
abbrev TypeId := Nat

end ActionMachine
