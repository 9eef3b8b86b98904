import ActionMachine.Text.Escaped

/-
  Names of declarations, members and parameters. Names are texts, compared by content and
  ordered by code point. One symbol is kept back for the scope that nothing resolves to.
-/

namespace ActionMachine

abbrev Name := String

namespace Name

/-- The symbol that names the undefined scope. -/
def reserved : Name := "#"

def isReserved (n : Name) : Bool := n == reserved

/-- The name as diagnostics show it. -/
def debug (n : Name) : String := "Name(" ++ Text.quoted n ++ ")"

end Name

end ActionMachine
