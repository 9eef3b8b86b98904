import ActionMachine.Decimal
import ActionMachine.Value.Basic

/-
  The text of a value on its own. Texts and characters stand in their quotes as they are, and
  a reference shows the cell it points at, not what the cell holds.
-/

namespace ActionMachine

/-- Items of a list, set in brackets. -/
def bracketed (items : List String) : String := "[" ++ ", ".intercalate items ++ "]"

/-- Members of an object, set in braces behind the name of its class. -/
def braced (className : Name) (members : List String) : String :=
  className ++ " \x7b" ++ ",".intercalate members ++ if members.isEmpty then "\x7d" else " \x7d"

def memberText (name : Name) (value : String) : String := " " ++ name ++ ": " ++ value

/-- A byte as two hexadecimal digits. -/
def byteText (b : UInt8) : String :=
  "0x" ++ String.ofList [Nat.digitChar (b.toNat / 16), Nat.digitChar (b.toNat % 16)]

mutual

def Value.display : Value → String
  | .int n => toString n.toInt
  | .uint n => toString n.toNat
  | .float x => Decimal.ofFloat x
  | .bool b => if b then "true" else "false"
  | .char c => "'" ++ c.toString ++ "'"
  | .byte b => byteText b
  | .view text => "\"" ++ text ++ "\""
  | .none => "none"
  | .undefined => "undefined"
  | .reference (some target) => "&" ++ target.display
  | .reference none => "&null"
  | .str text => "\"" ++ text ++ "\""
  | .scope s => "<" ++ s.kind.text ++ " " ++ s.name ++ ">"
  | .object o => o.display
  | .method m => "<method " ++ m.name ++ "/" ++ toString m.arity ++ ">"
  | .native m => "<native " ++ m.name ++ "/" ++ toString m.arity ++ ">"
  | .list items => bracketed (Value.displayItems items)

def Value.displayItems : List Value → List String
  | [] => []
  | item :: items => item.display :: Value.displayItems items

def Object.display : Object → String
  | ⟨_, className, _, members, _⟩ => braced className (Object.displayMembers members)

def Object.displayMembers : List Member → List String
  | [] => []
  | ⟨name, value⟩ :: members => memberText name value.display :: Object.displayMembers members

end

end ActionMachine
