import ActionMachine.Text.Unprinted

/-
  Quoted text for diagnostics. Quotes, backslashes and the common control characters get a
  short escape; every other character that does not print on its own is written by its number
  in hexadecimal. An apostrophe stays as it is.
-/

namespace ActionMachine.Text

/-- The hexadecimal form of a character, such as `7f` in braces. -/
def numbered (c : Char) : List Char :=
  ['\\', 'u', '\x7b'] ++ Nat.toDigits 16 c.toNat ++ ['\x7d']

def escape (c : Char) : List Char :=
  if c = '"' then ['\\', '"']
  else if c = '\\' then ['\\', '\\']
  else if c = '\n' then ['\\', 'n']
  else if c = '\t' then ['\\', 't']
  else if c = '\r' then ['\\', 'r']
  else if c = '\x00' then ['\\', '0']
  else if isUnprinted c then numbered c
  else [c]

def quoted (s : String) : String :=
  "\"" ++ String.ofList (s.toList.flatMap escape) ++ "\""

end ActionMachine.Text
