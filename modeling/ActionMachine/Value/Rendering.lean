import ActionMachine.Reader
import ActionMachine.Value.Printer

/-
  The text of a value with its references followed, also inside lists and objects, written piece by
  piece to the end of an output. A reference that leads nowhere is shown as itself. A list that
  holds a reference to itself has no finite text; `write?` is given the number of references that
  may be opened inside one another and answers `none` when they do not suffice.
-/

namespace ActionMachine.Value

mutual

/-- Write a value to the end of `out`, where `opened` writes what a reference leads to. -/
def writeWith (read : Reader) (opened : String → Value → Option String) :
    String → Value → Option String
  | out, .reference target =>
    match read.follow (.reference target) with
    | .ok value => opened out value
    | .error _ => some (out ++ display (.reference target))
  | out, .list items => do
    let out ← writeItems read opened 0 (out ++ "[") items
    return out ++ "]"
  | out, .object ⟨_, className, _, members, _⟩ => do
    let out ← writeMembers read opened 0 (out ++ className ++ " \x7b") members
    return out ++ if members.isEmpty then "\x7d" else " \x7d"
  | out, value => some (out ++ value.display)

/-- Write the items of a list from the one at `index` on. -/
def writeItems (read : Reader) (opened : String → Value → Option String) :
    Nat → String → List Value → Option String
  | _, out, [] => some out
  | index, out, item :: items => do
    let out := if index > 0 then out ++ ", " else out
    let out ← writeWith read opened out item
    writeItems read opened (index + 1) out items

/-- Write the members of an object from the one at `index` on. -/
def writeMembers (read : Reader) (opened : String → Value → Option String) :
    Nat → String → List Member → Option String
  | _, out, [] => some out
  | index, out, ⟨name, value⟩ :: members => do
    let out := if index > 0 then out ++ "," else out
    let out ← writeWith read opened (out ++ " " ++ name ++ ": ") value
    writeMembers read opened (index + 1) out members

end

/-- Write a value to the end of `out` with at most `depth` references opened inside one another. -/
def write? (read : Reader) : Nat → String → Value → Option String
  | 0 => writeWith read fun _ _ => .none
  | depth + 1 => writeWith read (write? read depth)

/-- Text of a value with at most `depth` references opened inside one another. -/
def render? (read : Reader) (depth : Nat) (value : Value) : Option String :=
  write? read depth "" value

end ActionMachine.Value
