import ActionMachine.Fault

/-
  Walking references. A reader tells what each live cell holds; `follow` goes from a value to
  the value that its references lead to, and `resolve` from a cell to the cell that holds it. A
  walk that meets only references gives up after `maxHops` values, so a ring of references ends
  too.
-/

namespace ActionMachine

/-- What the cell behind a handle holds, if there is one. -/
abbrev Reader := CellRef → Option Value

namespace Reader

/-- Number of values that a walk looks at before it gives up. -/
def maxHops : Nat := 65536

def followWithin (read : Reader) : Nat → Value → Except Fault Value
  | 0, _ => .error (.chainTooLong maxHops)
  | hops + 1, value =>
    match value with
    | .reference (some target) =>
      match read target with
      | some next => followWithin read hops next
      | none => .error (.danglingReference target)
    | .reference none => .error .nullReference
    | value => .ok value

/-- The value that `value` leads to. -/
def follow (read : Reader) (value : Value) : Except Fault Value := followWithin read maxHops value

def resolveWithin (read : Reader) : Nat → CellRef → Except Fault CellRef
  | 0, _ => .error (.chainTooLong maxHops)
  | hops + 1, target =>
    match read target with
    | some (.reference (some next)) => resolveWithin read hops next
    | some (.reference none) => .error .nullReference
    | some _ => .ok target
    | none => .error (.danglingReference target)

/-- The cell that holds what `target` leads to. -/
def resolve (read : Reader) (target : CellRef) : Except Fault CellRef :=
  resolveWithin read maxHops target

/-- The value to store for `value`: what it leads to, which must be defined. `op` names the
operation in the fault. -/
def owned (read : Reader) (op : String) (value : Value) : Except Fault Value := do
  let value ← follow read value
  if value.isUndefined then .error (.undefinedOperand op) else .ok value

/-- As `owned`, on each value up to the first that fails. -/
def ownedAll (read : Reader) (op : String) (values : List Value) : Except Fault (List Value) :=
  values.mapM (owned read op)

end Reader

end ActionMachine
