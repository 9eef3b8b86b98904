/-
  A recursion as deep as its argument, carried out in constant space.
-/

namespace ActionMachine

/-- The sum `acc + n + (n - 1) + ... + 0`. -/
def descend (acc : Nat) : Nat → Nat
  | 0 => acc
  | n + 1 => descend (acc + (n + 1)) n

/-- Sum of the numbers from 0 to `n`. -/
def sumTo (n : Nat) : Nat := descend 0 n

end ActionMachine
