/-
  Decimal text of floating-point numbers: of all decimals with the fewest digits that round to
  the number, the nearest, and of two equally near ones the larger. It is written positionally
  whatever its size, without a point when it is whole.
-/

namespace ActionMachine.Decimal

def twoTo (n : Nat) : Nat := Nat.pow 2 n

def tenTo (n : Nat) : Nat := Nat.pow 10 n

/-- A positive number `mantissa * 2 ^ exponent`. `narrowBelow` tells that the next smaller number
is only half as far away as the next larger one. -/
structure Dyadic where
  mantissa : Nat
  exponent : Int
  narrowBelow : Bool

/-- A range of rationals with one denominator: all that rounds to `value`. -/
structure Interval where
  value : Nat
  lower : Nat
  upper : Nat
  denominator : Nat
  /-- Whether the ends belong to it. -/
  closed : Bool

/-- Half of the gap on either side rounds to the number; a tie goes to the even mantissa. -/
def Dyadic.interval (x : Dyadic) : Interval :=
  let quarter := x.exponent - 2
  let scale := twoTo quarter.toNat
  { value := 4 * x.mantissa * scale
    lower := (4 * x.mantissa - if x.narrowBelow then 1 else 2) * scale
    upper := (4 * x.mantissa + 2) * scale
    denominator := twoTo (-quarter).toNat
    closed := x.mantissa % 2 == 0 }

/-- The least `e` with `value < 10 ^ e`. -/
def Interval.magnitude (i : Interval) : Int :=
  let guess : Int := (Nat.toDigits 10 i.value).length - (Nat.toDigits 10 i.denominator).length
  if i.value * tenTo (-guess).toNat < i.denominator * tenTo guess.toNat then guess else guess + 1

/-- The multiple of `10 ^ place` that stands for the range, if one of the two next to its value
lies inside. -/
def Interval.multiple? (i : Interval) (place : Int) : Option Nat :=
  let up := tenTo (-place).toNat
  let unit := i.denominator * tenTo place.toNat
  let value := i.value * up
  let below := value / unit
  let above := below + 1
  let belowIn := i.lower * up < below * unit || i.closed && i.lower * up == below * unit
  let aboveIn := above * unit < i.upper * up || i.closed && above * unit == i.upper * up
  match belowIn, aboveIn with
  | true, true => some (if value - below * unit < above * unit - value then below else above)
  | true, false => some below
  | false, true => some above
  | false, false => none

/-- Fewest digits first: `d` and `p` such that `d * 10 ^ p` stands for the range. -/
def Interval.shortest (i : Interval) : Nat × Int :=
  let top := i.magnitude
  let found := (List.range 17).findSome? fun (n : Nat) =>
    let place : Int := top - (n + 1)
    (i.multiple? place).map (·, place)
  found.getD (i.value / i.denominator, 0)

/-- The number `d * 10 ^ p` written out. -/
def positional (d : Nat) (p : Int) : String :=
  let digits := Nat.toDigits 10 d ++ List.replicate p.toNat '0'
  let places := (-p).toNat
  let padded := List.replicate (places + 1 - digits.length) '0' ++ digits
  let whole := padded.take (padded.length - places)
  let rest := padded.drop (padded.length - places)
  let fraction := (rest.reverse.dropWhile (· == '0')).reverse
  String.ofList (if fraction.isEmpty then whole else whole ++ '.' :: fraction)

/-- The positive finite number with these exponent and fraction fields. -/
def Dyadic.ofFields (exponent fraction : Nat) : Dyadic :=
  if exponent = 0 then
    { mantissa := fraction, exponent := -1074, narrowBelow := false }
  else
    { mantissa := fraction + twoTo 52
      exponent := exponent - 1075
      narrowBelow := fraction == 0 && 1 < exponent }

def ofFloat (x : Float) : String :=
  let bits := x.toBits.toNat
  let exponent := bits / twoTo 52 % twoTo 11
  let fraction := bits % twoTo 52
  let sign := if bits / twoTo 63 = 1 then "-" else ""
  if exponent = twoTo 11 - 1 then
    if fraction = 0 then sign ++ "inf" else "NaN"
  else if exponent = 0 ∧ fraction = 0 then sign ++ "0"
  else
    let (d, p) := (Dyadic.ofFields exponent fraction).interval.shortest
    sign ++ positional d p

end ActionMachine.Decimal
