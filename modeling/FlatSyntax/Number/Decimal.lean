import FlatSyntax.Number.Double

/-!
# Decimal text of numbers

A finite number is written with the fewest digits that read back as the same number, and of those
the nearest to it. The numbers that read back as `m * 2 ^ q` form an interval, ends included iff
`m` is even; a decimal with the last digit at `10 ^ k` is a multiple of `10 ^ k`, so the coarsest
`k` with a multiple in the interval gives the digits. Everything is compared in whole multiples of
a common unit.

The text is positional for every size, with no exponent and no point after a whole number.
-/

namespace FlatSyntax

/-- A decimal: `digits * 10 ^ exponent`. -/
structure Decimal where
  /-- The digits, as a number. -/
  digits : Nat
  /-- The power of ten of the last digit. -/
  exponent : Int
  deriving DecidableEq, Repr

namespace Decimal

/-- The numbers that read back as a given positive number, in units of a power of two: an interval
around `mid`. -/
structure Interval where
  /-- The lower end. -/
  low : Nat
  /-- The number itself. -/
  mid : Nat
  /-- The upper end. -/
  high : Nat
  /-- Whether the ends belong to the interval. -/
  closed : Bool
  /-- The power of two of the unit. -/
  unit : Int

/-- The interval of a finite positive number. The neighbour below a power of two is half as far away
as the one above, unless both have the smallest exponent. -/
def Interval.ofDouble (x : Double) : Interval where
  low := 4 * x.significand - (if x.fraction = 0 ∧ 1 < x.exponentField then 1 else 2)
  mid := 4 * x.significand
  high := 4 * x.significand + 2
  closed := x.significand % 2 == 0
  unit := x.exponent - 2

/-- The multiple of `10 ^ k` in the interval that is nearest to its number, if there is one. The
multiples next to the number are the only candidates; if both qualify and are equally near, the
larger is taken. -/
def Interval.nearest? (i : Interval) (k : Int) : Option Nat :=
  let a := Nat.pow 2 i.unit.toNat * Nat.pow 10 (-k).toNat
  let b := Nat.pow 10 k.toNat * Nat.pow 2 (-i.unit).toNat
  let inside (d : Nat) : Bool :=
    if i.closed then i.low * a ≤ d * b && d * b ≤ i.high * a
    else i.low * a < d * b && d * b < i.high * a
  let d := i.mid * a / b
  match inside d, inside (d + 1) with
  | true, true => if 2 * (i.mid * a) < (2 * d + 1) * b then some d else some (d + 1)
  | true, false => some d
  | false, true => some (d + 1)
  | false, false => none

/-- A power of ten that exceeds a finite positive number, or is next to one that does. -/
def bound (x : Double) : Int := ((x.significand.log2 + 1 : Nat) + x.exponent) * 30103 / 100000 + 1

/-- The shortest decimal that reads back as a finite positive number. Seventeen digits always
suffice, so the search has an end. -/
def shortest (x : Double) : Decimal :=
  let i := Interval.ofDouble x
  let found := (List.range 20).findSome? fun (step : Nat) =>
    (i.nearest? (bound x - step)).map fun d => Decimal.mk d (bound x - step)
  found.getD ⟨0, 0⟩

/-- A number written with exactly `width` digits. -/
def padded (width n : Nat) : List Char :=
  let digits := (toString n).toList
  List.replicate (width - digits.length) '0' ++ digits

/-- Positional text of a decimal: the digits after the point end in no zero, and there is no point
without digits after it. -/
def text (d : Decimal) : String :=
  if 0 ≤ d.exponent then toString (d.digits * Nat.pow 10 d.exponent.toNat)
  else
    let places := (-d.exponent).toNat
    let fraction := (padded places (d.digits % Nat.pow 10 places)).reverse.dropWhile (· == '0')
    let whole := toString (d.digits / Nat.pow 10 places)
    if fraction.isEmpty then whole else whole ++ "." ++ String.ofList fraction.reverse

end Decimal

/-- The text of a finite number. A negative zero keeps its sign. -/
def Double.text (x : Double) : String :=
  let magnitude := if x.isZero then "0" else (Decimal.shortest x).text
  if x.isNegative then "-" ++ magnitude else magnitude

end FlatSyntax
