/-!
# Double-precision numbers

A number is its bit pattern: a sign, eleven bits of exponent and fifty-two bits of fraction. A
finite number is a significand times a power of two, both read off the pattern, so that printing
and comparing are exact arithmetic on natural numbers.
-/

namespace FlatSyntax

/-- A double-precision number, by its bit pattern. -/
structure Double where
  /-- The bit pattern. -/
  bits : UInt64
  deriving DecidableEq, Repr

namespace Double

/-- Whether the sign bit is set. -/
def isNegative (x : Double) : Bool := x.bits.toNat.testBit 63

/-- The weight of the lowest bit of the exponent: the fraction has fifty-two bits. -/
def fractionModulus : Nat := 4503599627370496

/-- The weight of the sign bit. -/
def signWeight : Nat := 9223372036854775808

/-- The eleven bits of the exponent. -/
def exponentField (x : Double) : Nat := x.bits.toNat / fractionModulus % 2048

/-- The fifty-two bits of the fraction. -/
def fraction (x : Double) : Nat := x.bits.toNat % fractionModulus

/-- Whether the number is neither infinite nor a NaN. -/
def isFinite (x : Double) : Bool := x.exponentField != 2047

/-- Whether the pattern is not a number. -/
def isNaN (x : Double) : Bool := x.exponentField == 2047 && x.fraction != 0

/-- Whether the number is a zero of either sign. -/
def isZero (x : Double) : Bool := x.exponentField == 0 && x.fraction == 0

/-- The significand of a finite number: an implicit leading bit stands before the fraction unless
the exponent is the smallest. -/
def significand (x : Double) : Nat :=
  if x.exponentField = 0 then x.fraction else fractionModulus + x.fraction

/-- The power of two that the significand of a finite number is multiplied by. -/
def exponent (x : Double) : Int := (max x.exponentField 1 : Nat) - 1075

/-- Equality of numbers: a NaN differs from everything and the two zeros are equal. -/
def equal (x y : Double) : Bool :=
  !x.isNaN && !y.isNaN && (x.bits == y.bits || (x.isZero && y.isZero))

/-- The pattern of a positive number below `2 ^ 53`, which is represented exactly. -/
def bitsOfNat (n : Nat) : Nat :=
  if n = 0 then 0
  else (1023 + n.log2) * fractionModulus + (n <<< (52 - n.log2) - fractionModulus)

/-- A natural number below `2 ^ 53`. -/
def ofNat (n : Nat) : Double := ⟨UInt64.ofNat (bitsOfNat n)⟩

/-- An integer of magnitude below `2 ^ 53`. -/
def ofInt : Int → Double
  | .ofNat n => ofNat n
  | .negSucc n => ⟨UInt64.ofNat (signWeight + bitsOfNat (n + 1))⟩

end Double

end FlatSyntax
