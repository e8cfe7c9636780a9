/-!
# Double precision numbers

A floating constant is kept as its 64 bits. All that the middle end does with one is compare it and
write it down, and both are said here on the fields of the encoding, in exact integer arithmetic.

## Main definitions

* `Binary64`: the 64 bits of a number.
* `Binary64.isNaN`, `Binary64.isInfinite`, `Binary64.isZero`, `Binary64.isNegative`: its kind.
* `Binary64.numerator`, `Binary64.denominator`: the magnitude of a finite number as a ratio.
* `Binary64.agrees`: equality of numbers, for which the two zeros agree and a NaN agrees with
  nothing.
-/

namespace MiddleEnd

/-- A double precision number, given by its bits. -/
structure Binary64 where
  /-- The sign bit, eleven exponent bits and fifty-two fraction bits. -/
  bits : UInt64
  deriving DecidableEq, Repr

namespace Binary64

/-- The bits below the exponent. -/
def fraction (x : Binary64) : Nat := x.bits.toNat % (1 <<< 52)

/-- The biased exponent. -/
def exponentField (x : Binary64) : Nat := (x.bits.toNat >>> 52) % (1 <<< 11)

/-- Whether the sign bit is set. -/
def isNegative (x : Binary64) : Bool := decide ((1 <<< 63) ≤ x.bits.toNat)

/-- Whether the bits stand for no number. -/
def isNaN (x : Binary64) : Bool := x.exponentField == 2047 && x.fraction != 0

/-- Whether the bits stand for one of the two infinities. -/
def isInfinite (x : Binary64) : Bool := x.exponentField == 2047 && x.fraction == 0

/-- Whether the bits stand for one of the two zeros. -/
def isZero (x : Binary64) : Bool := x.exponentField == 0 && x.fraction == 0

/-- The integer that the power of two scales: a number with the least exponent has no leading one. -/
def significand (x : Binary64) : Nat :=
  if x.exponentField = 0 then x.fraction else (1 <<< 52) + x.fraction

/-- The exponent of two in units of the least one, `2 ^ (-1074)`. -/
def scale (x : Binary64) : Nat := x.exponentField - 1

/-- The magnitude of a finite number is `numerator / denominator`. -/
def numerator (x : Binary64) : Nat := x.significand <<< x.scale

/-- Every finite number is a multiple of `2 ^ (-1074)`. -/
def denominator (_ : Binary64) : Nat := 1 <<< 1074

/-- Equality of numbers: a NaN equals nothing, and the two zeros are equal. -/
def agrees (x y : Binary64) : Bool :=
  !x.isNaN && !y.isNaN && (x == y || (x.isZero && y.isZero))

end Binary64

end MiddleEnd
