import MiddleEnd.Decimal.Binary64
import MiddleEnd.Decimal.Scientific

/-!
# General notation

Listings write a floating constant with six significant digits: in place as long as its first digit
lies between the fourth decimal place and the sixth place before the point, with an exponent
otherwise. Zeros at the end of the fraction are dropped, and the point goes with the last of them.

## Main definitions

* `decimalDigits`: the last digits of a number.
* `withFraction`: digits before and after the point, without trailing zeros.
* `Scientific.general`: a rounded number in general notation.
* `Binary64.text`: the text of a floating constant.
-/

namespace MiddleEnd

/-- The last `count` decimal digits of `n`, most significant first. -/
def decimalDigits : Nat → Nat → List Char
  | 0, _ => []
  | count + 1, n => decimalDigits count (n / 10) ++ [Nat.digitChar (n % 10)]

/-- The digits without the zeros at their end. -/
def dropTrailingZeros (digits : List Char) : List Char :=
  (digits.reverse.dropWhile (· == '0')).reverse

/-- The digits before the point, followed by a point and what is left of the fraction when its
trailing zeros are gone. An empty fraction takes the point with it. -/
def withFraction (whole fraction : List Char) : List Char :=
  match dropTrailingZeros fraction with
  | [] => whole
  | digits => whole ++ '.' :: digits

/-- An exponent with its sign and at least two digits. -/
def exponentText (exponent : Int) : List Char :=
  let digits := Nat.toDigits 10 exponent.natAbs
  let sign := if exponent < 0 then '-' else '+'
  'e' :: sign :: (if digits.length < 2 then '0' :: digits else digits)

namespace Scientific

/-- Whether a number is written with an exponent: its first digit is more than four places after
the point, or more than `precision` digits would stand before the point. -/
def usesExponent (precision : Nat) (x : Scientific) : Bool :=
  decide (x.exponent < -4 ∨ (precision : Int) ≤ x.exponent)

/-- A number with `precision` digits in its coefficient, in general notation. -/
def general (precision : Nat) (x : Scientific) : List Char :=
  let digits := decimalDigits precision x.coefficient
  if x.usesExponent precision then
    withFraction (digits.take 1) (digits.drop 1) ++ exponentText x.exponent
  else
    match x.exponent with
    | .ofNat k => withFraction (digits.take (k + 1)) (digits.drop (k + 1))
    | .negSucc k => withFraction ['0'] (List.replicate k '0' ++ digits)

end Scientific

namespace Binary64

/-- How many significant digits a listing shows. -/
def precision : Nat := 6

/-- The magnitude of a finite number other than zero, rounded to the digits that a listing shows. -/
def rounded (x : Binary64) : Scientific :=
  Scientific.ofRatio precision x.numerator x.denominator

/-- The text of a floating constant. Both zeros are `0`, and every NaN is `nan`. -/
def text (x : Binary64) : String :=
  if x.isNaN then "nan"
  else if x.isInfinite then (if x.isNegative then "-inf" else "inf")
  else if x.isZero then "0"
  else
    let magnitude := x.rounded.general precision
    String.ofList (if x.isNegative then '-' :: magnitude else magnitude)

end Binary64

end MiddleEnd
