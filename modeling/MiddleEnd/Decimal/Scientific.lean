/-!
# Rounding a ratio to significant digits

A positive ratio is rounded to a fixed number of significant decimal digits, with a half going to
the even neighbour. The result is a coefficient of exactly that many digits and the decimal exponent
of its first digit, after rounding.

## Main definitions

* `roundHalfEven`: the integer nearest to a ratio.
* `tenTo`: the powers of ten.
* `log10`: the exponent of the greatest power of ten that is not above a number.
* `Scientific`: a coefficient and the exponent of its first digit.
* `Scientific.ofRatio`: a ratio rounded to significant digits.
-/

namespace MiddleEnd

/-- The integer nearest to `num / den`; of two that are equally near, the even one. -/
def roundHalfEven (num den : Nat) : Nat :=
  let quotient := num / den
  let rest := num % den
  if 2 * rest < den then quotient
  else if den < 2 * rest then quotient + 1
  else if quotient % 2 = 0 then quotient
  else quotient + 1

/-- Ten to the power `k`. -/
def tenTo (k : Nat) : Nat := Nat.pow 10 k

/-- The greatest `k` with `10 ^ k ≤ n`, and zero for zero. -/
def log10 (n : Nat) : Nat :=
  if n < 10 then 0 else log10 (n / 10) + 1
termination_by n

/-- The exponent `e` with `10 ^ e ≤ num / den < 10 ^ (e + 1)`, for a positive ratio.

Below one, `10 ^ k` reaches `den / num` exactly when it exceeds `(den - 1) / num`. -/
def decimalExponent (num den : Nat) : Int :=
  if den ≤ num then (log10 (num / den) : Int)
  else -((log10 ((den - 1) / num) : Int) + 1)

/-- The integer nearest to `num / den * 10 ^ shift`. -/
def roundShifted (num den : Nat) : Int → Nat
  | .ofNat k => roundHalfEven (num * tenTo k) den
  | .negSucc k => roundHalfEven num (den * tenTo (k + 1))

/-- A number whose first significant digit stands at `10 ^ exponent`. With `p` digits in the
coefficient its value is `coefficient * 10 ^ (exponent - (p - 1))`. -/
structure Scientific where
  /-- The digits, read as one integer. -/
  coefficient : Nat
  /-- The exponent of the first digit. -/
  exponent : Int
  deriving DecidableEq, Repr

namespace Scientific

/-- `num / den` rounded to `precision` significant digits. Rounding up from all nines moves the
first digit one place to the left. -/
def ofRatio (precision num den : Nat) : Scientific :=
  let exponent := decimalExponent num den
  let coefficient := roundShifted num den (precision - 1 - exponent)
  if coefficient = tenTo precision then ⟨tenTo (precision - 1), exponent + 1⟩
  else ⟨coefficient, exponent⟩

end Scientific

end MiddleEnd
