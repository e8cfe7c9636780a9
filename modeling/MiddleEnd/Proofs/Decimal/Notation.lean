import Mathlib.Data.List.DropRight
import MiddleEnd.Decimal.General
import MiddleEnd.Proofs.Decimal.Rounding

/-!
# What the text of a number denotes

A listing writes a number as a decimal numeral. Read back, the numeral denotes exactly what the number
is rounded to.

## Main definitions

* `Numeral`: the parts of a decimal numeral.
* `Numeral.read`: a text read as a numeral.
* `Numeral.value`: what a numeral denotes.
* `Scientific.numeral`: the numeral for a rounded number.

## Main statements

* `Numeral.read_spelling`: a numeral is read back from its spelling.
* `Binary64.text_exact`: the text of a number denotes what the number is rounded to.
-/

namespace MiddleEnd

-- ════════════════════════════════════════════════════════════════════════
-- Numerals
-- ════════════════════════════════════════════════════════════════════════

/-- The parts of a decimal numeral. -/
structure Numeral where
  /-- Whether the numeral starts with a minus sign. -/
  negative : Bool
  /-- The digits before the point. -/
  whole : List Char
  /-- The digits after the point, if there is a point. -/
  fraction : Option (List Char)
  /-- The digits of the exponent, if there is one, and whether its sign is a minus, if it has a sign. -/
  exponent : Option (Option Bool × List Char)
  deriving DecidableEq, Repr

namespace Numeral

/-- A sign as it is written. -/
def signText : Option Bool → List Char
  | none => []
  | some true => ['-']
  | some false => ['+']

/-- The sign that a text starts with, and what follows it. -/
def splitSign : List Char → Option Bool × List Char
  | '-' :: rest => (some true, rest)
  | '+' :: rest => (some false, rest)
  | rest => (none, rest)

/-- The numeral has digits wherever it must have some, and nothing else there. -/
def Formed (n : Numeral) : Prop :=
  n.whole ≠ [] ∧ (∀ c ∈ n.whole, c.isDigit = true) ∧
    (∀ digits ∈ n.fraction, ∀ c ∈ digits, c.isDigit = true) ∧
    ∀ exponent ∈ n.exponent, exponent.2 ≠ [] ∧ ∀ c ∈ exponent.2, c.isDigit = true

instance (n : Numeral) : Decidable n.Formed :=
  inferInstanceAs (Decidable (_ ∧ _ ∧ _ ∧ _))

/-- A text read as a numeral: an optional minus sign, digits, a point and digits if there is a point, and
an exponent if there is an `e`. -/
def read (text : List Char) : Option Numeral :=
  let negative := decide (text.head? = some '-')
  let unsigned := if negative then text.tail else text
  let mantissa := unsigned.takeWhile (· != 'e')
  let n : Numeral := {
    negative
    whole := mantissa.takeWhile (· != '.')
    fraction := (mantissa.dropWhile (· != '.')).tail?
    exponent := (unsigned.dropWhile (· != 'e')).tail?.map splitSign }
  if n.Formed then some n else none

/-- The power of ten that a numeral is scaled by. -/
def scale (n : Numeral) : ℤ :=
  match n.exponent with
  | none => 0
  | some (sign, digits) =>
    if sign = some true then -(Nat.ofDigitChars 10 digits 0 : ℤ) else Nat.ofDigitChars 10 digits 0

/-- The digits after the point. -/
def decimals (n : Numeral) : List Char := n.fraction.getD []

/-- What a numeral denotes. -/
def value (n : Numeral) : ℚ :=
  (if n.negative then -1 else 1) *
    ((Nat.ofDigitChars 10 (n.whole ++ n.decimals) 0 : ℚ) / 10 ^ n.decimals.length) * 10 ^ n.scale

/-- The point and the digits after it. -/
def pointText : Option (List Char) → List Char
  | none => []
  | some digits => '.' :: digits

/-- The letter before the exponent, and the exponent. -/
def scaleText : Option (Option Bool × List Char) → List Char
  | none => []
  | some (sign, digits) => 'e' :: (signText sign ++ digits)

/-- The text of a numeral. -/
def spelling (n : Numeral) : List Char :=
  (if n.negative then ['-'] else []) ++ (n.whole ++ pointText n.fraction ++ scaleText n.exponent)

theorem splitSign_append {digits : List Char} (h : ∀ c ∈ digits, c.isDigit = true) (sign : Option Bool) :
    splitSign (signText sign ++ digits) = (sign, digits) := by
  match sign with
  | some true => rfl
  | some false => rfl
  | none =>
    match digits with
    | [] => rfl
    | c :: rest =>
      have hc := h c List.mem_cons_self
      rw [signText, List.nil_append, splitSign]
      · rintro rest' heq
        obtain rfl := (List.cons.inj heq).1
        cases hc
      · rintro rest' heq
        obtain rfl := (List.cons.inj heq).1
        cases hc

/-- A text is split where its first part ends. -/
theorem span_append (p : Char → Bool) (xs ys : List Char) (hxs : ∀ c ∈ xs, p c = true)
    (hys : ∀ c ∈ ys.head?, p c = false) :
    (xs ++ ys).takeWhile p = xs ∧ (xs ++ ys).dropWhile p = ys := by
  rw [List.takeWhile_append_of_pos hxs, List.dropWhile_append_of_pos hxs]
  match ys with
  | [] => simp
  | y :: ys => simp [hys y rfl]

theorem ne_of_isDigit {c d : Char} (hc : c.isDigit = true) (hd : d.isDigit = false) : c ≠ d := by
  rintro rfl
  rw [hc] at hd
  cases hd

theorem tail?_pointText (fraction : Option (List Char)) : (pointText fraction).tail? = fraction := by
  cases fraction <;> rfl

theorem tail?_scaleText {exponent : Option (Option Bool × List Char)}
    (h : ∀ e ∈ exponent, ∀ c ∈ e.2, c.isDigit = true) :
    (scaleText exponent).tail?.map splitSign = exponent := by
  match exponent with
  | none => rfl
  | some (sign, digits) =>
    change some (splitSign (signText sign ++ digits)) = _
    rw [splitSign_append (h _ rfl)]

/-- A numeral is read back from its spelling. -/
theorem read_spelling {n : Numeral} (h : n.Formed) : read n.spelling = some n := by
  obtain ⟨hne, hwhole, hfraction, hexponent⟩ := h
  have hmantissa := span_append (· != 'e') (n.whole ++ pointText n.fraction) (scaleText n.exponent) ?_ ?_
  have hpoint := span_append (· != '.') n.whole (pointText n.fraction) ?_ ?_
  · have hhead : (n.whole ++ pointText n.fraction ++ scaleText n.exponent).head? ≠ some '-' := by
      rw [List.append_assoc, List.head?_append_of_ne_nil _ hne]
      intro heq
      exact ne_of_isDigit (hwhole _ (List.mem_of_head? heq)) rfl rfl
    have hsign : decide (n.spelling.head? = some '-') = n.negative := by
      rw [spelling]
      cases n.negative with
      | false => exact decide_eq_false hhead
      | true => rfl
    have hunsigned : (if n.negative then n.spelling.tail else n.spelling) =
        n.whole ++ pointText n.fraction ++ scaleText n.exponent := by
      rw [spelling]
      cases n.negative <;> rfl
    simp only [read, hsign, hunsigned, hmantissa, hpoint, tail?_pointText,
      tail?_scaleText fun e he => (hexponent e he).2]
    exact if_pos ⟨hne, hwhole, hfraction, hexponent⟩
  · intro c hc
    exact bne_iff_ne.mpr (ne_of_isDigit (hwhole c hc) rfl)
  · cases n.fraction <;> simp [pointText]
  · intro c hc
    refine bne_iff_ne.mpr ?_
    rcases List.mem_append.mp hc with hc | hc
    · exact ne_of_isDigit (hwhole c hc) rfl
    · cases hn : n.fraction with
      | none => rw [hn] at hc; cases hc
      | some digits =>
        rw [hn] at hc
        rcases List.mem_cons.mp hc with rfl | hc
        · decide
        · exact ne_of_isDigit (hfraction digits hn c hc) rfl
  · match n.exponent with
    | none => simp [scaleText]
    | some (sign, digits) => simp [scaleText]

end Numeral

-- ════════════════════════════════════════════════════════════════════════
-- Digits
-- ════════════════════════════════════════════════════════════════════════

@[simp]
theorem length_decimalDigits (count n : ℕ) : (decimalDigits count n).length = count := by
  induction count generalizing n with
  | zero => rfl
  | succ count ih => rw [decimalDigits, List.length_append, ih, List.length_singleton]

theorem isDigit_of_mem_decimalDigits {count n : ℕ} {c : Char} (h : c ∈ decimalDigits count n) :
    c.isDigit = true := by
  induction count generalizing n with
  | zero => cases h
  | succ count ih =>
    rcases List.mem_append.mp h with h | h
    · exact ih h
    · rw [List.mem_singleton.mp h, Nat.isDigit_digitChar]
      exact decide_eq_true (Nat.mod_lt n (by norm_num))

theorem ofDigitChars_decimalDigits (count n : ℕ) :
    Nat.ofDigitChars 10 (decimalDigits count n) 0 = n % 10 ^ count := by
  induction count generalizing n with
  | zero => rw [pow_zero, Nat.mod_one]; rfl
  | succ count ih =>
    rw [decimalDigits, Nat.ofDigitChars_append, ih,
      Nat.ofDigitChars_cons_digitChar_of_lt_ten (Nat.mod_lt n (by norm_num)), Nat.ofDigitChars_nil, pow_succ']
    rw [Nat.mod_mul, Nat.add_comm]

theorem decimalDigits_add (a b n : ℕ) :
    decimalDigits (a + b) n = decimalDigits a (n / 10 ^ b) ++ decimalDigits b n := by
  induction b generalizing n with
  | zero => simp [decimalDigits]
  | succ b ih =>
    rw [← Nat.add_assoc, decimalDigits, ih, decimalDigits, Nat.div_div_eq_div_mul, pow_succ', List.append_assoc]

/-- What is left of the digits after the point, if there is anything. -/
def pointed (fraction : List Char) : Option (List Char) :=
  match dropTrailingZeros fraction with
  | [] => none
  | digits => some digits

theorem getD_pointed (fraction : List Char) : (pointed fraction).getD [] = dropTrailingZeros fraction := by
  rw [pointed]
  split
  · rename_i heq
    rw [heq]
    rfl
  · rfl

theorem withFraction_eq (whole fraction : List Char) :
    withFraction whole fraction = whole ++ Numeral.pointText (pointed fraction) := by
  rw [withFraction, pointed]
  cases dropTrailingZeros fraction with
  | nil => exact (List.append_nil whole).symm
  | cons c digits => rfl

/-- The digits that are dropped are zeros. -/
theorem exists_eq_append_zeros (digits : List Char) :
    ∃ k, digits = dropTrailingZeros digits ++ List.replicate k '0' := by
  refine ⟨(digits.rtakeWhile (· == '0')).length, ?_⟩
  have hzeros : digits.rtakeWhile (· == '0') = List.replicate (digits.rtakeWhile (· == '0')).length '0' :=
    List.eq_replicate_of_mem fun c hc =>
      eq_of_beq (List.mem_rtakeWhile_imp (p := (· == '0')) hc)
  rw [← hzeros]
  exact List.rdropWhile_append_rtakeWhile.symm

theorem getLast?_dropTrailingZeros (digits : List Char) : (dropTrailingZeros digits).getLast? ≠ some '0' := by
  intro h
  have hne : digits.rdropWhile (· == '0') ≠ [] := by
    intro hnil
    rw [show dropTrailingZeros digits = [] from hnil] at h
    cases h
  refine List.rdropWhile_last_not (· == '0') digits hne ?_
  have hlast : (digits.rdropWhile (· == '0')).getLast? = some '0' := h
  rw [List.getLast?_eq_some_getLast hne] at hlast
  exact beq_iff_eq.mpr (Option.some.inj hlast)

/-- Zeros at the end of the fraction do not count. -/
theorem ofDigitChars_pointed (whole fraction : List Char) :
    (Nat.ofDigitChars 10 (whole ++ (pointed fraction).getD []) 0 : ℚ) / 10 ^ ((pointed fraction).getD []).length =
      (Nat.ofDigitChars 10 (whole ++ fraction) 0 : ℚ) / 10 ^ fraction.length := by
  obtain ⟨k, hk⟩ := exists_eq_append_zeros fraction
  rw [getD_pointed]
  generalize dropTrailingZeros fraction = kept at hk
  subst hk
  have hzeros : Nat.ofDigitChars 10 (whole ++ (kept ++ List.replicate k '0')) 0 =
      10 ^ k * Nat.ofDigitChars 10 (whole ++ kept) 0 := by
    rw [← List.append_assoc, Nat.ofDigitChars_append (l := whole ++ kept), Nat.ofDigitChars_replicate_zero]
  have hten : (10 : ℚ) ^ k ≠ 0 := pow_ne_zero k (by norm_num)
  rw [hzeros, List.length_append, List.length_replicate, pow_add, Nat.cast_mul, Nat.cast_pow, Nat.cast_ofNat,
    mul_comm ((10 : ℚ) ^ kept.length), mul_div_mul_left _ _ hten]

theorem isDigit_of_pointed {fraction : List Char} (h : ∀ c ∈ fraction, c.isDigit = true) :
    ∀ digits ∈ pointed fraction, ∀ c ∈ digits, c.isDigit = true := by
  intro digits hdigits c hc
  have heq : (pointed fraction).getD [] = digits := by rw [Option.mem_def.mp hdigits]; rfl
  rw [getD_pointed] at heq
  obtain ⟨k, hk⟩ := exists_eq_append_zeros fraction
  refine h c ?_
  rw [hk, heq]
  exact List.mem_append_left _ hc

/-- No zero stands at the end of the digits after a point, and there are some. -/
theorem getLast?_pointed {fraction digits : List Char} (h : pointed fraction = some digits) :
    digits ≠ [] ∧ digits.getLast? ≠ some '0' := by
  have heq : (pointed fraction).getD [] = digits := by rw [h]; rfl
  rw [getD_pointed] at heq
  refine ⟨fun hnil => ?_, heq ▸ getLast?_dropTrailingZeros fraction⟩
  rw [hnil] at heq
  rw [pointed, heq] at h
  cases h

-- ════════════════════════════════════════════════════════════════════════
-- The numeral of a rounded number
-- ════════════════════════════════════════════════════════════════════════

namespace Scientific

variable {x : Scientific}

/-- The digits of an exponent, of which there are at least two. -/
def exponentDigits (e : ℤ) : List Char :=
  let digits := Nat.toDigits 10 e.natAbs
  if digits.length < 2 then '0' :: digits else digits

theorem two_le_length_exponentDigits (e : ℤ) : 2 ≤ (exponentDigits e).length := by
  have hpos := Nat.length_toDigits_pos (b := 10) (n := e.natAbs)
  rw [exponentDigits]
  split
  · rw [List.length_cons]
    omega
  · omega

theorem ofDigitChars_exponentDigits (e : ℤ) : Nat.ofDigitChars 10 (exponentDigits e) 0 = e.natAbs := by
  rw [exponentDigits]
  split
  · rw [Nat.ofDigitChars_cons]
    exact Nat.ofDigitChars_ten_toDigits
  · exact Nat.ofDigitChars_ten_toDigits

theorem isDigit_of_mem_exponentDigits {e : ℤ} {c : Char} (h : c ∈ exponentDigits e) : c.isDigit = true := by
  have hdigits : ∀ {c}, c ∈ Nat.toDigits 10 e.natAbs → c.isDigit = true :=
    fun hc => Nat.isDigit_of_mem_toDigits (by norm_num) (by norm_num) hc
  rw [exponentDigits] at h
  split at h
  · rcases List.mem_cons.mp h with rfl | h
    · rfl
    · exact hdigits h
  · exact hdigits h

/-- The numeral for a number rounded to six digits. -/
def numeral (negative : Bool) (x : Scientific) : Numeral :=
  let digits := decimalDigits 6 x.coefficient
  if x.usesExponent 6 then
    { negative, whole := digits.take 1, fraction := pointed (digits.drop 1)
      exponent := some (some (decide (x.exponent < 0)), exponentDigits x.exponent) }
  else
    match x.exponent with
    | .ofNat k =>
      { negative, whole := digits.take (k + 1), fraction := pointed (digits.drop (k + 1)), exponent := none }
    | .negSucc k =>
      { negative, whole := ['0'], fraction := pointed (List.replicate k '0' ++ digits), exponent := none }

theorem spelling_numeral (negative : Bool) (x : Scientific) : (x.numeral negative).spelling =
    if negative then '-' :: x.general 6 else x.general 6 := by
  have hsign : ∀ text : List Char, (if negative then ['-'] else []) ++ text =
      if negative then '-' :: text else text := by
    intro text
    cases negative <;> rfl
  rw [← hsign, numeral, general]
  split
  · rw [Numeral.spelling, withFraction_eq, exponentText]
    by_cases hneg : x.exponent < 0
    · simp [hneg, Numeral.scaleText, Numeral.signText, exponentDigits]
    · simp [hneg, Numeral.scaleText, Numeral.signText, exponentDigits]
  · cases x.exponent with
    | ofNat k =>
      dsimp only
      rw [Numeral.spelling, withFraction_eq, Numeral.scaleText, List.append_nil]
    | negSucc k =>
      dsimp only
      rw [Numeral.spelling, withFraction_eq, Numeral.scaleText, List.append_nil]

theorem negative_numeral (negative : Bool) (x : Scientific) :
    (x.numeral negative).negative = negative := by
  rw [numeral]
  split
  · rfl
  · split <;> rfl

/-- The digits of the coefficient, wherever the point stands. -/
theorem formed_numeral (negative : Bool) (x : Scientific) : (x.numeral negative).Formed := by
  have hdigits : ∀ c ∈ decimalDigits 6 x.coefficient, c.isDigit = true :=
    fun c hc => isDigit_of_mem_decimalDigits hc
  have hne : ∀ k, (decimalDigits 6 x.coefficient).take (k + 1) ≠ [] := by
    intro k hnil
    have hlength := congrArg List.length hnil
    rw [List.length_take, length_decimalDigits, List.length_nil] at hlength
    omega
  rw [numeral]
  split
  · refine ⟨hne 0, fun c hc => hdigits c (List.mem_of_mem_take hc),
      isDigit_of_pointed fun c hc => hdigits c (List.mem_of_mem_drop hc), fun e he => ?_⟩
    obtain rfl := Option.some.inj he
    refine ⟨fun hnil => ?_, fun c hc => isDigit_of_mem_exponentDigits hc⟩
    have hlength := two_le_length_exponentDigits x.exponent
    rw [show exponentDigits x.exponent = [] from hnil] at hlength
    cases hlength
  · split
    · exact ⟨hne _, fun c hc => hdigits c (List.mem_of_mem_take hc),
        isDigit_of_pointed fun c hc => hdigits c (List.mem_of_mem_drop hc), fun e he => by cases he⟩
    · refine ⟨List.cons_ne_nil _ _, fun c hc => ?_, isDigit_of_pointed fun c hc => ?_, fun e he => by cases he⟩
      · rw [List.mem_singleton.mp hc]
        rfl
      · rcases List.mem_append.mp hc with hc | hc
        · rw [List.eq_of_mem_replicate hc]
          rfl
        · exact hdigits c hc

theorem usesExponent_iff : x.usesExponent 6 = true ↔ x.exponent < -4 ∨ 6 ≤ x.exponent :=
  decide_eq_true_iff

/-- A numeral denotes the number it is made for. -/
theorem value_numeral (negative : Bool) (hlt : x.coefficient < 10 ^ 6) : (x.numeral negative).value =
    (if negative then -1 else 1) * (x.coefficient * 10 ^ (x.exponent - 5)) := by
  have hdigits : Nat.ofDigitChars 10 (decimalDigits 6 x.coefficient) 0 = x.coefficient := by
    rw [ofDigitChars_decimalDigits, Nat.mod_eq_of_lt hlt]
  have hten : (10 : ℚ) ≠ 0 := by norm_num
  rw [numeral]
  split
  · have hscale : (if some (decide (x.exponent < 0)) = some true then
        -(Nat.ofDigitChars 10 (exponentDigits x.exponent) 0 : ℤ)
        else Nat.ofDigitChars 10 (exponentDigits x.exponent) 0) = x.exponent := by
      rw [ofDigitChars_exponentDigits]
      by_cases hneg : x.exponent < 0
      · rw [if_pos (by rw [decide_eq_true hneg])]
        omega
      · rw [if_neg (by rw [decide_eq_false hneg]; decide)]
        omega
    rw [Numeral.value, Numeral.decimals, Numeral.scale, ofDigitChars_pointed]
    dsimp only
    rw [hscale, List.take_append_drop, hdigits, List.length_drop, length_decimalDigits, zpow_sub₀ hten]
    ring
  · rename_i huses
    have hshift : ∀ k : ℕ, ∀ e : ℤ, (k : ℤ) = 5 - e →
        (x.coefficient : ℚ) / 10 ^ k = x.coefficient * 10 ^ (e - 5) := by
      intro k e hk
      rw [show e - 5 = -(k : ℤ) by omega, zpow_neg, zpow_natCast, div_eq_mul_inv]
    split
    · rename_i k heq
      have hk : k ≤ 5 := by
        by_contra hgt
        exact huses (usesExponent_iff.mpr (.inr (by rw [heq, Int.ofNat_eq_natCast]; omega)))
      rw [Numeral.value, Numeral.decimals, Numeral.scale, ofDigitChars_pointed]
      dsimp only
      rw [List.take_append_drop, hdigits, List.length_drop, length_decimalDigits, heq, zpow_zero, mul_one,
        hshift (6 - (k + 1)) (.ofNat k) (by rw [Int.ofNat_eq_natCast]; omega)]
    · rename_i k heq
      rw [Numeral.value, Numeral.decimals, Numeral.scale, ofDigitChars_pointed]
      dsimp only
      have hzeros : Nat.ofDigitChars 10 (['0'] ++ (List.replicate k '0' ++ decimalDigits 6 x.coefficient)) 0 =
          x.coefficient := by
        rw [List.cons_append, List.nil_append, Nat.ofDigitChars_cons, Nat.ofDigitChars_append,
          Nat.ofDigitChars_replicate_zero]
        exact hdigits
      rw [hzeros, List.length_append, List.length_replicate, length_decimalDigits, heq, zpow_zero, mul_one,
        hshift (k + 6) (.negSucc k) (by omega)]

/-- The exponent of a numeral is there when it is used, and then it has a sign and at least two digits. -/
theorem exponent_numeral (negative : Bool) (x : Scientific) :
    ((x.numeral negative).exponent.isSome = true ↔ x.exponent < -4 ∨ 6 ≤ x.exponent) ∧
    ∀ sign digits, (x.numeral negative).exponent = some (sign, digits) →
      sign.isSome = true ∧ 2 ≤ digits.length := by
  rw [← usesExponent_iff, numeral]
  split
  · rename_i huses
    refine ⟨⟨fun _ => huses, fun _ => rfl⟩, fun sign digits heq => ?_⟩
    obtain ⟨rfl, rfl⟩ := Prod.mk.inj (Option.some.inj heq)
    exact ⟨rfl, two_le_length_exponentDigits _⟩
  · rename_i huses
    split <;> exact ⟨⟨fun h => (nomatch h), fun h => absurd h huses⟩, fun _ _ heq => nomatch heq⟩

/-- The digits after a point do not end in a zero, and there are some. -/
theorem fraction_numeral (negative : Bool) (x : Scientific) {digits : List Char}
    (h : (x.numeral negative).fraction = some digits) : digits ≠ [] ∧ digits.getLast? ≠ some '0' := by
  rw [numeral] at h
  split at h
  · exact getLast?_pointed h
  · split at h
    · exact getLast?_pointed h
    · exact getLast?_pointed h

end Scientific

-- ════════════════════════════════════════════════════════════════════════
-- The text of a number
-- ════════════════════════════════════════════════════════════════════════

namespace Binary64

variable {x : Binary64}

/-- The bits stand for a number. -/
def IsFinite (x : Binary64) : Prop := x.isNaN = false ∧ x.isInfinite = false

theorem toList_text (hfinite : x.IsFinite) (hne : x.value ≠ 0) :
    x.text.toList = (x.rounded.numeral x.isNegative).spelling := by
  have hzero := x.value_ne_zero_iff.mp hne
  rw [Scientific.spelling_numeral, text, hfinite.1, hfinite.2, hzero]
  simp only [Bool.false_eq_true, if_false, String.toList_ofList]
  rfl

/-- The digits of the number in a listing. -/
theorem coefficient_rounded (hne : x.value ≠ 0) :
    10 ^ 5 ≤ x.rounded.coefficient ∧ x.rounded.coefficient < 10 ^ 6 := by
  have hnum := x.numerator_pos_iff.mpr (x.value_ne_zero_iff.mp hne)
  have hrounds := Scientific.ofRatio_roundsToSix hnum x.denominator_pos
  have hlow := hrounds.low
  have hhigh := hrounds.high
  rw [Nat.abs_cast] at hlow hhigh
  rw [rounded, precision]
  omega

-- ════════════════════════════════════════════════════════════════════════
-- Rounding twice
-- ════════════════════════════════════════════════════════════════════════

/-- A text with a point without the zeros at its end, and without the points that are then at its end. -/
def trimZeros (text : List Char) : List Char :=
  if '.' ∈ text then (text.rdropWhile (· == '0')).rdropWhile (· == '.') else text

/-- A ratio with a fixed number of digits after the point. -/
def fixedText (decimals num den : ℕ) : List Char :=
  let n := roundHalfEven (num * 10 ^ decimals) den
  Nat.toDigits 10 (n / 10 ^ decimals) ++ if decimals = 0 then [] else '.' :: decimalDigits decimals n

/-- The magnitude of a number in general notation, found in two steps: rounding to six digits tells the
exponent, and with a small one the number itself is rounded again, to as many places as six digits
leave. -/
def stepwise (x : Binary64) : List Char :=
  let digits := decimalDigits 6 x.rounded.coefficient
  if x.rounded.exponent < -4 ∨ 6 ≤ x.rounded.exponent then
    trimZeros (digits.take 1 ++ '.' :: digits.drop 1) ++ exponentText x.rounded.exponent
  else trimZeros (fixedText (5 - x.rounded.exponent).toNat x.numerator x.denominator)

theorem rdropWhile_append_replicate {c : Char} (xs : List Char) (k : ℕ) :
    (xs ++ List.replicate k c).rdropWhile (· == c) = xs.rdropWhile (· == c) := by
  induction k with
  | zero => rw [List.replicate_zero, List.append_nil]
  | succ k ih =>
    rw [List.replicate_succ', ← List.append_assoc,
      List.rdropWhile_concat_pos (· == c) _ c (beq_self_eq_true c), ih]

theorem rdropWhile_of_getLast? {c : Char} {xs : List Char} (h : xs.getLast? ≠ some c) :
    xs.rdropWhile (· == c) = xs := by
  rw [List.rdropWhile_eq_self_iff]
  intro hne heq
  exact h (by rw [List.getLast?_eq_some_getLast hne, eq_of_beq heq])

/-- Trimming takes the zeros at the end of the digits after the point. -/
theorem trimZeros_point {whole fraction : List Char} (hwhole : ∀ c ∈ whole, c.isDigit = true)
    (hfraction : ∀ c ∈ fraction, c.isDigit = true) :
    trimZeros (whole ++ '.' :: fraction) = withFraction whole fraction := by
  have hpoint : ∀ {text : List Char}, (∀ c ∈ text, c.isDigit = true) → text.getLast? ≠ some '.' :=
    fun htext heq => by cases htext '.' (List.mem_of_getLast? heq)
  obtain ⟨k, hk⟩ := exists_eq_append_zeros fraction
  have hlast := getLast?_dropTrailingZeros fraction
  rw [trimZeros, if_pos (by simp), withFraction]
  generalize dropTrailingZeros fraction = kept at hk hlast
  subst hk
  rw [← List.cons_append, ← List.append_assoc, rdropWhile_append_replicate]
  cases kept with
  | nil =>
    rw [rdropWhile_of_getLast? (c := '0') (by simp),
      List.rdropWhile_concat_pos (· == '.') _ '.' (beq_self_eq_true '.'),
      rdropWhile_of_getLast? (hpoint hwhole)]
  | cons c digits =>
    have hdigits : ∀ d ∈ c :: digits, d.isDigit = true :=
      fun d hd => hfraction d (List.mem_append_left _ hd)
    have hend : (whole ++ '.' :: c :: digits).getLast? = (c :: digits).getLast? := by
      rw [List.append_cons, List.getLast?_append_of_ne_nil _ (List.cons_ne_nil _ _)]
    rw [rdropWhile_of_getLast? (c := '0') (hend ▸ hlast),
      rdropWhile_of_getLast? (c := '.') (hend ▸ hpoint hdigits)]

theorem trimZeros_digits {whole : List Char} (hwhole : ∀ c ∈ whole, c.isDigit = true) {count n : ℕ} :
    trimZeros (whole ++ if count = 0 then [] else '.' :: decimalDigits count n) =
      withFraction whole (decimalDigits count n) := by
  cases count with
  | zero =>
    have hpoint : '.' ∉ whole := fun h => by cases hwhole '.' h
    rw [if_pos rfl, List.append_nil, trimZeros, if_neg hpoint]
    rfl
  | succ count => exact trimZeros_point hwhole fun c hc => isDigit_of_mem_decimalDigits hc

theorem toDigits_eq_decimalDigits {k n : ℕ} (hlow : 10 ^ k ≤ n) (hhigh : n < 10 ^ (k + 1)) :
    Nat.toDigits 10 n = decimalDigits (k + 1) n := by
  induction k generalizing n with
  | zero =>
    rw [zero_add, pow_one] at hhigh
    rw [Nat.toDigits_of_lt_base hhigh, decimalDigits, decimalDigits, Nat.mod_eq_of_lt hhigh]
    rfl
  | succ k ih =>
    have hten : 10 ≤ n := by
      have := Nat.one_le_pow k 10 (by norm_num)
      rw [pow_succ] at hlow
      omega
    rw [pow_succ] at hlow hhigh
    rw [Nat.toDigits_of_base_le (by norm_num) hten, decimalDigits,
      ih (by omega) (by omega)]

theorem decimalDigits_zero (k : ℕ) : decimalDigits k 0 = List.replicate k '0' := by
  induction k with
  | zero => rfl
  | succ k ih => rw [decimalDigits, Nat.zero_div, ih, List.replicate_succ']; rfl

/-- The second rounding gives the digits of the first. -/
theorem roundHalfEven_again (hne : x.value ≠ 0) {d : ℕ} (hd : (d : ℤ) = 5 - x.rounded.exponent) :
    roundHalfEven (x.numerator * 10 ^ d) x.denominator = x.rounded.coefficient := by
  have hnum := x.numerator_pos_iff.mpr (x.value_ne_zero_iff.mp hne)
  have hagain := (Scientific.ofRatio_roundsToSix hnum x.denominator_pos).nearest_again
  have hround := roundHalfEven_nearest (x.numerator * 10 ^ d) x.denominator_pos
  have heq : ((x.numerator * 10 ^ d : ℕ) : ℚ) / x.denominator =
      (x.numerator : ℚ) / x.denominator / 10 ^ (x.rounded.exponent - 5) := by
    rw [show x.rounded.exponent - 5 = -(d : ℤ) by omega, zpow_neg, div_inv_eq_mul, zpow_natCast]
    push_cast
    ring
  rw [heq] at hround
  exact_mod_cast hround.unique hagain

/-- Rounding twice gives the same text as rounding once. -/
theorem general_eq_stepwise (hne : x.value ≠ 0) : x.rounded.general 6 = x.stepwise := by
  obtain ⟨hlow, hhigh⟩ := coefficient_rounded hne
  have hdigits : ∀ {count n : ℕ}, ∀ c ∈ decimalDigits count n, c.isDigit = true :=
    fun _ hc => isDigit_of_mem_decimalDigits hc
  rw [Scientific.general, stepwise]
  by_cases huses : x.rounded.usesExponent 6 = true
  · rw [if_pos huses, if_pos (Scientific.usesExponent_iff.mp huses), trimZeros_point
      (fun c hc => hdigits c (List.mem_of_mem_take hc)) fun c hc => hdigits c (List.mem_of_mem_drop hc)]
  · have hsmall : ¬ (x.rounded.exponent < -4 ∨ 6 ≤ x.rounded.exponent) :=
      fun h => huses (Scientific.usesExponent_iff.mpr h)
    rw [if_neg huses, if_neg hsmall, fixedText, roundHalfEven_again hne (by omega)]
    generalize x.rounded.coefficient = n at *
    split
    · rename_i k heq
      rw [heq, Int.ofNat_eq_natCast] at hsmall
      obtain ⟨d, hd⟩ : ∃ d, k + d = 5 := ⟨5 - k, by omega⟩
      have hwhole : Nat.toDigits 10 (n / 10 ^ d) = decimalDigits (k + 1) (n / 10 ^ d) := by
        refine toDigits_eq_decimalDigits ?_ ?_
        · rw [Nat.le_div_iff_mul_le (by positivity), ← pow_add, hd]
          exact hlow
        · rw [Nat.div_lt_iff_lt_mul (by positivity), ← pow_add, show k + 1 + d = 6 by omega]
          exact hhigh
      have hsplit : decimalDigits 6 n = decimalDigits (k + 1) (n / 10 ^ d) ++ decimalDigits d n := by
        rw [← decimalDigits_add, show k + 1 + d = 6 by omega]
      rw [heq, show (5 - Int.ofNat k).toNat = d by rw [Int.ofNat_eq_natCast]; omega, hwhole, hsplit,
        List.take_left' (length_decimalDigits _ _), List.drop_left' (length_decimalDigits _ _),
        trimZeros_digits fun _ hc => isDigit_of_mem_decimalDigits hc]
    · rename_i k heq
      have hzero : n / 10 ^ (k + 6) = 0 := by
        refine Nat.div_eq_of_lt (hhigh.trans_le ?_)
        exact Nat.pow_le_pow_right (by norm_num) (Nat.le_add_left 6 k)
      have hsplit : decimalDigits (k + 6) n = List.replicate k '0' ++ decimalDigits 6 n := by
        rw [decimalDigits_add, Nat.div_eq_of_lt hhigh, decimalDigits_zero]
      rw [heq, show (5 - Int.negSucc k).toNat = k + 6 by omega, hzero, Nat.toDigits_zero, ← hsplit,
        trimZeros_digits (List.forall_mem_singleton.mpr rfl)]

theorem text_eq (hfinite : x.IsFinite) (hne : x.value ≠ 0) :
    x.text.toList = (if x.isNegative then ['-'] else []) ++ x.stepwise := by
  rw [toList_text hfinite hne, Scientific.spelling_numeral, general_eq_stepwise hne]
  cases x.isNegative <;> rfl

theorem head?_text (hfinite : x.IsFinite) (hne : x.value ≠ 0) :
    x.text.toList.head? = some '-' ↔ x.value < 0 := by
  rw [value_neg_iff hne, toList_text hfinite hne, Numeral.spelling, Scientific.negative_numeral]
  cases x.isNegative with
  | true => exact ⟨fun _ => rfl, fun _ => rfl⟩
  | false =>
    obtain ⟨hwhole, hdigits, _⟩ := Scientific.formed_numeral false x.rounded
    refine ⟨fun h => ?_, fun h => nomatch h⟩
    rw [if_neg (by decide), List.nil_append, List.append_assoc, List.head?_append_of_ne_nil _ hwhole] at h
    exact absurd rfl (Numeral.ne_of_isDigit (d := '-') (hdigits _ (List.mem_of_head? h)) rfl)

/-- What a number other than zero is rounded to exists and is unique; its text, read as a numeral,
denotes just that. It has an exponent, with a sign and at least two digits, when the first digit stands
below the fourth decimal place or above the sixth place before the point; it has no point without digits
after it, and no zero at their end; and it starts with a minus sign when the number is negative. It is
the same text as if the number were rounded a second time where its last digit is to stand. -/
theorem text_exact (x : Binary64) (hfinite : x.IsFinite) (hne : x.value ≠ 0) :
    ∃ m e, RoundsToSix x.value m e ∧ (∀ m' e', RoundsToSix x.value m' e' → m' = m ∧ e' = e) ∧
      NearestEven (x.value / 10 ^ (e - 5)) m ∧
      x.text.toList = (if x.isNegative then ['-'] else []) ++ x.stepwise ∧
      (x.text.toList.head? = some '-' ↔ x.value < 0) ∧
      ∃ n, Numeral.read x.text.toList = some n ∧ n.value = m * 10 ^ (e - 5) ∧
        (n.exponent.isSome = true ↔ e < -4 ∨ 6 ≤ e) ∧
        (∀ sign digits, n.exponent = some (sign, digits) → sign.isSome = true ∧ 2 ≤ digits.length) ∧
        ∀ digits, n.fraction = some digits → digits ≠ [] ∧ digits.getLast? ≠ some '0' := by
  have hrounds := x.rounded_roundsToSix hne
  refine ⟨_, _, hrounds, fun m' e' h => h.unique hrounds, hrounds.nearest_again, text_eq hfinite hne,
    head?_text hfinite hne, x.rounded.numeral x.isNegative, ?_, ?_, ?_, ?_, ?_⟩
  · rw [toList_text hfinite hne]
    exact Numeral.read_spelling (Scientific.formed_numeral _ _)
  · rw [Scientific.value_numeral _ (coefficient_rounded hne).2, ← mul_assoc]
    push_cast
    rfl
  · exact (Scientific.exponent_numeral _ _).1
  · exact (Scientific.exponent_numeral _ _).2
  · exact fun digits => Scientific.fraction_numeral _ _

end Binary64

/-- The number 9.999996, or rather the one closest to it. -/
def almostTen : Binary64 where
  bits := 0x4023ffff79c842fa

/-- Six nines are carried to the next power of ten, and the text is in place and denotes ten. -/
theorem almostTen_text : almostTen.IsFinite ∧ almostTen.value ≠ 0 ∧
    ∃ n, Numeral.read almostTen.text.toList = some n ∧ n.value = 10 ∧ n.exponent = none := by
  have hfinite : almostTen.IsFinite := ⟨by decide, by decide⟩
  have hvalue : almostTen.value = (1 + 1125897655042810 / 2 ^ 52) * 2 ^ 3 := by
    have hnegative : almostTen.isNegative = false := by decide
    have hexponent : almostTen.exponentField = 1026 := by decide
    have hfraction : almostTen.fraction = 1125897655042810 := by decide
    rw [Binary64.value, hnegative, hexponent, hfraction]
    norm_num
  have hne : almostTen.value ≠ 0 := by rw [hvalue]; norm_num
  have hrounds : RoundsToSix almostTen.value 100000 1 := by
    refine ⟨by decide, by decide, 0, 1000000, ?_, ?_, .of_lt_half ?_, ?_⟩
    · rw [hvalue, abs_of_pos (by norm_num)]
      norm_num
    · rw [hvalue, abs_of_pos (by norm_num)]
      norm_num
    · rw [hvalue, abs_lt]
      norm_num
    · norm_num
  obtain ⟨m, e, _, hunique, _, _, _, n, hread, hdenotes, hexponent, _, _⟩ :=
    almostTen.text_exact hfinite hne
  obtain ⟨rfl, rfl⟩ := hunique _ _ hrounds
  refine ⟨hfinite, hne, n, hread, ?_, ?_⟩
  · rw [hdenotes]
    norm_num
  · rw [← Option.not_isSome_iff_eq_none, hexponent]
    decide

end MiddleEnd
