import Mathlib.Algebra.Order.Field.Basic
import Mathlib.Algebra.Order.Field.Power
import Mathlib.Data.Nat.Log
import Mathlib.Data.Rat.Cast.Order
import Mathlib.Tactic.FieldSimp
import Mathlib.Tactic.Linarith
import Mathlib.Tactic.Positivity
import Mathlib.Tactic.Ring
import MiddleEnd.Decimal.Binary64
import MiddleEnd.Decimal.Scientific

/-!
# Rounding is to the nearest

What the integer arithmetic of the rounding computes, said with rational numbers: the value of a number
given by its bits, the nearest integer with a half going to the even neighbour, and six significant
digits.

## Main definitions

* `Binary64.value`: the number that finite bits stand for.
* `NearestEven`: an integer is nearest to a rational number, and even if it is one of two.
* `RoundsToSix`: a coefficient of six digits and an exponent make up what a number is rounded to.

## Main statements

* `Scientific.ofRatio_roundsToSix`: the rounding of a ratio is a rounding to six significant digits.
* `RoundsToSix.unique`: there is only one.
* `RoundsToSix.nearest_again`: it is also the rounding to the place of its own last digit, which is
  another place than that of the sixth digit before the rounding if all of them were nines.
-/

namespace MiddleEnd

-- ════════════════════════════════════════════════════════════════════════
-- Nearest integers
-- ════════════════════════════════════════════════════════════════════════

/-- The integer is nearest to the number. Of two that are equally near it is the even one. -/
def NearestEven (q : ℚ) (n : ℤ) : Prop := |q - n| ≤ 1 / 2 ∧ (|q - n| = 1 / 2 → Even n)

namespace NearestEven

variable {q : ℚ} {m n : ℤ}

theorem neg (h : NearestEven q n) : NearestEven (-q) (-n) := by
  have hdist : |-q - ((-n : ℤ) : ℚ)| = |q - n| := by
    rw [Int.cast_neg, ← abs_neg]
    congr 1
    ring
  refine ⟨hdist.trans_le h.1, fun heq => (h.2 (hdist ▸ heq)).neg⟩

theorem unique (hm : NearestEven q m) (hn : NearestEven q n) : m = n := by
  -- Two nearest integers that differ are neighbours, and the number is in the middle of them.
  have hneighbours : ∀ {k : ℤ}, NearestEven q k → ¬ NearestEven q (k + 1) := by
    intro k hk hk'
    have hmiddle : q - k = 1 / 2 := by
      have hle := (abs_le.mp hk.1).2
      have hge := (abs_le.mp hk'.1).1
      push_cast at hge
      linarith
    have heven : Even k := hk.2 (by rw [hmiddle]; norm_num)
    have heven' : Even (k + 1) := hk'.2 (by
      push_cast
      rw [show q - (k + 1) = -(1 / 2) by linarith]
      norm_num)
    rw [Int.even_iff] at heven heven'
    omega
  have hle : ∀ {k l : ℤ}, NearestEven q k → NearestEven q l → k ≤ l + 1 := by
    intro k l hk hl
    have hlow := (abs_le.mp hk.1).1
    have hhigh := (abs_le.mp hl.1).2
    have hcast : (k : ℚ) ≤ ((l + 1 : ℤ) : ℚ) := by
      push_cast
      linarith
    exact_mod_cast hcast
  by_contra hne
  rcases Int.lt_or_gt_of_ne hne with hlt | hlt
  · exact hneighbours hm ((show m + 1 = n by have := hle hn hm; omega) ▸ hn)
  · exact hneighbours hn ((show n + 1 = m by have := hle hm hn; omega) ▸ hm)

theorem of_lt_half (h : |q - n| < 1 / 2) : NearestEven q n := ⟨h.le, fun heq => absurd heq h.ne⟩

/-- An integer below the number is not above what it is rounded to. -/
theorem le_of_le (h : NearestEven q n) (hm : (m : ℚ) ≤ q) : m ≤ n := by
  have hhigh := (abs_le.mp h.1).2
  have hcast : (m : ℚ) < ((n + 1 : ℤ) : ℚ) := by
    push_cast
    linarith
  have hlt : m < n + 1 := by exact_mod_cast hcast
  omega

theorem ge_of_ge (h : NearestEven q n) (hm : q ≤ m) : n ≤ m := by
  have hle := h.neg.le_of_le (m := -m) (by push_cast; linarith)
  omega

theorem abs (h : NearestEven q n) : NearestEven |q| |n| := by
  rcases le_total 0 q with hq | hq
  · have hn : 0 ≤ n := h.le_of_le (by simpa using hq)
    rw [abs_of_nonneg hq, abs_of_nonneg hn]
    exact h
  · have hn : n ≤ 0 := h.ge_of_ge (by simpa using hq)
    rw [abs_of_nonpos hq, abs_of_nonpos hn]
    exact h.neg

end NearestEven

/-- A ratio is nearest to an integer if their difference is at most half a denominator. -/
theorem nearestEven_div {num den n : ℕ} (hden : 0 < den) (hlow : 2 * (n * den) ≤ 2 * num + den)
    (hhigh : 2 * num ≤ 2 * (n * den) + den)
    (heven : 2 * (n * den) = 2 * num + den ∨ 2 * num = 2 * (n * den) + den → n % 2 = 0) :
    NearestEven (num / den) n := by
  have hpos : (0 : ℚ) < den := by exact_mod_cast hden
  have hdist : (num : ℚ) / den - ((n : ℤ) : ℚ) = (num - n * den) / den := by
    rw [Int.cast_natCast, sub_div, mul_div_cancel_right₀ _ hpos.ne']
  have hlow' : (2 : ℚ) * (n * den) ≤ 2 * num + den := by exact_mod_cast hlow
  have hhigh' : (2 : ℚ) * num ≤ 2 * (n * den) + den := by exact_mod_cast hhigh
  rw [NearestEven, hdist, abs_div, abs_of_pos hpos, div_le_iff₀ hpos, div_eq_iff hpos.ne']
  refine ⟨abs_le.mpr ⟨by linarith, by linarith⟩, fun heq => ?_⟩
  rw [Int.even_coe_nat, Nat.even_iff]
  refine heven ?_
  rcases (abs_eq (by positivity)).mp heq with hside | hside
  · exact .inr (by exact_mod_cast (by linarith : (2 : ℚ) * num = 2 * (n * den) + den))
  · exact .inl (by exact_mod_cast (by linarith : (2 : ℚ) * (n * den) = 2 * num + den))

theorem roundHalfEven_nearest (num : ℕ) {den : ℕ} (hden : 0 < den) :
    NearestEven (num / den) (roundHalfEven num den) := by
  have hsplit := Nat.div_add_mod num den
  have hrest := Nat.mod_lt num hden
  have hnext : (num / den + 1) * den = den * (num / den) + den := by ring
  rw [roundHalfEven]
  split
  · exact nearestEven_div hden (by rw [mul_comm _ den]; omega) (by rw [mul_comm _ den]; omega)
      (by rw [mul_comm _ den]; omega)
  · split
    · exact nearestEven_div hden (by rw [hnext]; omega) (by rw [hnext]; omega) (by rw [hnext]; omega)
    · split
      · exact nearestEven_div hden (by rw [mul_comm _ den]; omega) (by rw [mul_comm _ den]; omega)
          fun _ => by assumption
      · exact nearestEven_div hden (by rw [hnext]; omega) (by rw [hnext]; omega) fun _ => by omega

-- ════════════════════════════════════════════════════════════════════════
-- Powers of ten
-- ════════════════════════════════════════════════════════════════════════

theorem log10_eq (n : ℕ) : log10 n = Nat.log 10 n := by
  fun_induction log10 n with
  | case1 n hlt => rw [Nat.log_of_lt hlt]
  | case2 n hge ih => rw [ih, ← Nat.log_of_one_lt_of_le (by norm_num) (Nat.le_of_not_lt hge)]

/-- The exponent of the first digit of a positive ratio. -/
theorem decimalExponent_spec {num den : ℕ} (hnum : 0 < num) (hden : 0 < den) :
    (10 : ℚ) ^ decimalExponent num den ≤ num / den ∧
      (num : ℚ) / den < 10 ^ (decimalExponent num den + 1) := by
  have hnum' : (0 : ℚ) < num := by exact_mod_cast hnum
  have hden' : (0 : ℚ) < den := by exact_mod_cast hden
  rw [decimalExponent, log10_eq, log10_eq]
  split
  · rename_i hle
    have hone : num / den ≠ 0 := (Nat.div_pos hle hden).ne'
    constructor
    · have hlow := Nat.pow_log_le_self 10 hone
      rw [Nat.le_div_iff_mul_le hden] at hlow
      rw [zpow_natCast, le_div_iff₀ hden']
      exact_mod_cast hlow
    · have hhigh := Nat.lt_pow_succ_log_self (by norm_num : 1 < 10) (num / den)
      rw [Nat.div_lt_iff_lt_mul hden] at hhigh
      rw [div_lt_iff₀ hden']
      exact_mod_cast hhigh
  · rename_i hlt
    have hone : (den - 1) / num ≠ 0 := (Nat.div_pos (by omega) hnum).ne'
    have hlow := Nat.pow_log_le_self 10 hone
    have hhigh := Nat.lt_pow_succ_log_self (by norm_num : 1 < 10) ((den - 1) / num)
    rw [Nat.le_div_iff_mul_le hnum] at hlow
    rw [Nat.div_lt_iff_lt_mul hnum] at hhigh
    rw [Nat.succ_eq_add_one] at hhigh
    generalize Nat.log 10 ((den - 1) / num) = k at *
    constructor
    · have hle : (den : ℚ) ≤ 10 ^ (k + 1) * num := by exact_mod_cast (by omega : den ≤ 10 ^ (k + 1) * num)
      rw [zpow_neg, inv_le_comm₀ (by positivity) (by positivity), inv_div, div_le_iff₀ hnum']
      exact_mod_cast hle
    · have hlt' : (10 : ℚ) ^ k * num < den := by exact_mod_cast (by omega : 10 ^ k * num < den)
      rw [neg_add_rev, neg_add_cancel_comm, zpow_neg, zpow_natCast, lt_inv_comm₀ (by positivity) (by positivity),
        inv_div, lt_div_iff₀ hnum']
      exact hlt'

theorem roundShifted_nearest (num : ℕ) {den : ℕ} (hden : 0 < den) (shift : ℤ) :
    NearestEven (num / den * 10 ^ shift) (roundShifted num den shift) := by
  cases shift with
  | ofNat k =>
    have hnearest := roundHalfEven_nearest (num * tenTo k) hden
    have heq : (num : ℚ) / den * 10 ^ Int.ofNat k = (num * tenTo k : ℕ) / den := by
      rw [tenTo, Int.ofNat_eq_natCast, zpow_natCast, Nat.cast_mul, div_mul_eq_mul_div]
      norm_num
    rw [heq]
    exact hnearest
  | negSucc k =>
    have hpos : 0 < den * tenTo (k + 1) := Nat.mul_pos hden (Nat.pow_pos (by norm_num))
    have hnearest := roundHalfEven_nearest num hpos
    have heq : (num : ℚ) / den * 10 ^ Int.negSucc k = num / (den * tenTo (k + 1) : ℕ) := by
      rw [tenTo, zpow_negSucc, ← div_eq_mul_inv, div_div, Nat.cast_mul]
      norm_num
    rw [heq]
    exact hnearest

-- ════════════════════════════════════════════════════════════════════════
-- Six digits
-- ════════════════════════════════════════════════════════════════════════

/-- A number rounded to six significant digits is `m * 10 ^ (e - 5)`, where `m` has six digits. The place
of the sixth digit is that of the number before it is rounded, and a half goes to the even side. -/
structure RoundsToSix (v : ℚ) (m e : ℤ) : Prop where
  low : 100000 ≤ |m|
  high : |m| ≤ 999999
  nearest : ∃ x n : ℤ, (10 : ℚ) ^ x ≤ |v| ∧ |v| < 10 ^ (x + 1) ∧ NearestEven (v / 10 ^ (x - 5)) n ∧
    (n : ℚ) * 10 ^ (x - 5) = m * 10 ^ (e - 5)

theorem ten_zpow_pos (x : ℤ) : (0 : ℚ) < 10 ^ x := zpow_pos (by norm_num) x

theorem ten_zpow_lt {x y : ℤ} : (10 : ℚ) ^ x < 10 ^ y ↔ x < y :=
  zpow_lt_zpow_iff_right₀ (by norm_num)

theorem ten_zpow_add (x : ℤ) (k : ℕ) : (10 : ℚ) ^ (x + k) = 10 ^ x * 10 ^ k := by
  rw [zpow_add₀ (by norm_num), zpow_natCast]

/-- A coefficient of six digits and an exponent are known from what they make up. -/
theorem eq_of_coefficient {m m' e e' : ℤ} (hm : 100000 ≤ |m| ∧ |m| ≤ 999999)
    (hm' : 100000 ≤ |m'| ∧ |m'| ≤ 999999) (h : (m : ℚ) * 10 ^ (e - 5) = m' * 10 ^ (e' - 5)) :
    m = m' ∧ e = e' := by
  have hle : ∀ {m m' e e' : ℤ}, 100000 ≤ |m| → |m'| ≤ 999999 →
      (m : ℚ) * 10 ^ (e - 5) = m' * 10 ^ (e' - 5) → e ≤ e' := by
    intro m m' e e' hlow hhigh heq
    have habs : |(m : ℚ)| * 10 ^ (e - 5) = |(m' : ℚ)| * 10 ^ (e' - 5) := by
      have := congrArg abs heq
      rwa [abs_mul, abs_mul, abs_of_pos (ten_zpow_pos _), abs_of_pos (ten_zpow_pos _)] at this
    have hlow' : (10 : ℚ) ^ 5 ≤ |(m : ℚ)| := by exact_mod_cast hlow
    have hhigh' : |(m' : ℚ)| < 10 ^ 6 := by exact_mod_cast (by omega : |m'| < 1000000)
    have hlt : (10 : ℚ) ^ (e - 5 + (5 : ℕ)) < 10 ^ (e' - 5 + (6 : ℕ)) := by
      rw [ten_zpow_add, ten_zpow_add]
      calc (10 : ℚ) ^ (e - 5) * 10 ^ 5
          ≤ |(m : ℚ)| * 10 ^ (e - 5) := by
            rw [mul_comm]
            exact mul_le_mul_of_nonneg_right hlow' (ten_zpow_pos _).le
        _ = |(m' : ℚ)| * 10 ^ (e' - 5) := habs
        _ < 10 ^ (e' - 5) * 10 ^ 6 := by
            rw [mul_comm _ ((10 : ℚ) ^ 6)]
            exact mul_lt_mul_of_pos_right hhigh' (ten_zpow_pos _)
    have := ten_zpow_lt.mp hlt
    push_cast at this
    omega
  obtain rfl : e = e' := Int.le_antisymm (hle hm.1 hm'.2 h) (hle hm'.1 hm.2 h.symm)
  exact ⟨by exact_mod_cast mul_right_cancel₀ (ten_zpow_pos _).ne' h, rfl⟩

namespace RoundsToSix

variable {v : ℚ} {m m' e e' : ℤ}

theorem neg (h : RoundsToSix v m e) : RoundsToSix (-v) (-m) e := by
  obtain ⟨x, n, hx, hx', hn, heq⟩ := h.nearest
  refine ⟨(abs_neg m).symm ▸ h.low, (abs_neg m).symm ▸ h.high, x, -n, (abs_neg v).symm ▸ hx,
    (abs_neg v).symm ▸ hx', ?_, ?_⟩
  · rw [neg_div]
    exact hn.neg
  · push_cast
    rw [neg_mul, neg_mul, heq]

/-- A number is rounded to six significant digits in one way only. -/
theorem unique (h : RoundsToSix v m e) (h' : RoundsToSix v m' e') : m = m' ∧ e = e' := by
  obtain ⟨x, n, hx, hx', hn, heq⟩ := h.nearest
  obtain ⟨y, k, hy, hy', hk, heq'⟩ := h'.nearest
  have hxy : x < y + 1 := ten_zpow_lt.mp (hx.trans_lt hy')
  have hyx : y < x + 1 := ten_zpow_lt.mp (hy.trans_lt hx')
  obtain rfl : x = y := by omega
  obtain rfl := hn.unique hk
  exact eq_of_coefficient ⟨h.low, h.high⟩ ⟨h'.low, h'.high⟩ (heq.symm.trans heq')

/-- The number in units of its sixth digit. -/
theorem abs_scaled {v : ℚ} {x : ℤ} (hlow : (10 : ℚ) ^ x ≤ |v|) (hhigh : |v| < 10 ^ (x + 1)) :
    100000 ≤ |v / 10 ^ (x - 5)| ∧ |v / 10 ^ (x - 5)| < 1000000 := by
  have hpos := ten_zpow_pos (x - 5)
  have hx : (10 : ℚ) ^ x = 10 ^ (x - 5) * 10 ^ 5 := by
    rw [← ten_zpow_add]
    congr 1
    push_cast
    ring
  have hx' : (10 : ℚ) ^ (x + 1) = 10 ^ (x - 5) * 10 ^ 6 := by
    rw [← ten_zpow_add]
    congr 1
    push_cast
    ring
  rw [hx] at hlow
  rw [hx'] at hhigh
  rw [abs_div, abs_of_pos hpos, le_div_iff₀ hpos, div_lt_iff₀ hpos]
  constructor
  · linarith
  · linarith

/-- What a number is rounded to is also the nearest number with the last digit at that place: if the
rounding carries into a new digit, the number is close to a power of ten. -/
theorem nearest_again (h : RoundsToSix v m e) : NearestEven (v / 10 ^ (e - 5)) m := by
  obtain ⟨x, n, hx, hx', hn, heq⟩ := h.nearest
  obtain ⟨hlow, hhigh⟩ := abs_scaled hx hx'
  have hnlow : 100000 ≤ |n| := hn.abs.le_of_le (by exact_mod_cast hlow)
  have hnhigh : |n| ≤ 1000000 := hn.abs.ge_of_ge (by exact_mod_cast hhigh.le)
  rcases Int.le_iff_lt_or_eq.mp hnhigh with hlt | hcarry
  · obtain ⟨rfl, rfl⟩ := eq_of_coefficient ⟨hnlow, by omega⟩ ⟨h.low, h.high⟩ heq
    exact hn
  · -- All six digits were nines.
    obtain ⟨k, rfl⟩ : ∃ k : ℤ, n = 10 * k := by
      rcases abs_eq (by norm_num) |>.mp hcarry with rfl | rfl
      · exact ⟨100000, rfl⟩
      · exact ⟨-100000, rfl⟩
    have hk : |k| = 100000 := by rw [abs_mul] at hcarry; norm_num at hcarry; omega
    have hten : (10 : ℚ) ^ (x + 1 - 5) = 10 ^ (x - 5) * 10 := by
      rw [show x + 1 - 5 = x - 5 + (1 : ℕ) by push_cast; ring, ten_zpow_add, pow_one]
    have heq' : (k : ℚ) * 10 ^ (x + 1 - 5) = m * 10 ^ (e - 5) := by
      rw [← heq, hten]
      push_cast
      ring
    obtain ⟨rfl, rfl⟩ := eq_of_coefficient ⟨hk.ge, by omega⟩ ⟨h.low, h.high⟩ heq'
    refine .of_lt_half ?_
    have hdist := hn.1
    rw [hten, ← div_div, show v / 10 ^ (x - 5) / 10 - k = (v / 10 ^ (x - 5) - ((10 * k : ℤ) : ℚ)) / 10 by
      push_cast; ring, abs_div, abs_of_pos (by norm_num : (0 : ℚ) < 10)]
    linarith

end RoundsToSix

/-- The rounding of a positive ratio is a rounding to six significant digits. -/
theorem Scientific.ofRatio_roundsToSix {num den : ℕ} (hnum : 0 < num) (hden : 0 < den) :
    RoundsToSix (num / den) (ofRatio 6 num den).coefficient (ofRatio 6 num den).exponent := by
  obtain ⟨hx, hx'⟩ := decimalExponent_spec hnum hden
  have hn := roundShifted_nearest num hden (((6 : ℕ) : ℤ) - 1 - decimalExponent num den)
  rw [ofRatio]
  generalize decimalExponent num den = x at *
  generalize roundShifted num den _ = n at *
  have hv : (0 : ℚ) < num / den := div_pos (by exact_mod_cast hnum) (by exact_mod_cast hden)
  rw [← abs_of_pos hv] at hx hx'
  have hscale : (num : ℚ) / den * 10 ^ (((6 : ℕ) : ℤ) - 1 - x) = num / den / 10 ^ (x - 5) := by
    rw [div_eq_mul_inv (_ / _) ((10 : ℚ) ^ (x - 5)), ← zpow_neg]
    congr 2
    push_cast
    ring
  rw [hscale] at hn
  obtain ⟨hlow, hhigh⟩ := RoundsToSix.abs_scaled hx hx'
  have hnlow : (100000 : ℤ) ≤ |(n : ℤ)| := hn.abs.le_of_le (by exact_mod_cast hlow)
  have hnhigh : |(n : ℤ)| ≤ 1000000 := hn.abs.ge_of_ge (by exact_mod_cast hhigh.le)
  rw [Nat.abs_cast] at hnlow hnhigh
  split
  · rename_i hcarry
    have hn' : n = 1000000 := hcarry
    subst hn'
    refine ⟨(by decide : (100000 : ℤ) ≤ |((100000 : ℕ) : ℤ)|),
      (by decide : |((100000 : ℕ) : ℤ)| ≤ 999999), x, _, hx, hx', hn, ?_⟩
    rw [show x + 1 - 5 = x - 5 + (1 : ℕ) by push_cast; ring, ten_zpow_add, pow_one]
    change ((1000000 : ℕ) : ℤ) * (10 : ℚ) ^ (x - 5) = ((100000 : ℕ) : ℤ) * (10 ^ (x - 5) * 10)
    push_cast
    ring
  · rename_i hcarry
    have hne : n ≠ 1000000 := hcarry
    refine ⟨?_, ?_, x, _, hx, hx', hn, rfl⟩
    · rw [Nat.abs_cast]
      exact hnlow
    · rw [Nat.abs_cast]
      dsimp only
      omega

-- ════════════════════════════════════════════════════════════════════════
-- The number behind the bits
-- ════════════════════════════════════════════════════════════════════════

namespace Binary64

/-- The number that finite bits stand for. The least exponent has no leading one. -/
def value (x : Binary64) : ℚ :=
  (if x.isNegative then -1 else 1) *
    (if x.exponentField = 0 then (x.fraction : ℚ) / 2 ^ 52 * (2 : ℚ) ^ (-1022 : ℤ)
    else (1 + (x.fraction : ℚ) / 2 ^ 52) * (2 : ℚ) ^ ((x.exponentField : ℤ) - 1023))

theorem cast_shiftLeft (n k : ℕ) : ((n <<< k : ℕ) : ℚ) = n * 2 ^ (k : ℤ) := by
  rw [Nat.shiftLeft_eq, zpow_natCast]
  push_cast
  ring

theorem shiftLeft_pos {n : ℕ} (k : ℕ) : 0 < n <<< k ↔ 0 < n := by
  rw [Nat.shiftLeft_eq]
  exact Nat.mul_pos_iff_of_pos_right (Nat.two_pow_pos k)

theorem denominator_pos (x : Binary64) : 0 < x.denominator := (shiftLeft_pos 1074).mpr Nat.one_pos

theorem magnitude_eq (x : Binary64) :
    (x.numerator : ℚ) / x.denominator = x.significand * 2 ^ ((x.scale : ℤ) - 1074) := by
  have hdenominator : (x.denominator : ℚ) = 2 ^ (1074 : ℤ) := by
    refine (cast_shiftLeft 1 1074).trans ?_
    rw [Nat.cast_one, one_mul]
    rfl
  rw [hdenominator, numerator, cast_shiftLeft, zpow_sub₀ two_ne_zero, mul_div_assoc]

/-- The magnitude of a number is the ratio that is rounded. -/
theorem value_eq (x : Binary64) :
    x.value = (if x.isNegative then -1 else 1) * ((x.numerator : ℚ) / x.denominator) := by
  have hfield : ∀ k : ℤ, (2 : ℚ) ^ k = 2 ^ (k - 52) * 2 ^ 52 := by
    intro k
    rw [← zpow_natCast, ← zpow_add₀ two_ne_zero]
    congr 1
    omega
  rw [value, magnitude_eq, significand, scale]
  congr 1
  split
  · rename_i hzero
    rw [hzero, hfield (-1022), div_mul_eq_mul_div, ← mul_assoc, mul_div_cancel_right₀ _ (by positivity)]
    rfl
  · rename_i hpos
    have hscale : ((x.exponentField - 1 : ℕ) : ℤ) - 1074 = (x.exponentField : ℤ) - 1023 - 52 := by omega
    have hlead : (((1 <<< 52) + x.fraction : ℕ) : ℚ) = (1 + x.fraction / 2 ^ 52) * 2 ^ 52 := by
      rw [Nat.cast_add, cast_shiftLeft, add_mul, div_mul_cancel₀ _ (by positivity), Nat.cast_one]
      rfl
    rw [hscale, hlead, hfield]
    ring

theorem numerator_pos_iff (x : Binary64) : 0 < x.numerator ↔ x.isZero = false := by
  rw [numerator, shiftLeft_pos, significand, isZero, Bool.and_eq_false_iff, beq_eq_false_iff_ne,
    beq_eq_false_iff_ne]
  split
  · rename_i hzero
    simp [hzero, Nat.pos_iff_ne_zero]
  · rename_i hpos
    have := (shiftLeft_pos (n := 1) 52).mpr Nat.one_pos
    simp only [ne_eq, hpos, not_false_eq_true, true_or, iff_true]
    omega

theorem value_ne_zero_iff (x : Binary64) : x.value ≠ 0 ↔ x.isZero = false := by
  have hden : (x.denominator : ℚ) ≠ 0 := by exact_mod_cast x.denominator_pos.ne'
  have hsign : (if x.isNegative then -1 else 1 : ℚ) ≠ 0 := by split <;> norm_num
  rw [← numerator_pos_iff, value_eq, mul_ne_zero_iff, div_ne_zero_iff, Nat.pos_iff_ne_zero]
  simp [hden, hsign]

theorem value_neg_iff {x : Binary64} (h : x.value ≠ 0) : x.value < 0 ↔ x.isNegative = true := by
  have hnum := x.numerator_pos_iff.mpr (x.value_ne_zero_iff.mp h)
  have hpos : (0 : ℚ) < x.numerator / x.denominator :=
    div_pos (by exact_mod_cast hnum) (by exact_mod_cast x.denominator_pos)
  rw [value_eq]
  split
  · rename_i hneg
    simp [hneg, hpos]
  · rename_i hneg
    simp [hneg, hpos.le]

/-- The digits in a listing are those of the number rounded to six digits. -/
theorem rounded_roundsToSix (x : Binary64) (h : x.value ≠ 0) : RoundsToSix x.value
    ((if x.isNegative then -1 else 1) * (Scientific.ofRatio 6 x.numerator x.denominator).coefficient)
    (Scientific.ofRatio 6 x.numerator x.denominator).exponent := by
  have hnum := x.numerator_pos_iff.mpr (x.value_ne_zero_iff.mp h)
  have hrounds := Scientific.ofRatio_roundsToSix hnum x.denominator_pos
  rw [value_eq]
  split
  · rw [neg_one_mul, neg_one_mul]
    exact hrounds.neg
  · rw [one_mul, one_mul]
    exact hrounds

end Binary64

end MiddleEnd
