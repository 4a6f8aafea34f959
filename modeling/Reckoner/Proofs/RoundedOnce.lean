import Mathlib.Algebra.Order.Field.Power
import Mathlib.Data.Int.Log
import Mathlib.Tactic.Positivity
import Reckoner.Precision.Basic
import Reckoner.Proofs.ExactRounding

/-! # Rounding to significant digits

A number is rounded to a working precision by writing it in units of the last digit to keep and
taking the whole number that the mode chooses. `Precision.round` does this to the number that a
decimal denotes.
-/

namespace Reckoner

@[simp]
theorem natCast_tenPow (exponent : Nat) : ((tenPow exponent : ℕ) : ℚ) = 10 ^ exponent := by
  induction exponent with
  | zero => simp
  | succ exponent ih => rw [tenPow_succ, Nat.cast_mul, ih, pow_succ']; rfl

theorem log_eq_of_bounds {x : ℚ} {exponent : ℤ} (low : 10 ^ exponent ≤ x)
    (high : x < 10 ^ (exponent + 1)) : Int.log 10 x = exponent := by
  have positive : 0 < x := lt_of_lt_of_le (by positivity) low
  have low' := (Int.zpow_le_iff_le_log (b := 10) (by norm_num) positive).1 (by exact_mod_cast low)
  have high' := (Int.lt_zpow_iff_log_lt (b := 10) (by norm_num) positive).1 (by exact_mod_cast high)
  omega

theorem zpow_log_le {x : ℚ} (h : 0 < x) : 10 ^ Int.log 10 x ≤ x := by
  exact_mod_cast Int.zpow_log_le_self (b := 10) (by norm_num) h

theorem lt_zpow_log_add_one (x : ℚ) : x < 10 ^ (Int.log 10 x + 1) := by
  exact_mod_cast Int.lt_zpow_succ_log_self (b := 10) (by norm_num) x

/-- The factor of a sign. -/
def signFactor (negative : Bool) : ℚ :=
  if negative then -1 else 1

@[simp]
theorem abs_signFactor (negative : Bool) : |signFactor negative| = 1 := by
  cases negative <;> simp [signFactor]

theorem RoundingMode.toInt_signFactor_mul_div (mode : RoundingMode) (negative : Bool)
    (dividend : Nat) {divisor : Nat} (h : 0 < divisor) :
    (mode.toInt (signFactor negative * (dividend / divisor)) : ℚ) =
      signFactor negative * mode.divide negative dividend divisor := by
  have whole := mode.toInt_signed_div negative dividend h
  cases negative with
  | false => simpa [signFactor] using congrArg (Int.cast : ℤ → ℚ) whole
  | true => simpa [signFactor] using congrArg (Int.cast : ℤ → ℚ) whole

namespace Decimal

theorem toRat_eq (value : Decimal) :
    value.toRat = signFactor value.negative * (value.mantissa / 10 ^ value.scale) := by
  rw [toRat, Rat.mkRat_eq_div, signed, signFactor]
  push_cast [natCast_tenPow]
  cases value.negative <;> simp [neg_div]

theorem abs_toRat (value : Decimal) : |value.toRat| = value.mantissa / 10 ^ value.scale := by
  rw [toRat_eq, abs_mul, abs_signFactor, one_mul, abs_of_nonneg (by positivity)]

theorem abs_toRat_mul_pow (value : Decimal) :
    |value.toRat| * 10 ^ value.scale = value.mantissa := by
  rw [abs_toRat, div_mul_cancel₀ _ (by positivity)]

theorem abs_toRat_lt (value : Decimal) : |value.toRat| < mantissaLimit := by
  have room : (value.mantissa : ℚ) < mantissaLimit := by exact_mod_cast value.mantissa_lt
  have least : (1 : ℚ) ≤ 10 ^ value.scale := one_le_pow₀ (by norm_num)
  rw [abs_toRat]
  exact (div_le_self (by positivity) least).trans_lt room

theorem toRat_eq_zero_iff {value : Decimal} : value.toRat = 0 ↔ value.mantissa = 0 := by
  rw [← abs_eq_zero, abs_toRat, div_eq_zero_iff]
  simp

theorem log_abs_toRat {value : Decimal} (h : 0 < value.mantissa) :
    Int.log 10 |value.toRat| = value.digitCount - 1 - value.scale := by
  have scale : (0 : ℚ) < 10 ^ value.scale := by positivity
  have low : (10 : ℚ) ^ value.digitCount ≤ 10 * value.mantissa := by
    rw [← natCast_tenPow]
    exact_mod_cast Digits.tenPow_count_le h
  have high : (value.mantissa : ℚ) < 10 ^ value.digitCount := by
    rw [← natCast_tenPow]
    exact_mod_cast Digits.lt_tenPow_count value.mantissa
  rw [abs_toRat]
  apply log_eq_of_bounds
  · rw [le_div_iff₀ scale, zpow_sub₀ (by norm_num), zpow_sub₀ (by norm_num), zpow_natCast,
      zpow_natCast, zpow_one, div_mul_cancel₀ _ scale.ne', div_le_iff₀ (by norm_num)]
    linarith
  · rw [div_lt_iff₀ scale, sub_add_eq_add_sub, sub_add_cancel, zpow_sub₀ (by norm_num),
      zpow_natCast, zpow_natCast, div_mul_cancel₀ _ scale.ne']
    exact high

end Decimal

namespace Precision

variable (precision : Precision)

/-- What one counts in the last digit to keep of a number. -/
def unit (x : ℚ) : ℚ :=
  10 ^ (Int.log 10 |x| + 1 - precision.digits)

/-- A number rounded once to the working precision. -/
def rounded (x : ℚ) : ℚ :=
  precision.rounding.toInt (x / precision.unit x) * precision.unit x

theorem unit_pos (x : ℚ) : 0 < precision.unit x := by
  unfold unit
  positivity

theorem toInt_div_mul_cancel (mode : RoundingMode) {x unit : ℚ} (n : ℤ) (h : x = n * unit)
    (positive : 0 < unit) : mode.toInt (x / unit) * unit = x := by
  rw [h, mul_div_assoc, div_self positive.ne', mul_one, RoundingMode.toInt_intCast]

@[simp]
theorem rounded_zero : precision.rounded 0 = 0 := by
  simp [rounded]

theorem rounded_le_of_down (down : precision.rounding = .down) {x : ℚ} (nonneg : 0 ≤ x) :
    precision.rounded x ≤ x := by
  have positive := precision.unit_pos x
  have quotient : 0 ≤ x / precision.unit x := div_nonneg nonneg positive.le
  rw [rounded, down, RoundingMode.toInt, RoundingMode.towardZero, if_pos quotient,
    ← le_div_iff₀ positive]
  exact Int.floor_le _

theorem unit_toRat {value : Decimal} (h : 0 < value.mantissa) :
    precision.unit value.toRat = 10 ^ (value.digitCount - value.scale - precision.digits : ℤ) := by
  rw [unit, Decimal.log_abs_toRat h]
  congr 1
  ring

theorem rounded_toRat_of_digitCount_le {value : Decimal}
    (h : value.digitCount ≤ precision.digits) : precision.rounded value.toRat = value.toRat := by
  rcases Nat.eq_zero_or_pos value.mantissa with zero | nonzero
  · rw [Decimal.toRat_eq_zero_iff.2 zero, rounded_zero]
  refine toInt_div_mul_cancel _ ((if value.negative then -1 else 1) * value.mantissa *
    10 ^ (precision.digits - value.digitCount)) ?_ (precision.unit_pos _)
  have places : (10 : ℚ) ^ (precision.digits - value.digitCount) *
      10 ^ (value.digitCount - value.scale - precision.digits : ℤ) = (10 ^ value.scale)⁻¹ := by
    rw [← zpow_natCast, ← zpow_add₀ (by norm_num), ← zpow_natCast, ← zpow_neg]
    congr 1
    omega
  rw [precision.unit_toRat nonzero, Decimal.toRat_eq, signFactor]
  push_cast
  rw [mul_assoc, places]
  cases value.negative <;> simp [div_eq_mul_inv]

theorem rounded_toRat_of_lt_digitCount {value : Decimal} (h : precision.digits < value.digitCount) :
    let dropped := value.digitCount - precision.digits
    precision.rounded value.toRat = signFactor value.negative *
      ((precision.rounding.divide value.negative value.mantissa (tenPow dropped) *
        tenPow (dropped - value.scale) : ℕ) / 10 ^ (value.scale - dropped)) := by
  intro dropped
  have nonzero : 0 < value.mantissa := by
    rcases Nat.eq_zero_or_pos value.mantissa with zero | nonzero
    · simp [Decimal.digitCount, zero, Digits.count] at h
    · exact nonzero
  have unitEq : precision.unit value.toRat = 10 ^ dropped / 10 ^ value.scale := by
    rw [precision.unit_toRat nonzero, ← zpow_natCast, ← zpow_natCast,
      ← zpow_sub₀ (by norm_num)]
    congr 1
    omega
  have quotient : value.toRat / precision.unit value.toRat =
      signFactor value.negative * ((value.mantissa : ℚ) / (tenPow dropped : ℕ)) := by
    rw [unitEq, Decimal.toRat_eq, natCast_tenPow]
    field_simp
  have places : (10 : ℚ) ^ (dropped - value.scale) / 10 ^ (value.scale - dropped) =
      10 ^ dropped / 10 ^ value.scale := by
    rw [div_eq_div_iff (by positivity) (by positivity), ← pow_add, ← pow_add]
    congr 1
    omega
  rw [rounded, quotient,
    precision.rounding.toInt_signFactor_mul_div _ _ (tenPow_pos dropped), unitEq]
  push_cast [natCast_tenPow]
  rw [mul_div_assoc, places, mul_assoc]

/-- Rounding a decimal is rounding the number it denotes. -/
theorem toRat_of_round {value rounded : Decimal} (h : precision.round value = .ok rounded) :
    rounded.toRat = precision.rounded value.toRat := by
  rw [← Decimal.toRat_normalize value]
  simp only [round] at h
  generalize value.normalize = value at h ⊢
  split at h
  · next short =>
    cases h
    exact (precision.rounded_toRat_of_digitCount_le short).symm
  · next long =>
    split at h
    · next stored made =>
      cases h
      obtain ⟨sign, mantissa, scale⟩ := Decimal.ofParts?_eq_some_iff.1 made
      rw [precision.rounded_toRat_of_lt_digitCount (Nat.lt_of_not_le long),
        Decimal.toRat_normalize, Decimal.toRat_eq, sign, mantissa, scale]
    · cases h

/-- A number above zero with its first digit at a known place is rounded by dividing what makes it
    up, counted in the last place to keep. -/
theorem rounded_eq_divide {x : ℚ} (place : ℤ) {dividend divisor : ℕ} (low : 10 ^ place ≤ |x|)
    (high : |x| < 10 ^ (place + 1)) (positive : 0 < divisor)
    (counted : x / 10 ^ (place + 1 - precision.digits) = dividend / divisor) :
    precision.rounded x = precision.rounding.divide false dividend divisor *
      10 ^ (place + 1 - precision.digits) := by
  rw [rounded, unit, log_eq_of_bounds low high, counted,
    RoundingMode.toInt_div_natCast _ _ positive, Int.cast_natCast]

theorem exists_eq_mul_zpow {y : ℚ} {place : ℤ} (h : |y| = 10 ^ place) (lower : Nat) :
    ∃ n : ℤ, y = n * 10 ^ (place - lower) := by
  have power : (10 : ℚ) ^ place = (10 ^ lower : ℤ) * 10 ^ (place - lower) := by
    push_cast
    rw [← zpow_natCast, ← zpow_add₀ (by norm_num), add_sub_cancel]
  rcases eq_or_eq_neg_of_abs_eq h with positive | negative
  · exact ⟨10 ^ lower, positive.trans power⟩
  · exact ⟨-10 ^ lower, by rw [negative, power, Int.cast_neg, neg_mul]⟩

/-- In the units of a number, another one with its first digit at the same place, or with nothing
    but a one at the next higher place, is rounded as in its own units. -/
theorem rounded_eq_of_log {x y : ℚ}
    (h : Int.log 10 |y| = Int.log 10 |x| ∨ |y| = 10 ^ (Int.log 10 |x| + 1)) :
    precision.rounded y =
      precision.rounding.toInt (y / precision.unit x) * precision.unit x := by
  rcases h with same | carry
  · rw [rounded, unit, unit, same]
  have own : Int.log 10 |y| = Int.log 10 |x| + 1 := by
    rw [carry]
    exact log_eq_of_bounds le_rfl (zpow_lt_zpow_right₀ (by norm_num) (by omega))
  have digits := precision.digits_pos
  obtain ⟨n, units⟩ := exists_eq_mul_zpow carry precision.digits
  obtain ⟨m, ownUnits⟩ := exists_eq_mul_zpow carry (precision.digits - 1)
  have smaller : y = n * precision.unit x := units
  have larger : y = m * precision.unit y := by
    rw [unit, own]
    convert ownUnits using 3
    omega
  rw [rounded, toInt_div_mul_cancel _ m larger (precision.unit_pos y),
    toInt_div_mul_cancel _ n smaller (precision.unit_pos x)]

end Precision

end Reckoner
