import Mathlib.Algebra.Order.Group.Unbundled.Abs
import Mathlib.Data.Sign.Basic
import Reckoner.Proofs.RoundedOnce

/-! # Rounding keeps order and sign

No mode puts the smaller one of two numbers above the larger one. Rounding to significant digits
counts the two numbers in different units if their first digits are at different places, but then
the power of ten between them is a whole number of both units and stays between them. As the first
digit is among those that are kept, nothing but zero is rounded to zero.
-/

namespace Reckoner

namespace RoundingMode

variable {mode : RoundingMode} {switch x y : ℚ}

theorem IsBelow.of_le (h : mode.IsBelow switch y) (le : x ≤ y) : mode.IsBelow switch x := by
  rcases h with less | ⟨same, joins⟩
  · exact .inl (le.trans_lt less)
  · rcases le.lt_or_eq with less | equal
    · exact .inl (less.trans_eq same)
    · exact .inr ⟨equal.trans same, joins⟩

theorem toInt_le_toInt_of_nonneg (mode : RoundingMode) (nonneg : 0 ≤ x) (le : x ≤ y) :
    mode.toInt x ≤ mode.toInt y := by
  obtain ⟨switch, switches, step⟩ := mode.exists_lowerStep_eq (mode.toInt y)
  have below := (isBelow_iff_toInt_le switches (nonneg.trans le)).2 step.ge
  rw [← step]
  exact (isBelow_iff_toInt_le switches nonneg).1 (below.of_le le)

theorem toInt_eq_neg (mode : RoundingMode) (x : ℚ) :
    mode.toInt x = -mode.mirror.toInt (-x) := by
  rw [toInt_neg, mirror_mirror, neg_neg]

/-- A mode keeps the order of numbers. Below zero it does what its mirror does above. -/
theorem toInt_mono (mode : RoundingMode) (le : x ≤ y) : mode.toInt x ≤ mode.toInt y := by
  rcases le_total 0 x with nonneg | nonpos
  · exact mode.toInt_le_toInt_of_nonneg nonneg le
  rcases le_total 0 y with nonneg | negative
  · have below := mode.mirror.toInt_nonneg (neg_nonneg.2 nonpos)
    have above := mode.toInt_nonneg nonneg
    rw [mode.toInt_eq_neg x]
    omega
  · rw [mode.toInt_eq_neg x, mode.toInt_eq_neg y, neg_le_neg_iff]
    exact mode.mirror.toInt_le_toInt_of_nonneg (neg_nonneg.2 negative) (neg_le_neg le)

end RoundingMode

namespace Precision

variable (precision : Precision) {x y : ℚ}

/-- The working precision that does to negative numbers what this one does to positive ones. -/
def mirror : Precision :=
  { precision with rounding := precision.rounding.mirror }

@[simp]
theorem unit_neg (x : ℚ) : precision.unit (-x) = precision.unit x := by
  rw [unit, unit, abs_neg]

theorem rounded_eq_neg (x : ℚ) : precision.rounded x = -precision.mirror.rounded (-x) := by
  rw [rounded, rounded, RoundingMode.toInt_eq_neg, Int.cast_neg, neg_mul, ← neg_div, unit_neg]
  rfl

theorem le_rounded {bound : ℚ} {n : ℤ} (whole : bound = n * precision.unit x) (h : bound ≤ x) :
    bound ≤ precision.rounded x := by
  have positive := precision.unit_pos x
  rw [whole, ← le_div_iff₀ positive] at h
  have counted := precision.rounding.intCast_le_toInt h
  rw [whole, rounded]
  gcongr

theorem rounded_le {bound : ℚ} {n : ℤ} (whole : bound = n * precision.unit x) (h : x ≤ bound) :
    precision.rounded x ≤ bound := by
  have positive := precision.unit_pos x
  rw [whole, ← div_le_iff₀ positive] at h
  have counted := precision.rounding.toInt_le_intCast h
  rw [whole, rounded]
  gcongr

theorem exists_zpow_eq_mul_unit (x : ℚ) :
    (∃ n : ℤ, (10 : ℚ) ^ Int.log 10 |x| = n * precision.unit x) ∧
      ∃ n : ℤ, (10 : ℚ) ^ (Int.log 10 |x| + 1) = n * precision.unit x := by
  have size (place : ℤ) : |(10 : ℚ) ^ place| = 10 ^ place := abs_of_pos (by positivity)
  have digits := precision.digits_pos
  constructor
  · obtain ⟨n, units⟩ := exists_eq_mul_zpow (size (Int.log 10 |x|)) (precision.digits - 1)
    refine ⟨n, units.trans ?_⟩
    rw [unit]
    congr 2
    omega
  · exact exists_eq_mul_zpow (size _) precision.digits

theorem rounded_mem_of_pos (positive : 0 < x) :
    10 ^ Int.log 10 x ≤ precision.rounded x ∧
      precision.rounded x ≤ 10 ^ (Int.log 10 x + 1) := by
  obtain ⟨⟨low, lower⟩, ⟨high, upper⟩⟩ := precision.exists_zpow_eq_mul_unit x
  rw [abs_of_pos positive] at lower upper
  exact ⟨precision.le_rounded lower (zpow_log_le positive),
    precision.rounded_le upper (lt_zpow_log_add_one x).le⟩

theorem rounded_pos (positive : 0 < x) : 0 < precision.rounded x :=
  lt_of_lt_of_le (by positivity) (precision.rounded_mem_of_pos positive).1

theorem rounded_neg_of_neg (negative : x < 0) : precision.rounded x < 0 := by
  rw [rounded_eq_neg]
  exact neg_neg_of_pos (precision.mirror.rounded_pos (neg_pos.2 negative))

/-- Rounding to significant digits keeps the sign, and zero apart from all other numbers. -/
@[simp]
theorem sign_rounded (x : ℚ) : SignType.sign (precision.rounded x) = SignType.sign x := by
  rcases lt_trichotomy x 0 with negative | zero | positive
  · rw [sign_neg negative, sign_neg (precision.rounded_neg_of_neg negative)]
  · rw [zero, rounded_zero]
  · rw [sign_pos positive, sign_pos (precision.rounded_pos positive)]

theorem rounded_le_rounded_of_pos (positive : 0 < x) (le : x ≤ y) :
    precision.rounded x ≤ precision.rounded y := by
  have positive' := positive.trans_le le
  -- Either a power of ten stands between the two, or both are counted in the same unit.
  rcases (Int.log_mono_right (b := 10) positive le).lt_or_eq with less | same
  · calc precision.rounded x ≤ 10 ^ (Int.log 10 x + 1) :=
        (precision.rounded_mem_of_pos positive).2
      _ ≤ 10 ^ Int.log 10 y := zpow_le_zpow_right₀ (by norm_num) (by omega)
      _ ≤ precision.rounded y := (precision.rounded_mem_of_pos positive').1
  · have units : precision.unit x = precision.unit y := by
      rw [unit, unit, abs_of_pos positive, abs_of_pos positive', same]
    have unit_pos := precision.unit_pos y
    have counted := precision.rounding.toInt_mono
      ((div_le_div_iff_of_pos_right unit_pos).2 le)
    rw [rounded, rounded, units]
    gcongr

/-- Rounding to significant digits keeps the order of numbers. -/
theorem rounded_mono : Monotone precision.rounded := by
  intro x y le
  rcases lt_or_ge 0 x with positive | nonpos
  · exact precision.rounded_le_rounded_of_pos positive le
  rcases lt_or_ge y 0 with negative | nonneg
  · rw [rounded_eq_neg, precision.rounded_eq_neg y, neg_le_neg_iff]
    exact precision.mirror.rounded_le_rounded_of_pos (neg_pos.2 negative) (neg_le_neg le)
  · have below : precision.rounded x ≤ 0 := by
      rw [← sign_nonpos_iff, sign_rounded, sign_nonpos_iff]
      exact nonpos
    have above : 0 ≤ precision.rounded y := by
      rw [← sign_nonneg_iff, sign_rounded, sign_nonneg_iff]
      exact nonneg
    exact below.trans above

end Precision

end Reckoner
