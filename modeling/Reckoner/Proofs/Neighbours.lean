import Reckoner.Proofs.Held
import Reckoner.Proofs.RoundedOrder
import Reckoner.Proofs.DoubleRounding

/-! # The neighbours of an exact result

Between the two numbers next to an exact result that have no more digits than are kept there is no
third one. What is stored of the result cannot leave the space between them, because both are whole
numbers of last places. So the two roundings of an operation together err by less than one unit of
the last digit to keep, whatever the mode, as long as the result is not so small that this digit is
past the last place.
-/

namespace Reckoner

namespace Decimal.Stores

variable {value : Decimal} {mode : RoundingMode} {x bound : ℚ} {places : Nat} {n : ℤ}

theorem le_toRat (h : value.Stores mode x places) (whole : bound * 10 ^ places = n)
    (le : bound ≤ x) : bound ≤ value.toRat := by
  have scale : (0 : ℚ) < 10 ^ places := by positivity
  rw [← mul_le_mul_iff_left₀ scale, whole] at le
  have rounded := mode.intCast_le_toInt le
  rw [← mul_le_mul_iff_left₀ scale, whole, h.toRat_mul]
  exact_mod_cast rounded

theorem toRat_le (h : value.Stores mode x places) (whole : bound * 10 ^ places = n)
    (le : x ≤ bound) : value.toRat ≤ bound := by
  have negated : -bound * 10 ^ places = (-n : ℤ) := by
    rw [neg_mul, whole, Int.cast_neg]
  have mirrored := h.neg.le_toRat negated (neg_le_neg le)
  rwa [toRat_neg, neg_le_neg_iff] at mirrored

end Decimal.Stores

namespace Precision

variable {precision : Precision} {x y : ℚ}

/-- Whether a number has no more significant digits than are kept. -/
def HasDigits (precision : Precision) (y : ℚ) : Prop :=
  ∃ (few : ℕ) (exponent : ℤ), few < 10 ^ precision.digits ∧ |y| = few * 10 ^ exponent

theorem HasDigits.neg (h : precision.HasDigits y) : precision.HasDigits (-y) := by
  rwa [HasDigits, abs_neg]

theorem hasDigits_of_round {value rounded : Decimal} (h : precision.round value = .ok rounded) :
    precision.HasDigits rounded.toRat :=
  (holds_toRat_iff.2 (keeps_of_round h).1).digits

theorem HasDigits.eq_mul_unit_or_lt (h : precision.HasDigits y) (x : ℚ) :
    (∃ n : ℤ, y = n * precision.unit x) ∨ |y| < 10 ^ Int.log 10 |x| := by
  obtain ⟨few, exponent, small, written⟩ := h
  rcases le_or_gt (Int.log 10 |x| + 1 - precision.digits) exponent with larger | smaller
  · left
    obtain ⟨more, same⟩ := Int.eq_ofNat_of_zero_le (sub_nonneg.2 larger)
    have units : |y| = (few * 10 ^ more : ℤ) * precision.unit x := by
      rw [written, unit]
      push_cast
      rw [mul_assoc, ← zpow_natCast, ← zpow_add₀ (by norm_num), ← same, sub_add_cancel]
    rcases abs_choice y with positive | negative
    · exact ⟨_, positive ▸ units⟩
    · refine ⟨-(few * 10 ^ more), ?_⟩
      rw [Int.cast_neg, neg_mul, ← units, negative, neg_neg]
  · right
    have small' : (few : ℚ) < 10 ^ precision.digits := by exact_mod_cast small
    calc |y| = few * 10 ^ exponent := written
      _ < 10 ^ precision.digits * 10 ^ exponent := by gcongr
      _ = 10 ^ (precision.digits + exponent : ℤ) := by
        rw [zpow_add₀ (by norm_num), zpow_natCast]
      _ ≤ 10 ^ Int.log 10 |x| := zpow_le_zpow_right₀ (by norm_num) (by omega)

theorem le_floor_mul_unit {n : ℤ} (units : y = n * precision.unit x) (le : y ≤ x) :
    y ≤ ⌊x / precision.unit x⌋ * precision.unit x := by
  have positive := precision.unit_pos x
  rw [units, ← le_div_iff₀ positive] at le
  have counted := Int.le_floor.2 le
  rw [units]
  gcongr

theorem HasDigits.le_floor (h : precision.HasDigits y) (nonzero : x ≠ 0) (le : y ≤ x) :
    y ≤ ⌊x / precision.unit x⌋ * precision.unit x := by
  rcases h.eq_mul_unit_or_lt x with ⟨n, units⟩ | less
  · exact le_floor_mul_unit units le
  have power := zpow_log_le (abs_pos.2 nonzero)
  rcases lt_or_gt_of_ne nonzero with negative | positive
  · have larger : |x| ≤ |y| := abs_le_abs_of_nonpos negative.le le
    exact absurd (larger.trans_lt less) power.not_gt
  · obtain ⟨n, units⟩ := (precision.exists_zpow_eq_mul_unit x).1
    rw [abs_of_pos positive] at power
    rw [abs_of_pos positive] at units less
    calc y ≤ |y| := le_abs_self y
      _ ≤ 10 ^ Int.log 10 x := less.le
      _ ≤ _ := le_floor_mul_unit units power

theorem HasDigits.ceil_le (h : precision.HasDigits y) (nonzero : x ≠ 0) (le : x ≤ y) :
    ⌈x / precision.unit x⌉ * precision.unit x ≤ y := by
  have mirrored := h.neg.le_floor (neg_ne_zero.2 nonzero) (neg_le_neg le)
  rw [unit_neg, neg_div, Int.floor_neg, Int.cast_neg, neg_mul, neg_le_neg_iff] at mirrored
  exact mirrored

/-- A number with few digits that is one of the two whole numbers of units around another number is
    next to it among all numbers with so few digits. -/
theorem HasDigits.isGreatest_or_isLeast {n : ℤ} (h : precision.HasDigits y) (nonzero : x ≠ 0)
    (units : y = n * precision.unit x) (low : ⌊x / precision.unit x⌋ ≤ n)
    (high : n ≤ ⌈x / precision.unit x⌉) :
    |y - x| < precision.unit x ∧
      (IsGreatest {y | precision.HasDigits y ∧ y ≤ x} y ∨
        IsLeast {y | precision.HasDigits y ∧ x ≤ y} y) := by
  have positive := precision.unit_pos x
  have counted : x = x / precision.unit x * precision.unit x := (div_mul_cancel₀ x positive.ne').symm
  have next := Int.ceil_le_floor_add_one (x / precision.unit x)
  have apart : |y - x| = |n - x / precision.unit x| * precision.unit x := by
    rw [← abs_of_pos positive, ← abs_mul, abs_of_pos positive, sub_mul, ← counted, units]
  have less : |n - x / precision.unit x| < 1 := by
    have below := Int.lt_floor_add_one (x / precision.unit x)
    have above := Int.ceil_lt_add_one (x / precision.unit x)
    have low' : (⌊x / precision.unit x⌋ : ℚ) ≤ n := by exact_mod_cast low
    have high' : (n : ℚ) ≤ ⌈x / precision.unit x⌉ := by exact_mod_cast high
    rw [abs_lt]
    constructor <;> linarith
  refine ⟨?_, ?_⟩
  · rw [apart]
    exact mul_lt_of_lt_one_left positive less
  rcases (by omega : n = ⌊x / precision.unit x⌋ ∨ n = ⌈x / precision.unit x⌉) with rfl | rfl
  · left
    refine ⟨⟨h, ?_⟩, fun other ⟨few, le⟩ => units ▸ few.le_floor nonzero le⟩
    rw [units, ← le_div_iff₀ positive]
    exact Int.floor_le _
  · right
    refine ⟨⟨h, ?_⟩, fun other ⟨few, le⟩ => units ▸ few.ceil_le nonzero le⟩
    rw [units, ← div_le_iff₀ positive]
    exact Int.le_ceil _

/-- What is stored of a number lies between the two whole numbers of units around the number. -/
theorem stored_mem_units {stored : Decimal} {mode : RoundingMode} {places : Nat}
    (stores : stored.Stores mode x places) (large : 10 ^ (precision.digits - 29 : ℤ) ≤ |x|) :
    ⌊x / precision.unit x⌋ * precision.unit x ≤ stored.toRat ∧
      stored.toRat ≤ ⌈x / precision.unit x⌉ * precision.unit x := by
  have positive := precision.unit_pos x
  have below : ⌊x / precision.unit x⌋ * precision.unit x ≤ x :=
    (le_div_iff₀ positive).1 (Int.floor_le _)
  have above : x ≤ ⌈x / precision.unit x⌉ * precision.unit x :=
    (div_le_iff₀ positive).1 (Int.le_ceil _)
  by_cases exact : stored.toRat = x
  · rw [exact]
    exact ⟨below, above⟩
  obtain ⟨units, whole⟩ := exists_unit_mul_eq stores exact large
  have places_mul (n : ℤ) : n * precision.unit x * 10 ^ places = (n * units : ℤ) := by
    rw [mul_assoc, whole, Int.cast_mul]
  exact ⟨stores.le_toRat (places_mul _) below, stores.toRat_le (places_mul _) above⟩

/-- The result of an operation is next to the exact one among the numbers that have no more digits
    than are kept, and differs from it by less than one unit of the last digit to keep, unless the
    exact result is so small that this digit is past the last place. -/
theorem neighbour_of_apply {operator : Operator} {left right result : Decimal}
    (h : precision.apply operator left right = .ok result)
    (large : 10 ^ (precision.digits - 29 : ℤ) ≤ |operator.exact left.toRat right.toRat|) :
    let exact := operator.exact left.toRat right.toRat
    |result.toRat - exact| < 10 ^ (Int.log 10 |exact| - precision.digits + 1) ∧
      (IsGreatest {y | precision.HasDigits y ∧ y ≤ exact} result.toRat ∨
        IsLeast {y | precision.HasDigits y ∧ exact ≤ y} result.toRat) := by
  intro exact
  obtain ⟨stored, -, kept, ⟨places, stands⟩, vanishes⟩ := stored_of_apply h
  have nonzero : exact ≠ 0 := abs_pos.1 (lt_of_lt_of_le (by positivity) large)
  have positive := precision.unit_pos exact
  obtain ⟨units, -⟩ := round_eq_rounded_iff stands.stores trivial vanishes kept
  obtain ⟨below, above⟩ := stored_mem_units stands.stores large
  rw [← le_div_iff₀ positive] at below
  rw [← div_le_iff₀ positive] at above
  have low := precision.rounding.intCast_le_toInt below
  have high := precision.rounding.toInt_le_intCast above
  have enclosed := (hasDigits_of_round kept).isGreatest_or_isLeast nonzero units low high
  rwa [unit, add_sub_right_comm] at enclosed

/-- Two thirds with all digits come out as the neighbour above them although the mode rounds down. -/
theorem two_thirds_below_neighbour :
    let precision : Precision := ⟨28, .down, by decide, by decide⟩
    let two : Decimal := ⟨false, 2, 0, by decide, by decide⟩
    let three : Decimal := ⟨false, 3, 0, by decide, by decide⟩
    let above : Decimal := ⟨false, 6666666666666666666666666667, 28, by decide, by decide⟩
    let exact := Operator.divide.exact two.toRat three.toRat
    precision.apply .divide two three = .ok above ∧
      10 ^ (precision.digits - 29 : ℤ) ≤ |exact| ∧
      IsLeast {y | precision.HasDigits y ∧ exact ≤ y} above.toRat := by
  intro precision two three above exact
  have quotient : precision.apply .divide two three = .ok above := by decide +kernel
  have twoThirds : exact = 2 / 3 := by
    norm_num [exact, two, three, Operator.exact, Decimal.toRat_eq, signFactor]
  have large : (10 : ℚ) ^ (precision.digits - 29 : ℤ) ≤ |exact| := by
    norm_num [precision, twoThirds]
  refine ⟨quotient, large, ?_⟩
  obtain ⟨-, ⟨⟨-, below⟩, -⟩ | least⟩ := neighbour_of_apply quotient large
  · change above.toRat ≤ exact at below
    norm_num [twoThirds, above, Decimal.toRat_eq, signFactor] at below
  · exact least

end Precision

end Reckoner
