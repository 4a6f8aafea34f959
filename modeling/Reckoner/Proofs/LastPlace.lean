import Reckoner.Proofs.DoubleRounding
import Reckoner.Proofs.ExactOperations

/-! # Results at the last place

A number is first stored with all the places that there are. If its mantissa has room, the last of
these places is where it is rounded, and only then can it be short of digits: so the number of last
places that a magnitude is rounded to decides on its own what is stored and whether that is short.
-/

namespace Reckoner

variable {x : ℚ} {precision : Precision}

/-- How many times the unit of the last place a magnitude is, rounded with ties to even. -/
def lastPlaces (x : ℚ) : ℕ :=
  (RoundingMode.halfEven.toInt (|x| * 10 ^ maxScale)).toNat

theorem natCast_lastPlaces (x : ℚ) :
    (lastPlaces x : ℤ) = RoundingMode.halfEven.toInt (|x| * 10 ^ maxScale) :=
  Int.toNat_of_nonneg (RoundingMode.halfEven.toInt_nonneg (by positivity))

theorem le_lastPlaces {n : ℕ} (h : n ≤ |x| * 10 ^ maxScale) : n ≤ lastPlaces x := by
  have rounded : (n : ℤ) ≤ RoundingMode.halfEven.toInt (|x| * 10 ^ maxScale) :=
    RoundingMode.halfEven.intCast_le_toInt (by exact_mod_cast h)
  rw [← natCast_lastPlaces] at rounded
  exact_mod_cast rounded

theorem lastPlaces_le {n : ℕ} (h : |x| * 10 ^ maxScale ≤ n) : lastPlaces x ≤ n := by
  have rounded : RoundingMode.halfEven.toInt (|x| * 10 ^ maxScale) ≤ (n : ℤ) :=
    RoundingMode.halfEven.toInt_le_intCast (by exact_mod_cast h)
  rw [← natCast_lastPlaces] at rounded
  exact_mod_cast rounded

theorem lastPlaces_of_isPlaced (placed : IsPlaced x) :
    |x| = lastPlaces x / 10 ^ maxScale := by
  obtain ⟨whole, written⟩ := placed
  have offered : |x| * 10 ^ maxScale = whole := by
    rw [written, div_mul_cancel₀ _ (by positivity)]
  have same : lastPlaces x = whole :=
    le_antisymm (lastPlaces_le offered.le) (le_lastPlaces offered.ge)
  rw [same, written]

theorem ne_zero_of_not_isPlaced (h : ¬ IsPlaced x) : x ≠ 0 := by
  rintro rfl
  exact h ⟨0, by simp⟩

theorem abs_lt_zpow_iff {digits : ℕ} (positive : 0 < digits) :
    |x| < 10 ^ (digits - 29 : ℤ) ↔ |x| * 10 ^ maxScale < (10 ^ (digits - 1) : ℕ) := by
  have scale : (0 : ℚ) < 10 ^ maxScale := by positivity
  have power : (10 : ℚ) ^ (digits - 29 : ℤ) * 10 ^ maxScale = (10 ^ (digits - 1) : ℕ) := by
    push_cast
    rw [← zpow_natCast, ← zpow_natCast, ← zpow_add₀ (by norm_num), maxScale]
    congr 1
    omega
  rw [← power, mul_lt_mul_iff_left₀ scale]

theorem Decimal.StandsFor.lastPlaces_eq_zero {value : Decimal} {places : Nat}
    (stands : value.StandsFor x places) (vanishes : value.toRat = 0) : lastPlaces x = 0 := by
  by_cases zero : x = 0
  · rw [lastPlaces, zero]
    simp
  · have scaled := stands.stores.abs_mul trivial
    rw [stands.stores.eq_maxScale_of_toRat_eq_zero trivial zero vanishes, vanishes, abs_zero,
      zero_mul, ← natCast_lastPlaces] at scaled
    exact_mod_cast scaled.symm

namespace Decimal

variable {negative : Bool} {dividend divisor places : Nat} {value : Decimal}

theorem toInt_abs_mul_eq_divide (positive : 0 < divisor)
    (same : signFactor negative * (dividend / divisor) = x) (places : Nat) :
    RoundingMode.halfEven.toInt (|x| * 10 ^ places) =
      RoundingMode.halfEven.divide negative (dividend * tenPow places) divisor := by
  have magnitude : |x| * 10 ^ places = ((dividend * tenPow places : ℕ) : ℚ) / divisor := by
    rw [← same, abs_mul, abs_signFactor, one_mul, abs_of_nonneg (by positivity),
      div_mul_eq_mul_div, Nat.cast_mul, natCast_tenPow]
  have sign : RoundingMode.halfEven.onMagnitude negative = .halfEven := by
    cases negative <;> rfl
  rw [magnitude, RoundingMode.toInt_div_natCast _ _ positive,
    RoundingMode.divide_onMagnitude _ negative, sign]

theorem lastPlaces_eq_divide (positive : 0 < divisor)
    (same : signFactor negative * (dividend / divisor) = x) :
    lastPlaces x = RoundingMode.halfEven.divide negative (dividend * tenPow maxScale) divisor := by
  rw [lastPlaces, toInt_abs_mul_eq_divide positive same, Int.toNat_natCast]

theorem nearest?_of_ofParts? (made : ofParts? negative (RoundingMode.halfEven.divide negative
    (dividend * tenPow places) divisor) places = some value) :
    nearest? negative dividend divisor places = some value := by
  cases places with
  | zero => rwa [tenPow_zero, Nat.mul_one] at made
  | succ places => rw [nearest?, made]

/-- Places beyond the last one that there is are given up at once. -/
theorem nearest?_of_maxScale_le (enough : maxScale ≤ places) :
    nearest? negative dividend divisor places = nearest? negative dividend divisor maxScale := by
  induction places, enough using Nat.le_induction with
  | base => rfl
  | succ places enough ih =>
    have refused : ofParts? negative (RoundingMode.halfEven.divide negative
        (dividend * tenPow (places + 1)) divisor) (places + 1) = none :=
      ofParts?_eq_none_iff.2 (.inr (Nat.lt_succ_of_le enough))
    rw [nearest?, refused]
    exact ih

theorem exists_nearest?_of_lastPlaces_lt (positive : 0 < divisor)
    (same : signFactor negative * (dividend / divisor) = x) (enough : maxScale ≤ places)
    (room : lastPlaces x < mantissaLimit) :
    ∃ value, nearest? negative dividend divisor places = some value ∧
      value.scale = maxScale ∧ value.mantissa = lastPlaces x := by
  obtain ⟨value, made, -⟩ := exists_ofParts? negative room (Nat.le_refl maxScale)
  obtain ⟨-, mantissa, scale⟩ := ofParts?_eq_some_iff.1 made
  refine ⟨value, ?_, scale, mantissa⟩
  rw [nearest?_of_maxScale_le enough]
  rw [lastPlaces_eq_divide positive same] at made
  exact nearest?_of_ofParts? made

theorem scale_lt_of_nearest? (positive : 0 < divisor)
    (same : signFactor negative * (dividend / divisor) = x) (long : mantissaLimit ≤ lastPlaces x)
    (made : nearest? negative dividend divisor places = some value) : value.scale < maxScale := by
  refine Nat.lt_of_le_of_ne value.scale_le fun full => ?_
  obtain ⟨-, -, mantissa⟩ := nearest?_eq_some made
  have room := value.mantissa_lt
  rw [full, ← lastPlaces_eq_divide positive same] at mantissa
  omega

theorem lastPlaces_toRat {value : Decimal} (full : value.scale = maxScale) :
    lastPlaces value.toRat = value.mantissa := by
  have written := value.abs_toRat
  have scale : (10 : ℚ) ^ maxScale ≠ 0 := by positivity
  rw [full, lastPlaces_of_isPlaced value.isPlaced_toRat, div_left_inj' scale] at written
  exact_mod_cast written

theorem exists_toRat_eq (placed : IsPlaced x) (room : lastPlaces x < mantissaLimit) :
    ∃ exact : Decimal, exact.toRat = x := by
  obtain ⟨exact, -, same⟩ := exists_ofParts? (decide (x < 0)) room (Nat.le_refl maxScale)
  exact ⟨exact, by rw [same, ← lastPlaces_of_isPlaced placed, signFactor_mul_abs]⟩

end Decimal

namespace Precision

/-- Whether a number has fewer significant digits than are kept, but for zeros at its end. -/
def IsFewDigits (precision : Precision) (n : ℕ) : Prop :=
  ∃ few zeros, n = few * 10 ^ zeros ∧ few < 10 ^ (precision.digits - 1)

theorem isFewDigits_zero : precision.IsFewDigits 0 :=
  ⟨0, 0, rfl, by positivity⟩

theorem isFewDigits_iff_lt {n : ℕ} (reduced : n = 0 ∨ n % 10 ≠ 0) :
    precision.IsFewDigits n ↔ n < 10 ^ (precision.digits - 1) := by
  refine ⟨?_, fun small => ⟨n, 0, (Nat.mul_one n).symm, small⟩⟩
  rintro ⟨few, zeros, rfl, small⟩
  rcases reduced with none | last
  · rw [none]
    positivity
  cases zeros with
  | zero => rwa [pow_zero, Nat.mul_one]
  | succ zeros =>
    rw [pow_succ', Nat.mul_left_comm, Nat.mul_mod_right] at last
    exact absurd rfl last

theorem isFewDigits_mul_tenPow_iff (n zeros : ℕ) :
    precision.IsFewDigits (n * tenPow zeros) ↔ precision.IsFewDigits n := by
  constructor
  · rintro ⟨few, more, written, fewer⟩
    have quotient : (n : ℚ) / 10 ^ 0 = few * 10 ^ (more - zeros : ℤ) := by
      rw [pow_zero, div_one, zpow_sub₀ (by norm_num), zpow_natCast, zpow_natCast,
        ← mul_div_assoc, eq_div_iff (by positivity), ← natCast_tenPow]
      exact_mod_cast written
    obtain ⟨digits, others, same, le⟩ := exists_eq_mul_tenPow quotient
    exact ⟨digits, others, by rw [same, tenPow_eq_pow], le.trans_lt fewer⟩
  · rintro ⟨few, more, written, fewer⟩
    exact ⟨few, more + zeros, by rw [written, tenPow_eq_pow, pow_add, Nat.mul_assoc], fewer⟩

/-- A number of last places with few digits, where the magnitude is below that of the number with
    the first digit alone: one last place counts as many digits where only one is kept. -/
theorem isFewDigits_lastPlaces_iff (small : |x| < 10 ^ (precision.digits - 29 : ℤ)) :
    precision.IsFewDigits (lastPlaces x) ↔ ¬ (precision.digits = 1 ∧ lastPlaces x = 1) := by
  have positive := precision.digits_pos
  have most : lastPlaces x ≤ 10 ^ (precision.digits - 1) :=
    lastPlaces_le ((abs_lt_zpow_iff positive).1 small).le
  constructor
  · rintro ⟨few, zeros, written, fewer⟩ ⟨digits, one⟩
    rw [digits, Nat.sub_self, pow_zero, Nat.lt_one_iff] at fewer
    rw [one, fewer, Nat.zero_mul] at written
    exact absurd written (by decide)
  · intro other
    rcases most.lt_or_eq with less | carry
    · exact ⟨lastPlaces x, 0, (Nat.mul_one _).symm, less⟩
    · have more : precision.digits - 1 ≠ 0 := by
        intro none
        rw [none, pow_zero] at carry
        exact other ⟨by omega, carry⟩
      exact ⟨1, precision.digits - 1, by rw [carry, one_mul], Nat.one_lt_pow more (by decide)⟩

theorem lastPlaces_lt_mantissaLimit (precision : Precision)
    (small : |x| < 10 ^ (precision.digits - 29 : ℤ)) : lastPlaces x < mantissaLimit := by
  have most := lastPlaces_le ((abs_lt_zpow_iff precision.digits_pos).1 small).le
  have digits : 10 ^ (precision.digits - 1) ≤ 10 ^ maxDigits :=
    Nat.pow_le_pow_right (by decide) (Nat.le_trans (Nat.sub_le ..) precision.digits_le)
  have room : 10 ^ maxDigits < mantissaLimit := by decide
  omega

theorem le_lastPlaces_of_le (precision : Precision)
    (large : 10 ^ (precision.digits - 29 : ℤ) ≤ |x|) :
    10 ^ (precision.digits - 1) ≤ lastPlaces x :=
  le_lastPlaces (not_lt.1 (mt (abs_lt_zpow_iff precision.digits_pos).2 large.not_gt))

theorem isShort_iff {value : Decimal} : precision.isShort value = true ↔
    value.scale = maxScale ∧ precision.IsFewDigits value.mantissa := by
  have scale : maxScale ≤ value.scale ↔ value.scale = maxScale := by
    have := value.scale_le
    omega
  rw [isShort, Bool.and_eq_true, decide_eq_true_eq, decide_eq_true_eq, scale]
  refine and_congr_right fun full => ?_
  have product : value.normalize.mantissa * tenPow (value.scale - value.normalize.scale) =
      value.mantissa := Decimal.dropZeros_fst_mul value.mantissa value.scale
  have reduced : value.normalize.mantissa = 0 ∨ value.normalize.mantissa % 10 ≠ 0 := by
    rcases value.normalize_reduced with none | last
    · have room := value.mantissa_lt
      rw [← product, full, none] at room
      simp only [maxScale, mantissaLimit, tenPow] at room
      omega
    · exact .inr last
  rw [← product, isFewDigits_mul_tenPow_iff, isFewDigits_iff_lt reduced, ← tenPow_eq_pow]
  have positive := precision.digits_pos
  constructor
  · intro short
    refine Nat.lt_of_lt_of_le (Digits.lt_tenPow_count _) (tenPow_le_tenPow ?_)
    exact Nat.le_sub_one_of_lt short
  · intro small
    have count := Digits.count_le_of_lt small
    unfold Decimal.digitCount
    omega

end Precision

end Reckoner
