import Reckoner.Proofs.Kept
import Reckoner.Proofs.Storing

/-! # Numbers that a working precision holds

A number that has few enough digits, few enough places and a magnitude that fits is held as it is:
there is a decimal for it, rounding leaves it alone, and where a decimal is chosen for an exact
quotient, it is the one that denotes this quotient. The places that the quotient is offered have to
reach its last digit, and giving up some of them for want of room never reaches that digit.
-/

namespace Reckoner

variable {precision : Precision} {x : ℚ}

theorem tenPow_eq_pow (exponent : Nat) : tenPow exponent = 10 ^ exponent := by
  exact_mod_cast natCast_tenPow exponent

theorem signFactor_mul_abs (x : ℚ) : signFactor (decide (x < 0)) * |x| = x := by
  by_cases negative : x < 0
  · simp [signFactor, negative, abs_of_neg negative]
  · simp [signFactor, negative, abs_of_nonneg (not_lt.1 negative)]

theorem exists_eq_mul_tenPow {mantissa scale few : Nat} {exponent : ℤ}
    (h : (mantissa : ℚ) / 10 ^ scale = few * 10 ^ exponent) :
    ∃ digits zeros, mantissa = digits * tenPow zeros ∧ digits ≤ few := by
  have shifted : (mantissa : ℚ) = few * 10 ^ (exponent + scale) := by
    rw [zpow_add₀ (by norm_num), zpow_natCast, ← mul_assoc, ← h,
      div_mul_cancel₀ _ (by positivity)]
  rcases le_total 0 (exponent + scale) with up | down
  · obtain ⟨zeros, same⟩ := Int.eq_ofNat_of_zero_le up
    refine ⟨few, zeros, ?_, le_rfl⟩
    rw [same, zpow_natCast, ← natCast_tenPow] at shifted
    exact_mod_cast shifted
  · obtain ⟨places, same⟩ := Int.eq_ofNat_of_zero_le (neg_nonneg.2 down)
    have whole : mantissa * tenPow places = few := by
      rw [← neg_neg (exponent + scale : ℤ), same, zpow_neg, zpow_natCast,
        eq_mul_inv_iff_mul_eq₀ (by positivity), ← natCast_tenPow] at shifted
      exact_mod_cast shifted
    refine ⟨mantissa, 0, (Nat.mul_one mantissa).symm, ?_⟩
    rw [← whole]
    exact Nat.le_mul_of_pos_right _ (tenPow_pos places)

/-- Whether a number has no more places than decimals have. -/
def IsPlaced (x : ℚ) : Prop :=
  ∃ whole : ℕ, |x| = whole / 10 ^ maxScale

theorem isPlaced_of_scale_le {mantissa scale : Nat} (shallow : scale ≤ maxScale)
    (written : |x| = mantissa / 10 ^ scale) : IsPlaced x := by
  obtain ⟨more, places⟩ := Nat.exists_eq_add_of_le shallow
  refine ⟨mantissa * 10 ^ more, ?_⟩
  rw [written, places, pow_add]
  push_cast
  rw [mul_div_mul_right _ _ (by positivity)]

theorem Decimal.isPlaced_toRat (value : Decimal) : IsPlaced value.toRat :=
  isPlaced_of_scale_le value.scale_le value.abs_toRat

/-- Whether a number needs no rounding: it has no more significant digits than are kept, no more
    places than decimals have, and its magnitude is below the bound of mantissas. -/
structure Precision.Holds (precision : Precision) (x : ℚ) : Prop where
  digits : ∃ (few : ℕ) (exponent : ℤ), few < 10 ^ precision.digits ∧ |x| = few * 10 ^ exponent
  places : ∃ whole : ℕ, |x| = whole / 10 ^ maxScale
  range : |x| < mantissaLimit

/-- A mantissa that does not end with a zero after the point is written at the least scale. -/
theorem scale_le_of_reduced {mantissa scale places whole : Nat}
    (reduced : scale = 0 ∨ mantissa % 10 ≠ 0)
    (h : (mantissa : ℚ) / 10 ^ scale * 10 ^ places = whole) : scale ≤ places := by
  by_contra more
  obtain ⟨others, rfl⟩ := Nat.exists_eq_add_of_lt (Nat.lt_of_not_le more)
  have multiple : mantissa = whole * tenPow (others + 1) := by
    rw [div_mul_eq_mul_div, div_eq_iff (by positivity), Nat.add_assoc, pow_add, mul_left_comm,
      mul_comm, mul_right_inj' (by positivity), ← natCast_tenPow] at h
    exact_mod_cast h
  rw [multiple, tenPow_succ, Nat.mul_left_comm, Nat.mul_mod_right] at reduced
  omega

/-- The numbers of places with which a number can be written. -/
def placesFor (x : ℚ) : Set ℕ :=
  {places | ∃ n : ℤ, x * 10 ^ places = n}

theorem mem_placesFor_iff_abs {places : ℕ} :
    places ∈ placesFor x ↔ ∃ whole : ℕ, |x| * 10 ^ places = whole := by
  have scale : |(10 : ℚ) ^ places| = 10 ^ places := abs_of_pos (by positivity)
  constructor
  · rintro ⟨n, written⟩
    exact ⟨n.natAbs, by rw [← scale, ← abs_mul, written, Nat.cast_natAbs, Int.cast_abs]⟩
  · rintro ⟨whole, written⟩
    rcases abs_choice x with same | negated
    · exact ⟨whole, by rw [← same, written, Int.cast_natCast]⟩
    · refine ⟨-whole, ?_⟩
      rw [Int.cast_neg, Int.cast_natCast, ← written, negated, neg_mul, neg_neg]

theorem isPlaced_iff_mem_placesFor : IsPlaced x ↔ maxScale ∈ placesFor x := by
  rw [mem_placesFor_iff_abs]
  exact exists_congr fun whole => eq_div_iff (by positivity)

theorem mem_placesFor_iff_dvd {digits scale places : ℕ} (written : |x| = digits / 10 ^ scale) :
    places ∈ placesFor x ↔ tenPow (scale - places) ∣ digits := by
  rw [mem_placesFor_iff_abs, written]
  rcases Nat.le_total scale places with enough | few
  · obtain ⟨more, rfl⟩ := Nat.exists_eq_add_of_le enough
    refine iff_of_true ⟨digits * 10 ^ more, ?_⟩ (by simp)
    rw [pow_add, ← mul_assoc, div_mul_cancel₀ _ (by positivity)]
    push_cast
    rfl
  · obtain ⟨cut, rfl⟩ := Nat.exists_eq_add_of_le few
    rw [Nat.add_sub_cancel_left]
    refine exists_congr fun whole => ?_
    rw [pow_add, div_mul_eq_mul_div, mul_comm, mul_div_mul_left _ _ (by positivity),
      div_eq_iff (by positivity), mul_comm, ← natCast_tenPow]
    exact_mod_cast Iff.rfl

theorem Decimal.dropZeros_div_pow (digits scale : ℕ) :
    ((dropZeros digits scale).1 : ℚ) / 10 ^ (dropZeros digits scale).2 = digits / 10 ^ scale := by
  have product := dropZeros_fst_mul digits scale
  have shallow := dropZeros_snd_le digits scale
  generalize (dropZeros digits scale).1 = fewer at product ⊢
  generalize (dropZeros digits scale).2 = least at product shallow ⊢
  obtain ⟨zeros, rfl⟩ := Nat.exists_eq_add_of_le shallow
  rw [← product, Nat.add_sub_cancel_left, pow_add]
  push_cast [natCast_tenPow]
  rw [mul_div_mul_right _ _ (by positivity)]

theorem Decimal.isLeast_dropZeros {digits scale : ℕ} (written : |x| = digits / 10 ^ scale) :
    IsLeast (placesFor x) (dropZeros digits scale).2 := by
  constructor
  · rw [mem_placesFor_iff_dvd written]
    exact ⟨_, (dropZeros_fst_mul digits scale).symm.trans (Nat.mul_comm ..)⟩
  · intro places offered
    obtain ⟨whole, offered⟩ := mem_placesFor_iff_abs.1 offered
    rw [written, ← dropZeros_div_pow] at offered
    exact scale_le_of_reduced (dropZeros_reduced digits scale) offered

theorem Decimal.isLeast_scale_normalize (value : Decimal) :
    IsLeast (placesFor value.toRat) value.normalize.scale :=
  isLeast_dropZeros value.abs_toRat

namespace Precision

theorem Holds.mantissa_lt (h : precision.Holds x) {mantissa scale : Nat}
    (reduced : scale = 0 ∨ mantissa % 10 ≠ 0) (written : |x| = mantissa / 10 ^ scale) :
    mantissa < mantissaLimit := by
  obtain ⟨⟨few, exponent, small, short⟩, -, range⟩ := h
  rcases reduced with none | last
  · rw [written, none, pow_zero, div_one] at range
    exact_mod_cast range
  · obtain ⟨digits, zeros, same, le⟩ := exists_eq_mul_tenPow (written.symm.trans short)
    have most : 10 ^ precision.digits ≤ 10 ^ maxDigits :=
      Nat.pow_le_pow_right (by decide) precision.digits_le
    have widest : 10 ^ maxDigits < mantissaLimit := by decide
    cases zeros with
    | zero =>
      rw [tenPow_zero, Nat.mul_one] at same
      omega
    | succ zeros =>
      rw [same, tenPow_succ, Nat.mul_left_comm, Nat.mul_mod_right] at last
      exact absurd rfl last

theorem Holds.exists_decimal (h : precision.Holds x) :
    ∃ value : Decimal, value.toRat = x ∧ (value.scale = 0 ∨ value.mantissa % 10 ≠ 0) := by
  obtain ⟨whole, placed⟩ := h.places
  have shallow := Decimal.dropZeros_snd_le whole maxScale
  have reduced := Decimal.dropZeros_reduced whole maxScale
  have magnitude := placed.trans (Decimal.dropZeros_div_pow whole maxScale).symm
  have room := h.mantissa_lt reduced magnitude
  refine ⟨⟨decide (x < 0), _, _, room, shallow⟩, ?_, reduced⟩
  rw [Decimal.toRat_eq, ← magnitude, signFactor_mul_abs]

theorem keeps_of_holds {value : Decimal} (h : precision.Holds value.toRat) :
    precision.Keeps value := by
  obtain ⟨few, exponent, small, written⟩ := h.digits
  rw [← value.toRat_normalize, Decimal.abs_toRat] at written
  obtain ⟨digits, zeros, same, le⟩ := exists_eq_mul_tenPow written
  refine ⟨digits, zeros, same, ?_⟩
  rw [tenPow_eq_pow]
  exact Nat.lt_of_le_of_lt le small

/-- The numbers that are held are those of the decimals that rounding leaves alone. -/
theorem holds_toRat_iff {value : Decimal} :
    precision.Holds value.toRat ↔ precision.Keeps value := by
  refine ⟨keeps_of_holds, ?_⟩
  rintro ⟨few, zeros, written, small⟩
  have magnitude : |value.toRat| = value.normalize.mantissa / 10 ^ value.normalize.scale := by
    rw [← value.toRat_normalize, Decimal.abs_toRat]
  refine ⟨⟨few, zeros - value.normalize.scale, by rwa [← tenPow_eq_pow], ?_⟩,
    value.isPlaced_toRat, value.abs_toRat_lt⟩
  rw [magnitude, written, Nat.cast_mul, natCast_tenPow, zpow_sub₀ (by norm_num), zpow_natCast,
    zpow_natCast, mul_div_assoc]

theorem exists_round_of_holds {value : Decimal} (h : precision.Holds value.toRat) :
    ∃ rounded, precision.round value = .ok rounded ∧ rounded.toRat = value.toRat :=
  ⟨value.normalize, round_of_keeps (keeps_of_holds h), value.toRat_normalize⟩

end Precision

namespace Decimal

variable {negative : Bool} {dividend divisor places mantissa scale : Nat}

theorem exists_ofParts? (negative : Bool) (room : mantissa < mantissaLimit)
    (shallow : scale ≤ maxScale) :
    ∃ value, ofParts? negative mantissa scale = some value ∧
      value.toRat = signFactor negative * (mantissa / 10 ^ scale) :=
  ⟨⟨negative, mantissa, scale, room, shallow⟩, ofParts?_eq_some_iff.2 ⟨rfl, rfl, rfl⟩, toRat_eq _⟩

/-- Where a quotient comes out even at some scale and has room there, no place up to that scale is
    given up. -/
theorem exists_nearest?_of_room (positive : 0 < divisor) (room : mantissa < mantissaLimit)
    (shallow : scale ≤ maxScale) (even : dividend * tenPow scale = mantissa * divisor)
    (enough : scale ≤ places) :
    ∃ value, nearest? negative dividend divisor places = some value ∧ scale ≤ value.scale := by
  obtain ⟨exact, fits, -⟩ := exists_ofParts? negative room shallow
  rw [← RoundingMode.halfEven.divide_mul_right negative mantissa positive, ← even] at fits
  obtain ⟨-, -, scaled⟩ := ofParts?_eq_some_iff.1 fits
  -- Places are given up one by one from above, and not further down than to `scale`.
  induction places with
  | zero =>
    obtain rfl := Nat.le_zero.1 enough
    rw [tenPow_zero, Nat.mul_one] at fits
    exact ⟨exact, fits, scaled.ge⟩
  | succ places ih =>
    rcases Nat.eq_or_lt_of_le enough with rfl | more
    · exact ⟨exact, by rw [nearest?, fits], scaled.ge⟩
    · rw [nearest?]
      cases made : ofParts? negative (RoundingMode.halfEven.divide negative
          (dividend * tenPow (places + 1)) divisor) (places + 1) with
      | none => exact ih (by omega)
      | some value =>
        obtain ⟨-, -, last⟩ := ofParts?_eq_some_iff.1 made
        exact ⟨value, rfl, by omega⟩

theorem toRat_of_nearest?_of_le {value : Decimal}
    (h : nearest? negative dividend divisor places = some value) (positive : 0 < divisor)
    (even : dividend * tenPow scale = mantissa * divisor) (enough : scale ≤ value.scale) :
    value.toRat = signFactor negative * (dividend / divisor) := by
  obtain ⟨sign, -, stored⟩ := nearest?_eq_some h
  obtain ⟨more, same⟩ := Nat.exists_eq_add_of_le enough
  rw [same, tenPow_add, ← Nat.mul_assoc, even, Nat.mul_right_comm,
    RoundingMode.divide_mul_right _ _ _ positive] at stored
  have quotient : (dividend : ℚ) / divisor = mantissa / 10 ^ scale := by
    have positive' : (divisor : ℚ) ≠ 0 := by exact_mod_cast positive.ne'
    rw [div_eq_div_iff positive' (by positivity), ← natCast_tenPow]
    exact_mod_cast even
  rw [toRat_eq, sign, stored, same, quotient, pow_add]
  push_cast [natCast_tenPow]
  rw [mul_div_mul_right _ _ (by positivity)]

/-- The decimal that is chosen for an exact quotient denotes it, if some decimal does and all its
    places are offered. -/
theorem exists_nearest?_of_toRat {exact : Decimal} (positive : 0 < divisor)
    (same : signFactor negative * (dividend / divisor) = exact.toRat)
    (offered : ∃ whole : ℕ, |exact.toRat| * 10 ^ places = whole) :
    ∃ value, nearest? negative dividend divisor places = some value ∧
      value.toRat = exact.toRat := by
  have reduced := exact.normalize_reduced
  rw [← exact.toRat_normalize] at same offered ⊢
  generalize exact.normalize = exact at same offered reduced ⊢
  obtain ⟨whole, offered⟩ := offered
  rw [exact.abs_toRat] at offered
  have enough := scale_le_of_reduced reduced offered
  have even : dividend * tenPow exact.scale = exact.mantissa * divisor := by
    have positive' : (divisor : ℚ) ≠ 0 := by exact_mod_cast positive.ne'
    have magnitude : (dividend : ℚ) / divisor = exact.mantissa / 10 ^ exact.scale := by
      rw [← exact.abs_toRat, ← same, abs_mul, abs_signFactor, one_mul,
        abs_of_nonneg (by positivity)]
    rw [div_eq_div_iff positive' (by positivity), ← natCast_tenPow] at magnitude
    exact_mod_cast magnitude
  obtain ⟨value, made, reached⟩ :=
    exists_nearest?_of_room positive exact.mantissa_lt exact.scale_le even enough
  exact ⟨value, made, (toRat_of_nearest?_of_le made positive even reached).trans same⟩

theorem exists_nearest?_tenPow {exact : Decimal}
    (same : signFactor negative * (dividend / (tenPow places : ℕ)) = exact.toRat) :
    ∃ value, nearest? negative dividend (tenPow places) places = some value ∧
      value.toRat = exact.toRat := by
  refine exists_nearest?_of_toRat (tenPow_pos places) same ⟨dividend, ?_⟩
  rw [← same, abs_mul, abs_signFactor, one_mul, abs_of_nonneg (by positivity), natCast_tenPow,
    div_mul_cancel₀ _ (by positivity)]

end Decimal

end Reckoner
