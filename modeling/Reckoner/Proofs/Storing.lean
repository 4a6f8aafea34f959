import Reckoner.Proofs.Operating
import Reckoner.Proofs.RoundedOnce

/-! # Decimals that stand for exact results

A sum, product or quotient is stored in a decimal before it is rounded to the working precision.
The stored decimal is the exact result, rounded to a number of places with ties to even; unless
it is exact, the places are all that there are or the digits are all that fit.
-/

namespace Reckoner

/-- The operation on numbers that an operator stands for. -/
def Operator.exact : Operator → ℚ → ℚ → ℚ
  | .add, x, y => x + y
  | .subtract, x, y => x - y
  | .multiply, x, y => x * y
  | .divide, x, y => x / y

namespace Decimal

/-- A decimal that is a number rounded to so many places, with no room for more of them. -/
structure StandsFor (value : Decimal) (x : ℚ) (places : Nat) : Prop where
  nearest : value.toRat = RoundingMode.halfEven.toInt (x * 10 ^ places) / 10 ^ places
  full : value.toRat = x ∨ places = maxScale ∨ 10 ^ 27 ≤ |x| * 10 ^ places

/-- The same for any mode: a decimal that is a number rounded by it to so many places, with no room
    for more of them. -/
structure Stores (value : Decimal) (mode : RoundingMode) (x : ℚ) (places : Nat) : Prop where
  nearest : value.toRat = mode.toInt (x * 10 ^ places) / 10 ^ places
  full : value.toRat = x ∨ places = maxScale ∨ 10 ^ 27 ≤ |x| * 10 ^ places

theorem StandsFor.stores {value : Decimal} {x : ℚ} {places : Nat}
    (h : value.StandsFor x places) : value.Stores .halfEven x places :=
  ⟨h.nearest, h.full⟩

theorem signFactor_bne (left right : Bool) :
    signFactor (left != right) = signFactor left * signFactor right := by
  cases left <;> cases right <;> simp [signFactor]

theorem toRat_mul_pow (value : Decimal) : value.toRat * 10 ^ value.scale = value.signed := by
  rw [toRat_eq, mul_assoc, div_mul_cancel₀ _ (by positivity), signed, signFactor]
  cases value.negative <;> simp

theorem stores_toRat (value : Decimal) (mode : RoundingMode) :
    value.Stores mode value.toRat value.scale where
  nearest := by rw [toRat_mul_pow, RoundingMode.toInt_intCast, ← toRat_mul_pow,
    mul_div_cancel_right₀ _ (by positivity)]
  full := .inl rfl

theorem standsFor_toRat (value : Decimal) : value.StandsFor value.toRat value.scale :=
  ⟨(value.stores_toRat .halfEven).nearest, .inl rfl⟩

theorem StandsFor.normalize {value : Decimal} {x : ℚ} {places : Nat}
    (h : value.StandsFor x places) : value.normalize.StandsFor x places := by
  obtain ⟨nearest, full⟩ := h
  exact ⟨by rw [toRat_normalize, nearest], by rwa [toRat_normalize]⟩

/-- A number of places is given up only if the mantissa would not fit. -/
theorem scale_of_nearest?_eq_some {negative : Bool} {dividend divisor places : Nat}
    {value : Decimal} (h : nearest? negative dividend divisor places = some value)
    (positive : 0 < divisor) :
    value.scale = places ∨ value.scale = maxScale ∨
      10 ^ 27 * divisor ≤ dividend * tenPow value.scale := by
  induction places with
  | zero =>
    obtain ⟨-, -, scale⟩ := ofParts?_eq_some_iff.1 h
    exact .inl scale
  | succ places ih =>
    rw [nearest?] at h
    split at h
    · next made =>
      obtain rfl := Option.some.inj h
      obtain ⟨-, -, scale⟩ := ofParts?_eq_some_iff.1 made
      exact .inl scale
    · next refused =>
      rcases ih h with last | full | large
      · rcases ofParts?_eq_none_iff.1 refused with wide | deep
        · right; right
          have above := RoundingMode.halfEven.divide_le_div_add_one negative
            (dividend * tenPow (places + 1)) divisor
          have least : 10 ^ 28 ≤ dividend * tenPow (places + 1) / divisor := by
            unfold mantissaLimit at wide
            omega
          rw [Nat.le_div_iff_mul_le positive, tenPow_succ, Nat.mul_left_comm, ← last] at least
          omega
        · have := value.scale_le
          right; left
          omega
      · exact .inr (.inl full)
      · exact .inr (.inr large)

theorem toRat_of_nearest? {negative : Bool} {dividend divisor places : Nat} {value : Decimal}
    (h : nearest? negative dividend divisor places = some value) (positive : 0 < divisor) :
    value.toRat = RoundingMode.halfEven.toInt
      (signFactor negative * (dividend / divisor) * 10 ^ value.scale) / 10 ^ value.scale := by
  obtain ⟨sign, -, mantissa⟩ := nearest?_eq_some h
  have scaled : signFactor negative * ((dividend : ℚ) / divisor) * 10 ^ value.scale =
      signFactor negative * ((dividend * tenPow value.scale : ℕ) / divisor) := by
    push_cast [natCast_tenPow]
    ring
  rw [scaled, RoundingMode.toInt_signFactor_mul_div _ _ _ positive, ← mantissa, toRat_eq, sign,
    mul_div_assoc]

theorem standsFor_of_nearest? {negative : Bool} {dividend divisor places : Nat} {value : Decimal}
    (h : nearest? negative dividend divisor places = some value) (positive : 0 < divisor)
    (last : value.scale = places →
      value.toRat = signFactor negative * (dividend / divisor) ∨ value.scale = maxScale) :
    value.StandsFor (signFactor negative * (dividend / divisor)) value.scale := by
  constructor
  · exact toRat_of_nearest? h positive
  · rcases scale_of_nearest?_eq_some h positive with asked | full | large
    · rcases last asked with exact | full
      · exact .inl exact
      · exact .inr (.inl full)
    · exact .inr (.inl full)
    · right; right
      have positive' : (0 : ℚ) < divisor := by exact_mod_cast positive
      have large' : (10 : ℚ) ^ 27 * divisor ≤ dividend * 10 ^ value.scale := by
        rw [← natCast_tenPow value.scale]
        exact_mod_cast large
      rw [abs_mul, abs_signFactor, one_mul, abs_of_nonneg (by positivity), div_mul_eq_mul_div,
        le_div_iff₀ positive']
      exact large'

theorem signedAt_div_pow {value : Decimal} {scale : Nat} (h : value.scale ≤ scale) :
    (value.signedAt scale : ℚ) / 10 ^ scale = value.toRat := by
  obtain ⟨more, rfl⟩ := Nat.exists_eq_add_of_le h
  have power : (10 : ℚ) ^ value.scale ≠ 0 := by positivity
  rw [signedAt, ← mul_div_cancel_right₀ value.toRat power, toRat_mul_pow, Nat.add_sub_cancel_left]
  push_cast [natCast_tenPow]
  rw [pow_add, mul_div_mul_right _ _ (by positivity)]

theorem isZero_iff {value : Decimal} : value.isZero = true ↔ value.toRat = 0 := by
  rw [toRat_eq_zero_iff, isZero, beq_iff_eq]

theorem isZero_eq_false_iff {value : Decimal} : value.isZero = false ↔ value.toRat ≠ 0 := by
  rw [Bool.eq_false_iff, ne_eq, isZero_iff]

@[simp]
theorem toRat_zero : zero.toRat = 0 :=
  toRat_eq_zero_iff.2 rfl

theorem toRat_mul_of_isZero {left right : Decimal} (h : (left.isZero || right.isZero) = true) :
    left.toRat * right.toRat = zero.toRat := by
  rw [toRat_zero, mul_eq_zero]
  simpa [isZero_iff] using h

theorem signFactor_mul_natAbs (n : ℤ) : signFactor (decide (n < 0)) * n.natAbs = n := by
  by_cases negative : n < 0
  · rw [decide_eq_true negative, signFactor, if_pos rfl, Nat.cast_natAbs, abs_of_neg negative]
    simp
  · rw [decide_eq_false negative, signFactor, if_neg Bool.false_ne_true, Nat.cast_natAbs,
      abs_of_nonneg (by omega), one_mul]

theorem toRat_of_nearest?_of_scale {negative : Bool} {dividend places : Nat} {value : Decimal}
    (h : nearest? negative dividend (tenPow places) places = some value)
    (all : value.scale = places) :
    value.toRat = signFactor negative * (dividend / (tenPow places : ℕ)) := by
  obtain ⟨sign, -, mantissa⟩ := nearest?_eq_some h
  rw [all, RoundingMode.divide_mul_right _ _ _ (tenPow_pos _)] at mantissa
  rw [toRat_eq, sign, mantissa, all, natCast_tenPow]

theorem toRat_add_eq (left right : Decimal) :
    let scale := max left.scale right.scale
    let sum := left.signedAt scale + right.signedAt scale
    signFactor (decide (sum < 0)) * ((sum.natAbs : ℚ) / (tenPow scale : ℕ)) =
      left.toRat + right.toRat := by
  intro scale sum
  rw [← mul_div_assoc, signFactor_mul_natAbs, natCast_tenPow]
  push_cast [sum]
  rw [add_div, signedAt_div_pow (Nat.le_max_left ..), signedAt_div_pow (Nat.le_max_right ..)]

theorem toRat_sub_eq (left right : Decimal) :
    left.toRat - right.toRat = left.toRat + right.neg.toRat := by
  rw [sub_eq_add_neg, ← toRat_neg]
  rfl

theorem toRat_mul_eq (left right : Decimal) :
    signFactor (left.negative != right.negative) *
        (((left.mantissa * right.mantissa : ℕ) : ℚ) / (tenPow (left.scale + right.scale) : ℕ)) =
      left.toRat * right.toRat := by
  rw [signFactor_bne, toRat_eq, toRat_eq, natCast_tenPow, pow_add]
  push_cast
  rw [mul_div_mul_comm]
  ring

theorem toRat_div_eq (left right : Decimal) :
    signFactor (left.negative != right.negative) *
        (((left.mantissa * tenPow right.scale : ℕ) : ℚ) /
          (right.mantissa * tenPow left.scale : ℕ)) =
      left.toRat / right.toRat := by
  have sign : signFactor left.negative / signFactor right.negative =
      signFactor (left.negative != right.negative) := by
    cases left.negative <;> cases right.negative <;> norm_num [signFactor]
  rw [toRat_eq, toRat_eq, ← sign, mul_div_mul_comm (signFactor _), div_div_div_eq]
  push_cast [natCast_tenPow]
  rw [mul_comm (10 ^ left.scale : ℚ)]

theorem toRat_of_even {left right value : Decimal} (nonzero : right.mantissa ≠ 0)
    (mantissas : left.mantissa % right.mantissa = 0) (scales : right.scale ≤ left.scale)
    (h : ofParts? (left.negative != right.negative) (left.mantissa / right.mantissa)
      (left.scale - right.scale) = some value) :
    value.toRat = left.toRat / right.toRat := by
  have divisor : (right.mantissa : ℚ) ≠ 0 := by exact_mod_cast nonzero
  obtain ⟨negative, mantissa, scale⟩ := ofParts?_eq_some_iff.1 h
  obtain ⟨times, product⟩ := Nat.dvd_of_mod_eq_zero mantissas
  obtain ⟨more, scales⟩ := Nat.exists_eq_add_of_le scales
  rw [product, Nat.mul_div_cancel_left _ (Nat.pos_of_ne_zero nonzero)] at mantissa
  rw [scales, Nat.add_sub_cancel_left] at scale
  rw [← toRat_div_eq, toRat_eq, negative, mantissa, scale, product, scales]
  push_cast [natCast_tenPow]
  rw [pow_add]
  congr 1
  field_simp

/-- A sum loses places only for want of room in the mantissa, so it does not vanish. -/
theorem standsFor_of_add? {left right value : Decimal} (h : left.add? right = some value) :
    (∃ places, value.StandsFor (left.toRat + right.toRat) places) ∧
      (value.toRat = 0 → left.toRat + right.toRat = 0) := by
  unfold add? at h
  split at h
  · next zero =>
    obtain rfl := Option.some.inj h
    rw [isZero_iff.1 zero, zero_add]
    exact ⟨⟨_, right.standsFor_toRat⟩, id⟩
  split at h
  · next zero =>
    obtain rfl := Option.some.inj h
    rw [isZero_iff.1 zero, add_zero]
    exact ⟨⟨_, left.standsFor_toRat⟩, id⟩
  · dsimp only at h
    rw [← toRat_add_eq]
    set scale := max left.scale right.scale with scaleEq
    set sum := left.signedAt scale + right.signedAt scale with sumEq
    have positive := tenPow_pos scale
    refine ⟨⟨_, standsFor_of_nearest? h positive fun all =>
      .inl (toRat_of_nearest?_of_scale h all)⟩, fun zero => ?_⟩
    obtain ⟨-, le, mantissa⟩ := nearest?_eq_some h
    have leftScale := left.scale_le
    have rightScale := right.scale_le
    rcases scale_of_nearest?_eq_some h positive with all | full | large
    · rw [← toRat_of_nearest?_of_scale h all, zero]
    · have all : value.scale = scale := by omega
      rw [← toRat_of_nearest?_of_scale h all, zero]
    · have least := RoundingMode.halfEven.div_le_divide (decide (sum < 0))
        (sum.natAbs * tenPow value.scale) (tenPow scale)
      rw [← mantissa, toRat_eq_zero_iff.1 zero] at least
      rw [← Nat.le_div_iff_mul_le positive] at large
      omega

theorem standsFor_of_mul? {left right value : Decimal} (h : left.mul? right = some value) :
    ∃ places, value.StandsFor (left.toRat * right.toRat) places := by
  unfold mul? at h
  split at h
  · next vanishes =>
    obtain rfl := Option.some.inj h
    rw [toRat_mul_of_isZero vanishes]
    exact ⟨_, zero.standsFor_toRat⟩
  · rw [← toRat_mul_eq]
    exact ⟨_, standsFor_of_nearest? h (tenPow_pos _) fun all =>
      .inl (toRat_of_nearest?_of_scale h all)⟩

theorem standsFor_of_div? {left right value : Decimal} (h : left.div? right = some value)
    (nonzero : right.mantissa ≠ 0) :
    ∃ places, value.StandsFor (left.toRat / right.toRat) places := by
  unfold div? at h
  dsimp only at h
  split at h
  · next vanishes =>
    obtain rfl := Option.some.inj h
    have none : left.toRat / right.toRat = zero.toRat := by
      rw [isZero_iff.1 vanishes, zero_div, toRat_zero]
    rw [none]
    exact ⟨_, zero.standsFor_toRat⟩
  split at h
  · next even =>
    rw [← toRat_of_even nonzero even.1 even.2 h]
    exact ⟨_, value.standsFor_toRat⟩
  · obtain ⟨stored, made, rfl⟩ := Option.map_eq_some_iff.1 h
    have positive : 0 < right.mantissa * tenPow left.scale :=
      Nat.mul_pos (Nat.pos_of_ne_zero nonzero) (tenPow_pos _)
    rw [← toRat_div_eq]
    exact ⟨_, (standsFor_of_nearest? made positive .inr).normalize⟩

end Decimal

namespace Precision

variable {precision : Precision} {left right result : Decimal}

/-- What is rounded is the stored decimal, and it is zero only where the exact result is zero. -/
theorem stored_of_apply {operator : Operator}
    (h : precision.apply operator left right = .ok result) :
    ∃ stored, operator.stored? left right = some stored ∧ precision.round stored = .ok result ∧
      (∃ places, stored.StandsFor (operator.exact left.toRat right.toRat) places) ∧
      (stored.toRat = 0 → operator.exact left.toRat right.toRat = 0) := by
  obtain ⟨accepted, stored, made, large, rounded⟩ := apply_eq_ok_iff.1 h
  refine ⟨stored, made, rounded, ?_⟩
  cases operator with
  | add => exact Decimal.standsFor_of_add? made
  | subtract =>
    rw [Operator.exact, Decimal.toRat_sub_eq]
    exact Decimal.standsFor_of_add? made
  | multiply =>
    refine ⟨Decimal.standsFor_of_mul? made, fun zero => ?_⟩
    have factor : left.isZero = true ∨ right.isZero = true := by
      have vanished := Decimal.isZero_iff.2 zero
      grind [Operator.isTooSmall]
    rw [Operator.exact, mul_eq_zero]
    exact factor.imp Decimal.isZero_iff.1 Decimal.isZero_iff.1
  | divide =>
    have divisor : right.mantissa ≠ 0 := by
      simpa [Decimal.isZero] using accepted
    refine ⟨Decimal.standsFor_of_div? made divisor, fun zero => ?_⟩
    have dividend : left.isZero = true := by
      have vanished := Decimal.isZero_iff.2 zero
      grind [Operator.isTooSmall]
    rw [Operator.exact, Decimal.isZero_iff.1 dividend, zero_div]

end Precision

end Reckoner
