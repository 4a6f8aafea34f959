import Mathlib.Data.Nat.Find
import Mathlib.Order.Monotone.Odd
import Reckoner.Proofs.LastPlace
import Reckoner.Proofs.RoundedOrder

/-! # The most places that fit

What an operation stores depends on its exact result alone, and not on how the operands are written:
it is the result rounded at the most places with which it fits into a mantissa. A larger result may
fit with fewer places only, and so may be rounded down where a smaller one is not. That does not
change their order, since what is one too large for a mantissa is rounded up when it loses a place.
-/

namespace Reckoner

namespace RoundingMode

variable {mode : RoundingMode} {x y : ℚ} {places : ℕ}

/-- The most places, of those that decimals have, at which a rounded number fits into a mantissa. -/
def fittingPlaces (mode : RoundingMode) (x : ℚ) : ℕ :=
  Nat.findGreatest (fun places => mode.toInt (|x| * 10 ^ places) < mantissaLimit) maxScale

/-- A number rounded at the most places with which it fits into a mantissa. -/
def fit (mode : RoundingMode) (x : ℚ) : ℚ :=
  mode.toInt (x * 10 ^ mode.fittingPlaces x) / 10 ^ mode.fittingPlaces x

theorem toInt_lt_of_le {fewer : ℕ} (smaller : |x| ≤ |y|) (le : fewer ≤ places)
    (fits : mode.toInt (|y| * 10 ^ places) < mantissaLimit) :
    mode.toInt (|x| * 10 ^ fewer) < mantissaLimit := by
  refine (mode.toInt_mono ?_).trans_lt fits
  gcongr
  norm_num

theorem fittingPlaces_le (mode : RoundingMode) (x : ℚ) : mode.fittingPlaces x ≤ maxScale :=
  Nat.findGreatest_le maxScale

theorem toInt_fittingPlaces_lt (some : mode.fittingPlaces x ≠ 0) :
    mode.toInt (|x| * 10 ^ mode.fittingPlaces x) < mantissaLimit :=
  Nat.findGreatest_of_ne_zero (P := fun places => mode.toInt (|x| * 10 ^ places) < mantissaLimit)
    rfl some

theorem le_toInt_of_fittingPlaces_lt (more : mode.fittingPlaces x < places)
    (shallow : places ≤ maxScale) : mantissaLimit ≤ mode.toInt (|x| * 10 ^ places) :=
  not_lt.1 (Nat.findGreatest_is_greatest more shallow)

theorem le_fittingPlaces (shallow : places ≤ maxScale)
    (fits : mode.toInt (|x| * 10 ^ places) < mantissaLimit) : places ≤ mode.fittingPlaces x :=
  Nat.le_findGreatest shallow fits

theorem fittingPlaces_anti (smaller : |x| ≤ |y|) :
    mode.fittingPlaces y ≤ mode.fittingPlaces x :=
  Nat.findGreatest_mono_left (fun _ fits => toInt_lt_of_le smaller le_rfl fits) maxScale

theorem fit_eq_self {n : ℤ} (whole : x * 10 ^ places = n)
    (offered : places ≤ mode.fittingPlaces x) : mode.fit x = x := by
  obtain ⟨more, same⟩ := Nat.exists_eq_add_of_le offered
  have even : x * 10 ^ mode.fittingPlaces x = (n * 10 ^ more : ℤ) := by
    rw [same, pow_add, ← mul_assoc, whole]
    push_cast
    rfl
  rw [fit, even, toInt_intCast, ← even, mul_div_cancel_right₀ _ (by positivity)]

theorem toInt_abs_toRat_mul_lt (mode : RoundingMode) (value : Decimal) :
    mode.toInt (|value.toRat| * 10 ^ value.scale) < mantissaLimit := by
  have mantissa : |value.toRat| * 10 ^ value.scale = (value.mantissa : ℤ) := by
    rw [value.abs_toRat_mul_pow, Int.cast_natCast]
  rw [mantissa, toInt_intCast]
  exact_mod_cast value.mantissa_lt

theorem fit_toRat (mode : RoundingMode) (value : Decimal) :
    mode.fit value.toRat = value.toRat :=
  fit_eq_self value.toRat_mul_pow
    (le_fittingPlaces value.scale_le (mode.toInt_abs_toRat_mul_lt value))

namespace IsNearest

variable (nearest : mode.IsNearest)

include nearest

theorem fit_neg (x : ℚ) : mode.fit (-x) = -mode.fit x := by
  have places : mode.fittingPlaces (-x) = mode.fittingPlaces x := by
    rw [fittingPlaces, fittingPlaces, abs_neg]
  rw [fit, fit, places, neg_mul, toInt_neg, nearest.mirror_eq, Int.cast_neg, neg_div]

/-- What is too large for a mantissa is rounded up where it has one place less, since the bound of
    mantissas ends with a six. -/
theorem le_toInt_of_le_toInt_mul {tenth : ℕ} (limit : mantissaLimit = 10 * tenth + 6)
    (wide : (mantissaLimit : ℤ) ≤ mode.toInt (x * 10)) : (tenth : ℤ) + 1 ≤ mode.toInt x := by
  have large : (10 * tenth + 6 : ℚ) - 1 / 2 ≤ x * 10 := by
    by_contra small
    have halves : 2 * ((10 * tenth + 6 : ℚ) - 1 / 2) = (2 * (10 * tenth + 6) - 1 : ℤ) := by
      push_cast
      ring
    have rounded := nearest.toInt_le halves (not_le.1 small)
    have wide' : (10 * tenth + 6 : ℚ) ≤ mode.toInt (x * 10) := by exact_mod_cast limit ▸ wide
    linarith
  have halves : 2 * (tenth + 1 / 2 : ℚ) = (2 * tenth + 1 : ℤ) := by
    push_cast
    ring
  have above : (tenth + 1 / 2 : ℚ) < x := by linarith
  have rounded := nearest.le_toInt halves above
  have more : (tenth : ℚ) < mode.toInt x := by linarith
  exact Int.add_one_le_of_lt (by exact_mod_cast more)

theorem fit_le_fit_of_fittingPlaces_lt (nonneg : 0 ≤ x) (le : x ≤ y)
    (fewer : mode.fittingPlaces y < mode.fittingPlaces x) : mode.fit x ≤ mode.fit y := by
  obtain ⟨tenth, limit⟩ : ∃ tenth, mantissaLimit = 10 * tenth + 6 := ⟨mantissaLimit / 10, rfl⟩
  have most := mode.toInt_fittingPlaces_lt (x := x) (by omega)
  have least := mode.le_toInt_of_fittingPlaces_lt (Nat.lt_succ_self _)
    (Nat.le_trans fewer (mode.fittingPlaces_le x))
  rw [abs_of_nonneg nonneg, limit] at most
  rw [abs_of_nonneg (nonneg.trans le), pow_succ, ← mul_assoc] at least
  have carried := nearest.le_toInt_of_le_toInt_mul limit least
  -- A tenth of the bound, rounded up and taken at the fewer places, stands between the two.
  unfold fit
  generalize mode.fittingPlaces x = more at *
  generalize mode.fittingPlaces y = places at *
  have most' : (mode.toInt (x * 10 ^ more) : ℚ) ≤ 10 * (tenth + 1 : ℤ) := by
    exact_mod_cast (by omega : mode.toInt (x * 10 ^ more) ≤ 10 * (tenth + 1 : ℤ))
  calc (mode.toInt (x * 10 ^ more) : ℚ) / 10 ^ more
      ≤ 10 * (tenth + 1 : ℤ) / 10 ^ more := by gcongr
    _ ≤ 10 * (tenth + 1 : ℤ) / 10 ^ (places + 1) := by
        gcongr
        · norm_num
        · exact fewer
    _ = (tenth + 1 : ℤ) / 10 ^ places := by
        rw [pow_succ', mul_div_mul_left _ _ (by norm_num)]
    _ ≤ mode.toInt (y * 10 ^ places) / 10 ^ places := by gcongr

/-- Rounding at the most places that fit keeps the order of numbers. -/
theorem fit_mono : Monotone mode.fit := by
  refine monotone_of_odd_of_monotoneOn_nonneg nearest.fit_neg fun x nonneg y nonneg' le => ?_
  rw [Set.mem_Ici] at nonneg nonneg'
  have smaller : |x| ≤ |y| := by rwa [abs_of_nonneg nonneg, abs_of_nonneg nonneg']
  rcases (mode.fittingPlaces_anti smaller).lt_or_eq with fewer | same
  · exact nearest.fit_le_fit_of_fittingPlaces_lt nonneg le fewer
  · have rounded : mode.toInt (x * 10 ^ mode.fittingPlaces x) ≤
        mode.toInt (y * 10 ^ mode.fittingPlaces x) := mode.toInt_mono (by gcongr)
    rw [fit, fit, same]
    gcongr

end IsNearest

end RoundingMode

namespace Decimal

variable {negative : Bool} {dividend divisor places : Nat} {value left right : Decimal} {x : ℚ}

theorem toInt_lt_of_ofParts? (positive : 0 < divisor)
    (same : signFactor negative * (dividend / divisor) = x)
    (made : ofParts? negative (RoundingMode.halfEven.divide negative (dividend * tenPow places)
      divisor) places = some value) :
    RoundingMode.halfEven.toInt (|x| * 10 ^ places) < mantissaLimit := by
  obtain ⟨-, mantissa, -⟩ := ofParts?_eq_some_iff.1 made
  rw [toInt_abs_mul_eq_divide positive same, ← mantissa]
  exact_mod_cast value.mantissa_lt

theorem scale_of_nearest? (positive : 0 < divisor)
    (same : signFactor negative * (dividend / divisor) = x)
    (h : nearest? negative dividend divisor places = some value) :
    value.scale = min places (RoundingMode.halfEven.fittingPlaces x) := by
  induction places with
  | zero =>
    obtain ⟨-, -, scale⟩ := ofParts?_eq_some_iff.1 h
    rw [scale, Nat.zero_min]
  | succ places ih =>
    rw [nearest?] at h
    split at h
    · next made =>
      cases h
      obtain ⟨-, -, scale⟩ := ofParts?_eq_some_iff.1 made
      have fits := toInt_lt_of_ofParts? positive same made
      rw [scale, Nat.min_eq_left (RoundingMode.le_fittingPlaces (scale ▸ value.scale_le) fits)]
    · next refused =>
      have fewer : RoundingMode.halfEven.fittingPlaces x ≤ places := by
        by_contra more
        rw [Nat.not_le] at more
        have fits := RoundingMode.toInt_lt_of_le le_rfl more
          (RoundingMode.toInt_fittingPlaces_lt (x := x) (Nat.ne_zero_of_lt more))
        rw [toInt_abs_mul_eq_divide positive same] at fits
        rcases ofParts?_eq_none_iff.1 refused with wide | deep
        · exact absurd wide (by exact_mod_cast fits.not_ge)
        · exact absurd (more.trans_le (RoundingMode.halfEven.fittingPlaces_le x)) deep.not_ge
      rw [ih h, Nat.min_eq_right fewer, Nat.min_eq_right (fewer.trans (Nat.le_succ places))]

theorem toRat_eq_fit_of_nearest? (positive : 0 < divisor)
    (same : signFactor negative * (dividend / divisor) = x)
    (offered : maxScale ≤ places ∨ ∃ n : ℤ, x * 10 ^ places = n)
    (h : nearest? negative dividend divisor places = some value) :
    value.toRat = RoundingMode.halfEven.fit x := by
  have rounded := toRat_of_nearest? h positive
  rw [same, scale_of_nearest? positive same h] at rounded
  rcases offered with all | ⟨n, whole⟩
  · rwa [Nat.min_eq_right ((RoundingMode.fittingPlaces_le _ x).trans all)] at rounded
  rcases Nat.le_total (RoundingMode.halfEven.fittingPlaces x) places with fewer | more
  · rwa [Nat.min_eq_right fewer] at rounded
  · rw [Nat.min_eq_left more, whole, RoundingMode.toInt_intCast, ← whole,
      mul_div_cancel_right₀ _ (by positivity)] at rounded
    rw [rounded, RoundingMode.fit_eq_self whole more]

theorem exists_mul_pow_eq (same : signFactor negative * (dividend / (tenPow places : ℕ)) = x) :
    ∃ n : ℤ, x * 10 ^ places = n := by
  refine ⟨(if negative then -1 else 1) * dividend, ?_⟩
  rw [← same, natCast_tenPow, mul_assoc, div_mul_cancel₀ _ (by positivity), signFactor]
  push_cast
  rfl

theorem toRat_add?_eq_fit (h : left.add? right = some value) :
    value.toRat = RoundingMode.halfEven.fit (left.toRat + right.toRat) := by
  unfold add? at h
  split at h
  · next zero =>
    cases h
    rw [isZero_iff.1 zero, zero_add, RoundingMode.fit_toRat]
  split at h
  · next zero =>
    cases h
    rw [isZero_iff.1 zero, add_zero, RoundingMode.fit_toRat]
  · have same := toRat_add_eq left right
    exact toRat_eq_fit_of_nearest? (tenPow_pos _) same (.inr (exists_mul_pow_eq same)) h

theorem toRat_mul?_eq_fit (h : left.mul? right = some value) :
    value.toRat = RoundingMode.halfEven.fit (left.toRat * right.toRat) := by
  unfold mul? at h
  split at h
  · next vanishes =>
    cases h
    rw [toRat_mul_of_isZero vanishes, RoundingMode.fit_toRat]
  · have same := toRat_mul_eq left right
    exact toRat_eq_fit_of_nearest? (tenPow_pos _) same (.inr (exists_mul_pow_eq same)) h

theorem toRat_div?_eq_fit (divisor : right.toRat ≠ 0) (h : left.div? right = some value) :
    value.toRat = RoundingMode.halfEven.fit (left.toRat / right.toRat) := by
  by_cases vanishes : left.toRat = 0
  · rw [div?, if_pos (isZero_iff.2 vanishes)] at h
    cases h
    rw [vanishes, zero_div, ← toRat_zero, RoundingMode.fit_toRat]
  rcases div?_cases vanishes divisor with
    ⟨quotient, made, same⟩ | ⟨negative, dividend, divisor, positive, same, nearest⟩
  · cases made.symm.trans h
    rw [← same, RoundingMode.fit_toRat]
  · rw [nearest] at h
    obtain ⟨chosen, made, rfl⟩ := Option.map_eq_some_iff.1 h
    rw [toRat_normalize]
    exact toRat_eq_fit_of_nearest? positive same (.inl le_rfl) made

end Decimal

/-- What an operation stores is its exact result, rounded at the most places that fit. -/
theorem Operator.toRat_stored? {operator : Operator} {left right stored : Decimal}
    (divisor : operator = .divide → right.toRat ≠ 0)
    (made : operator.stored? left right = some stored) :
    stored.toRat = RoundingMode.halfEven.fit (operator.exact left.toRat right.toRat) := by
  cases operator with
  | add => exact Decimal.toRat_add?_eq_fit made
  | subtract =>
    rw [exact, Decimal.toRat_sub_eq]
    exact Decimal.toRat_add?_eq_fit made
  | multiply => exact Decimal.toRat_mul?_eq_fit made
  | divide => exact Decimal.toRat_div?_eq_fit (divisor rfl) made

namespace Precision

variable {precision : Precision} {left right result : Decimal}

/-- The result of an operation is a function of its exact result alone: that number is rounded at
    the most places that fit, and then to the working precision. -/
theorem toRat_of_apply {operator : Operator}
    (h : precision.apply operator left right = .ok result) :
    result.toRat = precision.rounded
      (RoundingMode.halfEven.fit (operator.exact left.toRat right.toRat)) := by
  obtain ⟨accepted, stored, made, -, rounds⟩ := apply_eq_ok_iff.1 h
  have divisor : operator = .divide → right.toRat ≠ 0 := fun divides vanishes =>
    accepted ⟨divides, Decimal.isZero_iff.2 vanishes⟩
  rw [precision.toRat_of_round rounds, Operator.toRat_stored? divisor made]

theorem toRat_le_of_exact_le (operator operator' : Operator) {left' right' result' : Decimal}
    (h : precision.apply operator left right = .ok result)
    (h' : precision.apply operator' left' right' = .ok result')
    (le : operator.exact left.toRat right.toRat ≤ operator'.exact left'.toRat right'.toRat) :
    result.toRat ≤ result'.toRat := by
  rw [toRat_of_apply h, toRat_of_apply h']
  have nearest : RoundingMode.halfEven.IsNearest := trivial
  exact precision.rounded_mono (nearest.fit_mono le)

/-- Addition, subtraction of something, and multiplication and division by something positive keep
    the order of decimals, and subtraction from something turns it round, however the decimals are
    written. -/
theorem arithmetic_mono (precision : Precision) {smaller larger other : Decimal}
    (le : smaller.toRat ≤ larger.toRat) :
    (∀ low high, precision.add smaller other = .ok low → precision.add larger other = .ok high →
      low.toRat ≤ high.toRat) ∧
    (∀ low high, precision.sub smaller other = .ok low → precision.sub larger other = .ok high →
      low.toRat ≤ high.toRat) ∧
    (∀ low high, precision.sub other larger = .ok low → precision.sub other smaller = .ok high →
      low.toRat ≤ high.toRat) ∧
    (0 < other.toRat →
      (∀ low high, precision.mul smaller other = .ok low →
        precision.mul larger other = .ok high → low.toRat ≤ high.toRat) ∧
      (∀ low high, precision.div smaller other = .ok low →
        precision.div larger other = .ok high → low.toRat ≤ high.toRat)) := by
  refine ⟨fun low high h h' => ?_, fun low high h h' => ?_, fun low high h h' => ?_,
    fun positive => ⟨fun low high h h' => ?_, fun low high h h' => ?_⟩⟩
  · exact toRat_le_of_exact_le .add .add h h' (add_le_add_left le _)
  · exact toRat_le_of_exact_le .subtract .subtract h h' (sub_le_sub_right le _)
  · exact toRat_le_of_exact_le .subtract .subtract h h' (sub_le_sub_left le _)
  · exact toRat_le_of_exact_le .multiply .multiply h h' (mul_le_mul_of_nonneg_right le positive.le)
  · exact toRat_le_of_exact_le .divide .divide h h' (div_le_div_of_nonneg_right le positive.le)

/-- Of two products the larger one has no room for the last place of the smaller one. -/
theorem products_around_largest_mantissa :
    let precision : Precision := ⟨28, .down, by decide, by decide⟩
    let smaller : Decimal := ⟨false, 26409387504754779197847983445, 28, by decide, by decide⟩
    let larger : Decimal := ⟨false, 26409387504754779197847983446, 28, by decide, by decide⟩
    let three : Decimal := ⟨false, 3, 0, by decide, by decide⟩
    let low : Decimal := ⟨false, 7922816251426433759354395033, 27, by decide, by decide⟩
    let high : Decimal := ⟨false, 7922816251426433759354395034, 27, by decide, by decide⟩
    smaller.toRat ≤ larger.toRat ∧ 0 < three.toRat ∧
      precision.mul smaller three = .ok low ∧ precision.mul larger three = .ok high ∧
      low.toRat ≤ high.toRat := by
  intro precision smaller larger three low high
  have le : smaller.toRat ≤ larger.toRat := by decide +kernel
  have positive : 0 < three.toRat := by decide +kernel
  have made : precision.mul smaller three = .ok low := by decide +kernel
  have made' : precision.mul larger three = .ok high := by decide +kernel
  obtain ⟨-, -, -, scaled⟩ := arithmetic_mono precision le
  obtain ⟨products, -⟩ := scaled positive
  exact ⟨le, positive, made, made', products _ _ made made'⟩

end Precision

end Reckoner
