import Mathlib.NumberTheory.Padics.PadicVal.Basic
import Reckoner.Proofs.Held

/-! # Operations without rounding

Where some decimal denotes the exact result of an operation, the stored decimal denotes it too and
is not taken for one that is too small. Where the result is held, rounding leaves it as it is. The
check of a product counts the factors two and five of the mantissas, and the check of a quotient
multiplies back, which gives the dividend without rounding because that is a decimal.
-/

namespace Reckoner

variable {precision : Precision}

namespace Decimal

variable {left right : Decimal}

theorem multiplicity_eq_padicValNat (prime : Nat) [Fact prime.Prime] (number : Nat) :
    multiplicity prime number = padicValNat prime number := by
  induction number using Nat.strongRecOn with
  | _ number ih =>
    rw [multiplicity]
    split
    · next divides =>
      obtain ⟨two, positive, even⟩ := divides
      have divisor := Nat.dvd_of_mod_eq_zero even
      have more := (dvd_iff_padicValNat_ne_zero positive.ne').1 divisor
      rw [ih _ (Nat.div_lt_self positive two), padicValNat.div divisor]
      omega
    · next stops =>
      rcases Nat.eq_zero_or_pos number with rfl | positive
      · simp
      · have two := (Fact.out : prime.Prime).two_le
        refine (padicValNat.eq_zero_of_not_dvd fun divides => ?_).symm
        exact stops ⟨two, positive, Nat.mod_eq_zero_of_dvd divides⟩

theorem pow_dvd_mul_iff {prime left right zeros : Nat} [Fact prime.Prime] (h : left ≠ 0)
    (h' : right ≠ 0) :
    prime ^ zeros ∣ left * right ↔ zeros ≤ multiplicity prime left + multiplicity prime right := by
  rw [multiplicity_eq_padicValNat, multiplicity_eq_padicValNat, ← padicValNat.mul h h']
  exact padicValNat_dvd_iff_le (Nat.mul_ne_zero h h')

/-- Each zero at the end of a product is one of the pairs of the factors two and five. -/
theorem tenPow_dvd_mul_iff {left right zeros : Nat} (h : left ≠ 0) (h' : right ≠ 0) :
    tenPow zeros ∣ left * right ↔
      zeros ≤ min (multiplicity 2 left + multiplicity 2 right)
        (multiplicity 5 left + multiplicity 5 right) := by
  have five : Fact (Nat.Prime 5) := ⟨Nat.prime_five⟩
  have pairs : tenPow zeros = 2 ^ zeros * 5 ^ zeros := by
    rw [tenPow_eq_pow, ← Nat.mul_pow]
  rw [Nat.le_min, ← pow_dvd_mul_iff h h', ← pow_dvd_mul_iff h h', pairs]
  refine ⟨fun divides => ⟨dvd_of_mul_right_dvd divides, dvd_of_mul_left_dvd divides⟩, ?_⟩
  rintro ⟨twos, fives⟩
  exact (Nat.Coprime.pow zeros zeros (by decide)).mul_dvd_of_dvd_of_dvd twos fives

theorem abs_toRat_mul (left right : Decimal) :
    |left.toRat * right.toRat| =
      (left.mantissa * right.mantissa : ℕ) / 10 ^ (left.scale + right.scale) := by
  rw [← toRat_mul_eq, abs_mul, abs_signFactor, one_mul, abs_of_nonneg (by positivity),
    natCast_tenPow]

theorem mem_placesFor_mul_iff {places : Nat} (h : left.mantissa ≠ 0) (h' : right.mantissa ≠ 0) :
    places ∈ placesFor (left.toRat * right.toRat) ↔ left.productScale right ≤ places := by
  rw [mem_placesFor_iff_dvd (abs_toRat_mul left right), tenPow_dvd_mul_iff h h']
  simp only [productScale]
  omega

theorem isExactProduct_iff (nonzero : left.toRat * right.toRat ≠ 0) :
    left.isExactProduct right = true ↔ IsPlaced (left.toRat * right.toRat) := by
  have h : left.mantissa ≠ 0 := mt toRat_eq_zero_iff.2 (left_ne_zero_of_mul nonzero)
  have h' : right.mantissa ≠ 0 := mt toRat_eq_zero_iff.2 (right_ne_zero_of_mul nonzero)
  rw [isExactProduct, decide_eq_true_eq, isPlaced_iff_mem_placesFor, mem_placesFor_mul_iff h h']

theorem exists_add?_of_toRat {exact : Decimal} (h : left.toRat + right.toRat = exact.toRat) :
    ∃ sum, left.add? right = some sum ∧ sum.toRat = left.toRat + right.toRat := by
  unfold add?
  split
  · next zero => exact ⟨right, rfl, by rw [isZero_iff.1 zero, zero_add]⟩
  split
  · next zero => exact ⟨left, rfl, by rw [isZero_iff.1 zero, add_zero]⟩
  · rw [h]
    exact exists_nearest?_tenPow ((toRat_add_eq left right).trans h)

theorem exists_mul?_of_toRat {exact : Decimal} (h : left.toRat * right.toRat = exact.toRat) :
    ∃ product, left.mul? right = some product ∧ product.toRat = left.toRat * right.toRat := by
  unfold mul?
  split
  · next vanishes =>
    refine ⟨zero, rfl, ?_⟩
    rw [toRat_zero, eq_comm, mul_eq_zero]
    simpa [isZero_iff] using vanishes
  · rw [h]
    exact exists_nearest?_tenPow ((toRat_mul_eq left right).trans h)

theorem div?_cases (dividend : left.toRat ≠ 0) (divisor : right.toRat ≠ 0) :
    (∃ quotient, left.div? right = some quotient ∧
      quotient.toRat = left.toRat / right.toRat) ∨
    ∃ negative dividend divisor, 0 < divisor ∧
      signFactor negative * ((dividend : ℕ) / (divisor : ℕ)) = left.toRat / right.toRat ∧
      left.div? right = (nearest? negative dividend divisor maxScale).map normalize := by
  have vanishes : ¬ left.isZero = true := mt isZero_iff.1 dividend
  have nonzero : right.mantissa ≠ 0 := mt toRat_eq_zero_iff.2 divisor
  unfold div?
  dsimp only
  rw [if_neg vanishes]
  split
  · next even =>
    have room := Nat.lt_of_le_of_lt (Nat.div_le_self left.mantissa right.mantissa) left.mantissa_lt
    have shallow := Nat.le_trans (Nat.sub_le left.scale right.scale) left.scale_le
    obtain ⟨quotient, made, -⟩ := exists_ofParts? (left.negative != right.negative) room shallow
    exact .inl ⟨quotient, made, toRat_of_even nonzero even.1 even.2 made⟩
  · have positive : 0 < right.mantissa * tenPow left.scale :=
      Nat.mul_pos (Nat.pos_of_ne_zero nonzero) (tenPow_pos _)
    exact .inr ⟨_, _, _, positive, toRat_div_eq left right, rfl⟩

theorem exists_div?_of_toRat {exact : Decimal} (divisor : right.toRat ≠ 0)
    (h : left.toRat / right.toRat = exact.toRat) :
    ∃ quotient, left.div? right = some quotient ∧ quotient.toRat = left.toRat / right.toRat := by
  by_cases vanishes : left.toRat = 0
  · refine ⟨zero, ?_, by rw [vanishes, zero_div, toRat_zero]⟩
    rw [div?, if_pos (isZero_iff.2 vanishes)]
  rcases div?_cases vanishes divisor with
    exactly | ⟨negative, dividend, divisor, positive, same, nearest⟩
  · exact exactly
  · obtain ⟨whole, placed⟩ := exact.isPlaced_toRat
    have offered : |exact.toRat| * 10 ^ maxScale = whole := by
      rw [placed, div_mul_cancel₀ _ (by positivity)]
    obtain ⟨quotient, made, denoted⟩ :=
      exists_nearest?_of_toRat positive (same.trans h) ⟨whole, offered⟩
    exact ⟨quotient.normalize, by rw [nearest, made]; rfl, by rw [toRat_normalize, denoted, h]⟩

theorem isExactQuotient_of_mul_eq {quotient : Decimal} (nonzero : left.toRat ≠ 0)
    (same : quotient.toRat * right.toRat = left.toRat) :
    left.isExactQuotient right quotient = true := by
  obtain ⟨product, made, exact⟩ := exists_mul?_of_toRat same
  have known := (isExactProduct_iff (same ▸ nonzero)).2 (same ▸ left.isPlaced_toRat)
  rw [isExactQuotient, known, made]
  simp [exact, same]

end Decimal

/-- The decimal that an operation makes is the exact result, if some decimal denotes it. -/
theorem Operator.exists_stored?_of_toRat (operator : Operator) {left right exact : Decimal}
    (divisor : operator = .divide → right.toRat ≠ 0)
    (h : operator.exact left.toRat right.toRat = exact.toRat) :
    ∃ stored, operator.stored? left right = some stored ∧
      stored.toRat = operator.exact left.toRat right.toRat := by
  cases operator with
  | add => exact Decimal.exists_add?_of_toRat h
  | subtract =>
    rw [Operator.exact, Decimal.toRat_sub_eq] at h ⊢
    exact Decimal.exists_add?_of_toRat h
  | multiply => exact Decimal.exists_mul?_of_toRat h
  | divide => exact Decimal.exists_div?_of_toRat (divisor rfl) h

theorem Precision.isShort_zero (precision : Precision) : precision.isShort .zero = false := rfl

theorem Operator.isTooSmall_eq_false (precision : Precision) {operator : Operator}
    {left right stored : Decimal}
    (divisor : operator = .divide → right.toRat ≠ 0)
    (placed : IsPlaced (operator.exact left.toRat right.toRat))
    (made : operator.stored? left right = some stored)
    (exact : stored.toRat = operator.exact left.toRat right.toRat) :
    operator.isTooSmall precision left right stored = false := by
  cases operator with
  | add | subtract => rfl
  | multiply =>
    by_cases vanishes : (left.isZero || right.isZero) = true
    · rw [stored?, Decimal.mul?, if_pos vanishes] at made
      cases made
      rw [isTooSmall, precision.isShort_zero, Bool.and_assoc, ← Bool.not_or, vanishes]
      rfl
    · simp only [Bool.or_eq_true, Decimal.isZero_iff, not_or] at vanishes
      have product := mul_ne_zero vanishes.1 vanishes.2
      have nonzero : stored.isZero = false := by
        rw [Decimal.isZero_eq_false_iff, exact]
        exact product
      simp [isTooSmall, nonzero, (Decimal.isExactProduct_iff product).2 placed]
  | divide =>
    by_cases vanishes : left.isZero = true
    · rw [stored?, Decimal.div?, if_pos vanishes] at made
      cases made
      rw [isTooSmall, precision.isShort_zero, vanishes]
      rfl
    · rw [Decimal.isZero_iff] at vanishes
      have nonzero : stored.isZero = false := by
        rw [Decimal.isZero_eq_false_iff, exact]
        exact div_ne_zero vanishes (divisor rfl)
      have same : stored.toRat * right.toRat = left.toRat := by
        rw [exact, Operator.exact, div_mul_cancel₀ _ (divisor rfl)]
      have gives := Decimal.isExactQuotient_of_mul_eq vanishes same
      simp [isTooSmall, nonzero, gives]

/-- An operation is exact if its result is held. -/
theorem Precision.exists_apply_of_holds (operator : Operator) {left right : Decimal}
    (divisor : operator = .divide → right.toRat ≠ 0)
    (held : precision.Holds (operator.exact left.toRat right.toRat)) :
    ∃ result, precision.apply operator left right = .ok result ∧
      result.toRat = operator.exact left.toRat right.toRat := by
  obtain ⟨denoted, same, -⟩ := held.exists_decimal
  obtain ⟨stored, made, exact⟩ := operator.exists_stored?_of_toRat divisor same.symm
  have large := Operator.isTooSmall_eq_false precision divisor held.places made exact
  obtain ⟨result, rounded, same⟩ := exists_round_of_holds (exact ▸ held)
  have accepted : ¬ (operator = .divide ∧ right.isZero = true) := by
    rintro ⟨divides, zero⟩
    exact divisor divides (Decimal.isZero_iff.1 zero)
  exact ⟨result, apply_eq_ok_iff.2 ⟨accepted, stored, made, large, rounded⟩, same.trans exact⟩

end Reckoner
