import Reckoner.Proofs.LastPlace

/-! # Products and quotients that are too small

A product or quotient underflows where what is stored of it is short of digits and is not found to
be exact. What is stored is already rounded, so a product that is rounded up to a number with few
digits is refused although it has digits enough, and one last place is not refused where one digit
is kept. The zeros at the end of a stored quotient are dropped, so such a quotient has places left
and is never refused; nor is one that gives the dividend back only after another rounding.
-/

namespace Reckoner

variable {precision : Precision} {left right stored : Decimal}

namespace Decimal

theorem exists_mul?_of_lastPlaces_lt (needs : ¬ IsPlaced (left.toRat * right.toRat))
    (room : lastPlaces (left.toRat * right.toRat) < mantissaLimit) :
    ∃ product, left.mul? right = some product ∧ product.scale = maxScale ∧
      product.mantissa = lastPlaces (left.toRat * right.toRat) := by
  have same := toRat_mul_eq left right
  have magnitude : |left.toRat * right.toRat| =
      (left.mantissa * right.mantissa : ℕ) / 10 ^ (left.scale + right.scale) := by
    rw [← same, abs_mul, abs_signFactor, one_mul, abs_of_nonneg (by positivity), natCast_tenPow]
  have deep : maxScale ≤ left.scale + right.scale := by
    by_contra shallow
    exact needs (isPlaced_of_scale_le (Nat.le_of_not_le shallow) magnitude)
  have nonzero : ¬ (left.isZero || right.isZero) = true := by
    simp only [Bool.or_eq_true, isZero_iff, ← mul_eq_zero]
    exact ne_zero_of_not_isPlaced needs
  rw [mul?, if_neg nonzero]
  exact exists_nearest?_of_lastPlaces_lt (tenPow_pos _) same deep room

theorem scale_lt_of_mul? (long : mantissaLimit ≤ lastPlaces (left.toRat * right.toRat))
    (made : left.mul? right = some stored) : stored.scale < maxScale := by
  unfold mul? at made
  split at made
  · cases made
    decide
  · exact scale_lt_of_nearest? (tenPow_pos _) (toRat_mul_eq left right) long made

theorem exists_div?_of_lastPlaces_lt (divisor : right.toRat ≠ 0)
    (needs : ¬ IsPlaced (left.toRat / right.toRat))
    (room : lastPlaces (left.toRat / right.toRat) < mantissaLimit) :
    ∃ quotient : Decimal, left.div? right = some quotient.normalize ∧
      quotient.scale = maxScale ∧ quotient.mantissa = lastPlaces (left.toRat / right.toRat) := by
  have dividend : left.toRat ≠ 0 := by
    intro vanishes
    rw [vanishes, zero_div] at needs
    exact ne_zero_of_not_isPlaced needs rfl
  rcases div?_cases dividend divisor with ⟨quotient, -, same⟩ | ⟨_, _, _, positive, same, nearest⟩
  · rw [← same] at needs
    exact absurd quotient.isPlaced_toRat needs
  · obtain ⟨quotient, made, scale, mantissa⟩ :=
      exists_nearest?_of_lastPlaces_lt positive same le_rfl room
    exact ⟨quotient, by rw [nearest, made]; rfl, scale, mantissa⟩

theorem scale_lt_of_div? (dividend : left.toRat ≠ 0) (divisor : right.toRat ≠ 0)
    (long : mantissaLimit ≤ lastPlaces (left.toRat / right.toRat))
    (made : left.div? right = some stored) : stored.scale < maxScale := by
  rcases div?_cases dividend divisor with
    ⟨quotient, even, same⟩ | ⟨_, _, _, positive, same, nearest⟩
  · cases made.symm.trans even
    refine Nat.lt_of_le_of_ne stored.scale_le fun full => ?_
    have room := stored.mantissa_lt
    rw [← same, lastPlaces_toRat full] at long
    omega
  · rw [nearest] at made
    obtain ⟨quotient, chosen, rfl⟩ := Option.map_eq_some_iff.1 made
    exact Nat.lt_of_le_of_lt (dropZeros_snd_le ..) (scale_lt_of_nearest? positive same long chosen)

theorem scale_normalize_eq_maxScale_iff {value : Decimal} (full : value.scale = maxScale) :
    value.normalize.scale = maxScale ↔ value.mantissa % 10 ≠ 0 := by
  constructor
  · intro kept last
    have shorter : (dropZeros value.mantissa value.scale).2 ≤ maxScale - 1 := by
      rw [full]
      show (dropZeros value.mantissa (27 + 1)).2 ≤ 27
      rw [dropZeros, if_pos last]
      exact dropZeros_snd_le ..
    change (dropZeros value.mantissa value.scale).2 = maxScale at kept
    rw [kept] at shorter
    exact absurd shorter (by decide)
  · intro last
    show (dropZeros value.mantissa value.scale).2 = maxScale
    rw [dropZeros_of_reduced (.inr last)]
    exact full

/-- Whether a quotient that is not exact gives the dividend back, because the product with the
    divisor has no room and is rounded to it. -/
def MultipliesBack (left right : Decimal) : Prop :=
  ∃ quotient product, left.div? right = some quotient ∧
    IsPlaced (quotient.toRat * right.toRat) ∧ quotient.mul? right = some product ∧
    product.toRat = left.toRat

theorem isExactQuotient_iff (nonzero : stored.toRat * right.toRat ≠ 0)
    (made : left.div? right = some stored) :
    left.isExactQuotient right stored = true ↔ left.MultipliesBack right := by
  rw [isExactQuotient, Bool.and_eq_true, isExactProduct_iff nonzero]
  constructor
  · rintro ⟨placed, same⟩
    cases back : stored.mul? right with
    | none => simp [back] at same
    | some product =>
      simp only [back, decide_eq_true_eq] at same
      exact ⟨stored, product, made, placed, back, same⟩
  · rintro ⟨quotient, product, same, placed, back, gives⟩
    cases made.symm.trans same
    exact ⟨placed, by simp [back, gives]⟩

end Decimal

namespace Operator

theorem isTooSmall_of_scale_lt (operator : Operator) (nonzero : stored.toRat ≠ 0)
    (shallow : stored.scale < maxScale) :
    operator.isTooSmall precision left right stored = false := by
  have kept := Decimal.isZero_eq_false_iff.2 nonzero
  have places : precision.isShort stored = false := by
    rw [Bool.eq_false_iff, ne_eq, Precision.isShort_iff]
    exact fun short => shallow.ne short.1
  cases operator <;> simp [isTooSmall, kept, places]

/-- Only a result that needs more than all places, and has room with all of them, is too small. -/
theorem needs_of_isTooSmall {operator : Operator} (dividend : left.toRat ≠ 0)
    (divisor : right.toRat ≠ 0) (made : operator.stored? left right = some stored)
    (small : operator.isTooSmall precision left right stored = true) :
    ¬ IsPlaced (operator.exact left.toRat right.toRat) ∧
      lastPlaces (operator.exact left.toRat right.toRat) < mantissaLimit := by
  have room : lastPlaces (operator.exact left.toRat right.toRat) < mantissaLimit := by
    by_contra long
    rw [Nat.not_lt] at long
    have large : operator.isTooSmall precision left right stored = false := by
      cases operator with
      | add | subtract => rfl
      | multiply =>
        obtain ⟨places, stands⟩ := Decimal.standsFor_of_mul? made
        refine isTooSmall_of_scale_lt _ (fun vanishes => ?_) (Decimal.scale_lt_of_mul? long made)
        rw [exact, stands.lastPlaces_eq_zero vanishes] at long
        exact absurd long (by decide)
      | divide =>
        obtain ⟨places, stands⟩ :=
          Decimal.standsFor_of_div? made (mt Decimal.toRat_eq_zero_iff.2 divisor)
        refine isTooSmall_of_scale_lt _ (fun vanishes => ?_)
          (Decimal.scale_lt_of_div? dividend divisor long made)
        rw [exact, stands.lastPlaces_eq_zero vanishes] at long
        exact absurd long (by decide)
    rw [large] at small
    cases small
  refine ⟨fun placed => ?_, room⟩
  obtain ⟨denoted, same⟩ := Decimal.exists_toRat_eq placed room
  obtain ⟨exactly, made', equal⟩ := operator.exists_stored?_of_toRat (fun _ => divisor) same.symm
  cases made.symm.trans made'
  rw [isTooSmall_eq_false precision (fun _ => divisor) placed made equal] at small
  cases small

theorem isTooSmall_multiply_iff (needs : ¬ IsPlaced (left.toRat * right.toRat))
    (full : stored.scale = maxScale) :
    multiply.isTooSmall precision left right stored = true ↔
      precision.IsFewDigits stored.mantissa := by
  have nonzero := ne_zero_of_not_isPlaced needs
  have inexact : left.isExactProduct right = false := by
    rw [Bool.eq_false_iff, ne_eq, Decimal.isExactProduct_iff nonzero]
    exact needs
  have first := Decimal.isZero_eq_false_iff.2 (left_ne_zero_of_mul nonzero)
  have second := Decimal.isZero_eq_false_iff.2 (right_ne_zero_of_mul nonzero)
  have short : precision.isShort stored = true ↔ _ := precision.isShort_iff
  rw [isTooSmall, inexact, first, second]
  simp only [Bool.not_false, Bool.and_true, Bool.or_eq_true, short, full, true_and]
  refine or_iff_right_of_imp fun vanishes => ?_
  rw [Decimal.isZero, beq_iff_eq] at vanishes
  rw [vanishes]
  exact precision.isFewDigits_zero

/-- A quotient with all places is too small if nothing is left of it, or if it has few digits, no
    zero at its end and does not give the dividend back. -/
theorem isTooSmall_divide_iff (divisor : right.toRat ≠ 0)
    (needs : ¬ IsPlaced (left.toRat / right.toRat)) (full : stored.scale = maxScale)
    (made : left.div? right = some stored.normalize) :
    divide.isTooSmall precision left right stored.normalize = true ↔
      stored.mantissa = 0 ∨ stored.mantissa % 10 ≠ 0 ∧
        stored.mantissa < 10 ^ (precision.digits - 1) ∧ ¬ left.MultipliesBack right := by
  have dividend : left.isZero = false := by
    refine Decimal.isZero_eq_false_iff.2 fun vanishes => ?_
    rw [vanishes, zero_div] at needs
    exact ne_zero_of_not_isPlaced needs rfl
  have zero : stored.normalize.isZero = true ↔ stored.mantissa = 0 := by
    rw [Decimal.isZero_iff, Decimal.toRat_normalize, Decimal.toRat_eq_zero_iff]
  rw [isTooSmall, dividend, Bool.not_false, Bool.and_true, Bool.or_eq_true, zero,
    Bool.and_eq_true, precision.isShort_iff, Decimal.scale_normalize_eq_maxScale_iff full,
    and_assoc]
  refine or_congr_right (and_congr_right fun last => ?_)
  have same : stored.normalize.mantissa = stored.mantissa := by
    show (Decimal.dropZeros stored.mantissa stored.scale).1 = stored.mantissa
    rw [Decimal.dropZeros_of_reduced (.inr last)]
  have nonzero : stored.normalize.toRat * right.toRat ≠ 0 := by
    refine mul_ne_zero (fun vanishes => last ?_) divisor
    rw [Decimal.toRat_eq_zero_iff, same] at vanishes
    rw [vanishes]
  rw [same, Precision.isFewDigits_iff_lt (.inr last), Bool.not_eq_true',
    ← Decimal.isExactQuotient_iff nonzero made, Bool.not_eq_true]

end Operator

namespace Precision

/-- A product underflows exactly if it needs more than all places and has few digits with them. -/
theorem mul_eq_underflow_iff_isFewDigits (h : left.toRat ≠ 0) (h' : right.toRat ≠ 0) :
    precision.mul left right = .error .underflow ↔ ¬ IsPlaced (left.toRat * right.toRat) ∧
      lastPlaces (left.toRat * right.toRat) < mantissaLimit ∧
      precision.IsFewDigits (lastPlaces (left.toRat * right.toRat)) := by
  have way : precision.apply .multiply left right = .error .underflow ↔ _ := apply_eq_underflow_iff
  refine way.trans ⟨?_, ?_⟩
  · rintro ⟨-, stored, made, small⟩
    obtain ⟨needs, room⟩ := Operator.needs_of_isTooSmall h h' made small
    obtain ⟨product, made', full, mantissa⟩ := Decimal.exists_mul?_of_lastPlaces_lt needs room
    cases made.symm.trans made'
    rw [← mantissa]
    exact ⟨needs, stored.mantissa_lt, (Operator.isTooSmall_multiply_iff needs full).1 small⟩
  · rintro ⟨needs, room, few⟩
    obtain ⟨product, made, full, mantissa⟩ := Decimal.exists_mul?_of_lastPlaces_lt needs room
    rw [← mantissa] at few
    exact ⟨by simp, product, made, (Operator.isTooSmall_multiply_iff needs full).2 few⟩

/-- A quotient underflows exactly if it needs more than all places and, with them, is nothing or has
    few digits without a zero at its end, and is not taken for exact. -/
theorem div_eq_underflow_iff_lastPlaces (h : left.toRat ≠ 0) (h' : right.toRat ≠ 0) :
    precision.div left right = .error .underflow ↔ ¬ IsPlaced (left.toRat / right.toRat) ∧
      lastPlaces (left.toRat / right.toRat) < mantissaLimit ∧
      (lastPlaces (left.toRat / right.toRat) = 0 ∨
        lastPlaces (left.toRat / right.toRat) % 10 ≠ 0 ∧
        lastPlaces (left.toRat / right.toRat) < 10 ^ (precision.digits - 1) ∧
        ¬ left.MultipliesBack right) := by
  have way : precision.apply .divide left right = .error .underflow ↔ _ := apply_eq_underflow_iff
  refine way.trans ⟨?_, ?_⟩
  · rintro ⟨-, stored, made, small⟩
    obtain ⟨needs, room⟩ := Operator.needs_of_isTooSmall h h' made small
    obtain ⟨quotient, made', full, mantissa⟩ := Decimal.exists_div?_of_lastPlaces_lt h' needs room
    cases made.symm.trans made'
    rw [← mantissa]
    exact ⟨needs, quotient.mantissa_lt,
      (Operator.isTooSmall_divide_iff h' needs full made').1 small⟩
  · rintro ⟨needs, room, lost⟩
    obtain ⟨quotient, made, full, mantissa⟩ := Decimal.exists_div?_of_lastPlaces_lt h' needs room
    rw [← mantissa] at lost
    have accepted : ¬ (Operator.divide = .divide ∧ right.isZero = true) :=
      fun refused => h' (Decimal.isZero_iff.1 refused.2)
    exact ⟨accepted, quotient.normalize, made,
      (Operator.isTooSmall_divide_iff h' needs full made).2 lost⟩

/-- A product underflows if it needs more than all places and is below the number with which they
    begin to show all digits, unless one digit is kept and it is rounded to one last place. Above
    that number it underflows as well, if it is rounded to a number with few digits. -/
theorem mul_eq_underflow_iff (h : left.toRat ≠ 0) (h' : right.toRat ≠ 0) :
    let exact := left.toRat * right.toRat
    precision.mul left right = .error .underflow ↔ ¬ IsPlaced exact ∧
      (|exact| < 10 ^ (precision.digits - 29 : ℤ) ∧
          ¬ (precision.digits = 1 ∧ lastPlaces exact = 1) ∨
        10 ^ (precision.digits - 29 : ℤ) ≤ |exact| ∧ lastPlaces exact < mantissaLimit ∧
          precision.IsFewDigits (lastPlaces exact)) := by
  intro exact
  rw [mul_eq_underflow_iff_isFewDigits h h']
  refine and_congr_right fun needs => ?_
  rcases lt_or_ge |exact| (10 ^ (precision.digits - 29 : ℤ)) with small | large
  · have room := precision.lastPlaces_lt_mantissaLimit small
    simp only [small, small.not_ge, true_and, false_and, or_false]
    rw [← isFewDigits_lastPlaces_iff small]
    exact and_iff_right room
  · simp only [large, large.not_gt, true_and, false_and, false_or]
    rfl

/-- A tenth of the last place. -/
theorem tenth_of_last_place_underflows :
    Decimal.toRat ⟨false, 1, 28, by decide, by decide⟩ ≠ 0 ∧
      Decimal.toRat ⟨false, 1, 1, by decide, by decide⟩ ≠ 0 ∧
      decimal64.mul ⟨false, 1, 28, by decide, by decide⟩ ⟨false, 1, 1, by decide, by decide⟩ =
        .error .underflow ∧
      ¬ IsPlaced (Decimal.toRat ⟨false, 1, 28, by decide, by decide⟩ *
        Decimal.toRat ⟨false, 1, 1, by decide, by decide⟩) := by
  have h : Decimal.toRat ⟨false, 1, 28, by decide, by decide⟩ ≠ 0 :=
    mt Decimal.toRat_eq_zero_iff.1 (by decide)
  have h' : Decimal.toRat ⟨false, 1, 1, by decide, by decide⟩ ≠ 0 :=
    mt Decimal.toRat_eq_zero_iff.1 (by decide)
  have refused : decimal64.mul ⟨false, 1, 28, by decide, by decide⟩
      ⟨false, 1, 1, by decide, by decide⟩ = .error .underflow := by decide +kernel
  exact ⟨h, h', refused, ((mul_eq_underflow_iff h h').1 refused).1⟩

/-- With sixteen digits the product of 1.000000000000001 and 0.999999999999999 is refused, because
    it is stored as one. -/
theorem not_forall_mul_eq_underflow_iff :
    ¬ ∀ (precision : Precision) (left right : Decimal), left.toRat ≠ 0 → right.toRat ≠ 0 →
      (precision.mul left right = .error .underflow ↔
        ¬ IsPlaced (left.toRat * right.toRat) ∧
          |left.toRat * right.toRat| < 10 ^ (precision.digits - 29 : ℤ)) := by
  intro exactly
  have refused : decimal64.mul ⟨false, 1000000000000001, 15, by decide, by decide⟩
      ⟨false, 999999999999999, 15, by decide, by decide⟩ = .error .underflow := by decide +kernel
  obtain ⟨-, small⟩ := (exactly decimal64 ⟨false, 1000000000000001, 15, by decide, by decide⟩
    ⟨false, 999999999999999, 15, by decide, by decide⟩
    (mt Decimal.toRat_eq_zero_iff.1 (by decide))
    (mt Decimal.toRat_eq_zero_iff.1 (by decide))).1 refused
  rw [abs_mul, Decimal.abs_toRat, Decimal.abs_toRat] at small
  norm_num [decimal64] at small

/-- A quotient underflows if it needs more than all places and is below the number with which they
    begin to show all digits, unless it is rounded to a number of last places that ends with a zero,
    or to one last place where one digit is kept, or is taken for exact. -/
theorem div_eq_underflow_iff (h : left.toRat ≠ 0) (h' : right.toRat ≠ 0) :
    let exact := left.toRat / right.toRat
    precision.div left right = .error .underflow ↔
      ¬ IsPlaced exact ∧ |exact| < 10 ^ (precision.digits - 29 : ℤ) ∧
        (lastPlaces exact = 0 ∨ ¬ 10 ∣ lastPlaces exact ∧
          ¬ (precision.digits = 1 ∧ lastPlaces exact = 1) ∧ ¬ left.MultipliesBack right) := by
  intro exact
  rw [div_eq_underflow_iff_lastPlaces h h']
  refine and_congr_right fun needs => ?_
  rcases lt_or_ge |exact| (10 ^ (precision.digits - 29 : ℤ)) with small | large
  · have room := precision.lastPlaces_lt_mantissaLimit small
    simp only [small, true_and, Nat.dvd_iff_mod_eq_zero]
    refine (and_iff_right room).trans (or_congr_right (and_congr_right fun last => ?_))
    rw [← isFewDigits_lastPlaces_iff small, isFewDigits_iff_lt (.inr last)]
  · have least := precision.le_lastPlaces_of_le large
    have some : lastPlaces exact ≠ 0 := by
      have := Nat.pow_pos (n := precision.digits - 1) (by decide : 0 < 10)
      omega
    simp only [large.not_gt, false_and, iff_false, not_and, not_or]
    intro room
    exact ⟨some, fun last less => absurd less least.not_gt⟩

/-- A third of the last place. -/
theorem third_of_last_place_underflows :
    Decimal.toRat ⟨false, 1, 28, by decide, by decide⟩ ≠ 0 ∧
      Decimal.toRat ⟨false, 3, 0, by decide, by decide⟩ ≠ 0 ∧
      decimal64.div ⟨false, 1, 28, by decide, by decide⟩ ⟨false, 3, 0, by decide, by decide⟩ =
        .error .underflow ∧
      ¬ IsPlaced (Decimal.toRat ⟨false, 1, 28, by decide, by decide⟩ /
        Decimal.toRat ⟨false, 3, 0, by decide, by decide⟩) := by
  have h : Decimal.toRat ⟨false, 1, 28, by decide, by decide⟩ ≠ 0 :=
    mt Decimal.toRat_eq_zero_iff.1 (by decide)
  have h' : Decimal.toRat ⟨false, 3, 0, by decide, by decide⟩ ≠ 0 :=
    mt Decimal.toRat_eq_zero_iff.1 (by decide)
  have refused : decimal64.div ⟨false, 1, 28, by decide, by decide⟩
      ⟨false, 3, 0, by decide, by decide⟩ = .error .underflow := by decide +kernel
  exact ⟨h, h', refused, ((div_eq_underflow_iff h h').1 refused).1⟩

/-- With sixteen digits one divided by 970000000000000000000000000 is not refused, because it is
    stored as ten last places. -/
theorem not_forall_div_eq_underflow_iff :
    ¬ ∀ (precision : Precision) (left right : Decimal), left.toRat ≠ 0 → right.toRat ≠ 0 →
      (precision.div left right = .error .underflow ↔
        ¬ IsPlaced (left.toRat / right.toRat) ∧
          |left.toRat / right.toRat| < 10 ^ (precision.digits - 29 : ℤ)) := by
  intro exactly
  have magnitude : |Decimal.toRat ⟨false, 1, 0, by decide, by decide⟩ /
      Decimal.toRat ⟨false, 970000000000000000000000000, 0, by decide, by decide⟩| =
        1 / 970000000000000000000000000 := by
    rw [abs_div, Decimal.abs_toRat, Decimal.abs_toRat]
    norm_num
  have given : decimal64.div ⟨false, 1, 0, by decide, by decide⟩
      ⟨false, 970000000000000000000000000, 0, by decide, by decide⟩ =
        .ok ⟨false, 1, 27, by decide, by decide⟩ := by decide +kernel
  have refused := (exactly decimal64 ⟨false, 1, 0, by decide, by decide⟩
    ⟨false, 970000000000000000000000000, 0, by decide, by decide⟩
    (mt Decimal.toRat_eq_zero_iff.1 (by decide))
    (mt Decimal.toRat_eq_zero_iff.1 (by decide))).2
  rw [given, magnitude] at refused
  refine absurd (refused ⟨?_, by norm_num [decimal64]⟩) (by simp)
  rintro ⟨whole, placed⟩
  rw [magnitude, maxScale, div_eq_div_iff (by norm_num) (by norm_num)] at placed
  rw [one_mul] at placed
  have product : 10 ^ 28 = whole * 970000000000000000000000000 := by exact_mod_cast placed
  omega

end Precision

end Reckoner
