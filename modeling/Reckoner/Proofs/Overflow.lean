import Reckoner.Proofs.LiteralNumbers
import Reckoner.Proofs.Neighbours

/-! # Overflow

There is no room for a number if it is too large when it is rounded to a whole one for storing, or
if what is stored is rounded to one that is too large. Both roundings keep the order of numbers and
leave the largest one alone that has room and no more digits than are kept. So up to this number
nothing overflows, although an overflow may come from either rounding, and each has its own bound
above it.
-/

namespace Reckoner

theorem RoundingMode.toInt_abs_toRat_lt (mode : RoundingMode) (value : Decimal) :
    mode.toInt |value.toRat| < mantissaLimit := by
  have whole := toInt_lt_of_le le_rfl (Nat.zero_le _) (mode.toInt_abs_toRat_mul_lt value)
  rwa [pow_zero, mul_one] at whole

namespace Decimal

variable {negative : Bool} {dividend divisor places : Nat} {left right : Decimal} {x : ℚ}

theorem nearest?_eq_none_iff (positive : 0 < divisor)
    (same : signFactor negative * (dividend / divisor) = x) :
    nearest? negative dividend divisor places = none ↔
      mantissaLimit ≤ RoundingMode.halfEven.toInt |x| := by
  induction places with
  | zero =>
    have whole := toInt_abs_mul_eq_divide positive same 0
    rw [pow_zero, mul_one, tenPow_zero, Nat.mul_one] at whole
    rw [nearest?, ofParts?_eq_none_iff, whole, Int.ofNat_le]
    exact or_iff_left (Nat.not_lt_zero _)
  | succ places ih =>
    rw [nearest?]
    split
    · next made =>
      have fits := toInt_lt_of_ofParts? positive same made
      have whole := RoundingMode.toInt_lt_of_le le_rfl (Nat.zero_le _) fits
      rw [pow_zero, mul_one] at whole
      exact iff_of_false (Option.some_ne_none _) whole.not_ge
    · exact ih

theorem some_eq_none_iff (value : Decimal) :
    some value = none ↔ mantissaLimit ≤ RoundingMode.halfEven.toInt |value.toRat| :=
  iff_of_false (Option.some_ne_none value)
    (RoundingMode.halfEven.toInt_abs_toRat_lt value).not_ge

theorem add?_eq_none_iff :
    left.add? right = none ↔
      mantissaLimit ≤ RoundingMode.halfEven.toInt |left.toRat + right.toRat| := by
  unfold add?
  split
  · next zero =>
    rw [isZero_iff.1 zero, zero_add]
    exact some_eq_none_iff right
  split
  · next zero =>
    rw [isZero_iff.1 zero, add_zero]
    exact some_eq_none_iff left
  · exact nearest?_eq_none_iff (tenPow_pos _) (toRat_add_eq left right)

theorem mul?_eq_none_iff :
    left.mul? right = none ↔
      mantissaLimit ≤ RoundingMode.halfEven.toInt |left.toRat * right.toRat| := by
  unfold mul?
  split
  · next vanishes =>
    rw [toRat_mul_of_isZero vanishes]
    exact some_eq_none_iff zero
  · exact nearest?_eq_none_iff (tenPow_pos _) (toRat_mul_eq left right)

theorem div?_eq_none_iff (divisor : right.toRat ≠ 0) :
    left.div? right = none ↔
      mantissaLimit ≤ RoundingMode.halfEven.toInt |left.toRat / right.toRat| := by
  by_cases vanishes : left.toRat = 0
  · rw [div?, if_pos (isZero_iff.2 vanishes), vanishes, zero_div, ← toRat_zero]
    exact some_eq_none_iff zero
  rcases div?_cases vanishes divisor with
    ⟨quotient, made, same⟩ | ⟨negative, dividend, divisor, positive, same, nearest⟩
  · rw [made, ← same]
    exact some_eq_none_iff quotient
  · rw [nearest, Option.map_eq_none_iff]
    exact nearest?_eq_none_iff positive same

end Decimal

namespace Operator

variable {operator : Operator} {left right stored : Decimal} {precision : Precision}

theorem stored?_eq_none_iff (divisor : operator = .divide → right.toRat ≠ 0) :
    operator.stored? left right = none ↔
      mantissaLimit ≤
        RoundingMode.halfEven.toInt |operator.exact left.toRat right.toRat| := by
  cases operator with
  | add => exact Decimal.add?_eq_none_iff
  | subtract =>
    rw [exact, Decimal.toRat_sub_eq]
    exact Decimal.add?_eq_none_iff
  | multiply => exact Decimal.mul?_eq_none_iff
  | divide => exact Decimal.div?_eq_none_iff (divisor rfl)

theorem digitCount_le_of_isTooSmall
    (small : operator.isTooSmall precision left right stored = true) :
    stored.normalize.digitCount ≤ precision.digits := by
  have cause : stored.isZero = true ∨ precision.isShort stored = true := by
    cases operator <;> grind [isTooSmall]
  rcases cause with vanishes | short
  · rw [Decimal.normalize_of_isZero vanishes, Decimal.digitCount, Decimal.zero, Digits.count]
    exact Nat.zero_le _
  · rw [Precision.isShort, Bool.and_eq_true, decide_eq_true_eq, decide_eq_true_eq] at short
    exact short.2.le

end Operator

namespace Precision

variable {precision : Precision} {mode : RoundingMode} {x bound : ℚ}

/-- Rounding a decimal fails exactly where there is no room for what the number is rounded to. -/
theorem round_eq_overflow_iff {value : Decimal} :
    precision.round value = .error .overflow ↔
      mantissaLimit ≤ |precision.rounded value.toRat| := by
  cases rounds : precision.round value with
  | ok result =>
    rw [← precision.toRat_of_round rounds]
    exact iff_of_false (by simp) result.abs_toRat_lt.not_ge
  | error error =>
    obtain rfl := error_of_round rounds
    refine iff_of_true rfl ?_
    simp only [round] at rounds
    rw [← value.toRat_normalize]
    generalize value.normalize = value at rounds
    split at rounds
    · cases rounds
    next long =>
    rw [not_le] at long
    split at rounds
    · cases rounds
    next refused =>
    have kept := precision.divide_le_tenPow long
    have widest := tenPow_le_tenPow precision.digits_le
    have room : tenPow maxDigits < mantissaLimit := by decide
    have shallow := value.scale_le
    rw [precision.rounded_toRat_of_lt_digitCount long]
    generalize value.digitCount - precision.digits = dropped at kept refused ⊢
    generalize precision.rounding.divide _ _ _ = digits at kept refused ⊢
    rw [abs_mul, abs_signFactor, one_mul, abs_of_nonneg (by positivity)]
    -- A scale only goes down, and only zeros put back before the point can leave the room there is.
    rcases Decimal.ofParts?_eq_none_iff.1 refused with wide | deep
    · rcases Nat.le_total value.scale dropped with whole | placed
      · rw [Nat.sub_eq_zero_of_le whole, pow_zero, div_one]
        exact_mod_cast wide
      · rw [Nat.sub_eq_zero_of_le placed, tenPow_zero] at wide
        omega
    · omega

theorem exists_round_of_lt {value : Decimal}
    (room : |precision.rounded value.toRat| < mantissaLimit) :
    ∃ result, precision.round value = .ok result ∧
      result.toRat = precision.rounded value.toRat := by
  cases rounds : precision.round value with
  | ok result => exact ⟨result, rfl, precision.toRat_of_round rounds⟩
  | error error =>
    obtain rfl := error_of_round rounds
    exact absurd (round_eq_overflow_iff.1 rounds) room.not_ge

/-- Whether there is no room for a number that is first stored by a mode. -/
def Overflows (precision : Precision) (mode : RoundingMode) (x : ℚ) : Prop :=
  mantissaLimit ≤ mode.toInt |x| ∨ mantissaLimit ≤ |precision.rounded (mode.fit x)|

theorem round_eq_overflow_iff_of_fit {stored : Decimal} (same : stored.toRat = mode.fit x)
    (room : ¬ mantissaLimit ≤ mode.toInt |x|) :
    precision.round stored = .error .overflow ↔ precision.Overflows mode x := by
  rw [Overflows, or_iff_right room, ← same, round_eq_overflow_iff]

/-- An operation overflows exactly if there is no room for its exact result. -/
theorem apply_eq_overflow_iff {operator : Operator} {left right : Decimal}
    (divisor : operator = .divide → right.toRat ≠ 0) :
    precision.apply operator left right = .error .overflow ↔
      precision.Overflows .halfEven (operator.exact left.toRat right.toRat) := by
  have accepted : ¬ (operator = .divide ∧ right.isZero = true) := fun refused =>
    divisor refused.1 (Decimal.isZero_iff.1 refused.2)
  rw [apply_eq, if_neg accepted]
  cases made : operator.stored? left right with
  | none => exact iff_of_true rfl (.inl ((Operator.stored?_eq_none_iff divisor).1 made))
  | some stored =>
    have room := mt (Operator.stored?_eq_none_iff divisor).2 (made ▸ Option.some_ne_none _)
    rw [← round_eq_overflow_iff_of_fit (Operator.toRat_stored? divisor made) room]
    dsimp only
    split
    · next small =>
      rw [round, if_pos (Operator.digitCount_le_of_isTooSmall small)]
      exact iff_of_false (by simp) (by simp)
    · rfl

/-! ## The largest number -/

/-- The largest number that has room in a mantissa and no more digits than are kept. -/
def largest (precision : Precision) : Decimal where
  negative := false
  mantissa := mantissaLimit / tenPow (maxDigits - precision.digits + 1) *
    tenPow (maxDigits - precision.digits + 1)
  scale := 0
  mantissa_lt := by
    have le := Nat.div_mul_le_self mantissaLimit (tenPow (maxDigits - precision.digits + 1))
    rw [tenPow_succ, Nat.mul_left_comm] at le ⊢
    unfold mantissaLimit at *
    omega
  scale_le := Nat.zero_le _

theorem unit_mantissaLimit (precision : Precision) :
    precision.unit mantissaLimit = (tenPow (maxDigits - precision.digits + 1) : ℕ) := by
  have first : Int.log 10 |(mantissaLimit : ℚ)| = 28 :=
    log_eq_of_bounds (by norm_num [mantissaLimit]) (by norm_num [mantissaLimit])
  have digits := precision.digits_le
  rw [unit, first, natCast_tenPow, ← zpow_natCast]
  congr 1
  unfold maxDigits at *
  omega

theorem toRat_largest (precision : Precision) :
    precision.largest.toRat =
      ⌊(mantissaLimit : ℚ) / precision.unit mantissaLimit⌋ * precision.unit mantissaLimit := by
  rw [unit_mantissaLimit, Rat.floor_natCast_div_natCast, ← Int.natCast_div, Int.cast_natCast,
    Decimal.toRat_eq]
  simp [largest, signFactor]

theorem hasDigits_largest (precision : Precision) :
    precision.HasDigits precision.largest.toRat := by
  refine ⟨mantissaLimit / tenPow (maxDigits - precision.digits + 1),
    (maxDigits - precision.digits + 1 : ℕ), ?_, ?_⟩
  · rw [Nat.div_lt_iff_lt_mul (tenPow_pos _), ← tenPow_eq_pow, ← tenPow_add, ← Nat.add_assoc,
      Nat.add_sub_cancel' precision.digits_le]
    decide
  · rw [Decimal.abs_toRat, zpow_natCast, ← natCast_tenPow]
    simp [largest]

theorem isGreatest_largest (precision : Precision) :
    IsGreatest {y : ℚ | precision.HasDigits y ∧ y < mantissaLimit} precision.largest.toRat := by
  refine ⟨⟨precision.hasDigits_largest, ?_⟩, fun y ⟨few, less⟩ => ?_⟩
  · exact (le_abs_self _).trans_lt precision.largest.abs_toRat_lt
  · rw [toRat_largest]
    exact few.le_floor (by norm_num [mantissaLimit]) less.le

theorem keeps_largest (precision : Precision) : precision.Keeps precision.largest :=
  keeps_of_holds ⟨precision.hasDigits_largest, precision.largest.isPlaced_toRat,
    precision.largest.abs_toRat_lt⟩

theorem one_le_toRat_largest (precision : Precision) : 1 ≤ precision.largest.toRat := by
  refine precision.isGreatest_largest.2 ⟨⟨1, 0, ?_, by simp⟩, by norm_num [mantissaLimit]⟩
  exact Nat.one_lt_pow precision.digits_pos.ne' (by decide)

/-! ## No overflow up to the largest number -/

theorem abs_le_of_monotone {f : ℚ → ℚ} (mono : Monotone f) (low : f (-bound) = -bound)
    (high : f bound = bound) (le : |x| ≤ bound) : |f x| ≤ bound := by
  obtain ⟨below, above⟩ := abs_le.1 le
  exact abs_le.2 ⟨low.ge.trans (mono below), (mono above).trans high.le⟩

theorem rounded_toRat_of_keeps {value : Decimal} (h : precision.Keeps value) :
    precision.rounded value.toRat = value.toRat := by
  rw [← precision.toRat_of_round (round_of_keeps h), value.toRat_normalize]

theorem abs_rounded_lt (le : |x| ≤ precision.largest.toRat) :
    |precision.rounded x| < mantissaLimit := by
  have kept := precision.keeps_largest
  have low : precision.rounded (-precision.largest.toRat) = -precision.largest.toRat := by
    rw [← Decimal.toRat_neg]
    exact rounded_toRat_of_keeps (kept.on .minus)
  calc |precision.rounded x|
      ≤ precision.largest.toRat :=
        abs_le_of_monotone precision.rounded_mono low (rounded_toRat_of_keeps kept) le
    _ < mantissaLimit := precision.isGreatest_largest.1.2

theorem not_overflows (nearest : mode.IsNearest) (le : |x| ≤ precision.largest.toRat) :
    ¬ precision.Overflows mode x := by
  rintro (wide | wide)
  · have whole := mode.toInt_mono (le.trans (le_abs_self _))
    exact absurd wide (whole.trans_lt (mode.toInt_abs_toRat_lt precision.largest)).not_ge
  · have same := mode.fit_toRat precision.largest
    have low : mode.fit (-precision.largest.toRat) = -precision.largest.toRat := by
      rw [nearest.fit_neg, same]
    exact absurd wide (abs_rounded_lt (abs_le_of_monotone nearest.fit_mono low same le)).not_ge

theorem ofLiteral_eq_overflow_iff {literal : Literal} :
    precision.ofLiteral literal = .error .overflow ↔
      precision.Overflows .halfUp literal.toRat := by
  rw [ofLiteral]
  split
  · next small =>
    have less := ((Literal.isTooSmall_iff precision.digits_le).1 small).2
    have power : (10 : ℚ) ^ (precision.digits - 29 : ℤ) ≤ 1 := by
      have digits := precision.digits_le
      unfold maxDigits at digits
      exact zpow_le_one_of_nonpos₀ (by norm_num) (by omega)
    have le : |literal.toRat| ≤ precision.largest.toRat := by
      rw [abs_of_nonneg literal.toRat_nonneg]
      exact (less.le.trans power).trans precision.one_le_toRat_largest
    exact iff_of_false (by simp) (not_overflows trivial le)
  · have none := literal.stored?_eq_none_iff
    rw [← abs_of_nonneg literal.toRat_nonneg] at none
    cases made : literal.stored? with
    | none => exact iff_of_true rfl (.inl (none.1 made))
    | some stored =>
      have room := mt none.2 (made ▸ Option.some_ne_none _)
      rw [← round_eq_overflow_iff_of_fit (Literal.toRat_stored? made) room]

/-- Nothing overflows where the exact number is no larger than the largest one that has room and no
    more digits than are kept, whatever the scales, the length of a literal and the mode. -/
theorem no_overflow_up_to_largest (precision : Precision) :
    IsGreatest {y : ℚ | precision.HasDigits y ∧ y < mantissaLimit} precision.largest.toRat ∧
      (∀ value : Decimal, |value.toRat| ≤ precision.largest.toRat →
        precision.round value ≠ .error .overflow) ∧
      (∀ literal : Literal, literal.toRat ≤ precision.largest.toRat →
        precision.parse (String.ofList literal.chars) ≠ .error .overflow) ∧
      ∀ (operator : Operator) (left right : Decimal), (operator = .divide → right.toRat ≠ 0) →
        |operator.exact left.toRat right.toRat| ≤ precision.largest.toRat →
        precision.apply operator left right ≠ .error .overflow := by
  refine ⟨precision.isGreatest_largest, fun value le => ?_, fun literal le => ?_,
    fun operator left right divisor le => ?_⟩
  · rw [ne_eq, round_eq_overflow_iff]
    exact (abs_rounded_lt le).not_ge
  · rw [parse_ofList_chars, ne_eq, ofLiteral_eq_overflow_iff]
    rw [← abs_of_nonneg literal.toRat_nonneg] at le
    exact not_overflows trivial le
  · rw [ne_eq, apply_eq_overflow_iff divisor]
    exact not_overflows trivial le

/-- Away from zero a sum just below the largest number is stored and rounded as that number, and the
    next whole number above it overflows although it has room. -/
theorem sums_around_largest :
    let precision : Precision := ⟨28, .up, by decide, by decide⟩
    let below : Decimal := ⟨false, 79228162514264337593543950329, 0, by decide, by decide⟩
    let fraction : Decimal := ⟨false, 7, 1, by decide, by decide⟩
    let two : Decimal := ⟨false, 2, 0, by decide, by decide⟩
    |Operator.add.exact below.toRat fraction.toRat| ≤ precision.largest.toRat ∧
      precision.apply .add below fraction ≠ .error .overflow ∧
      precision.apply .add below fraction = .ok precision.largest ∧
      precision.apply .add below two = .error .overflow := by
  intro precision below fraction two
  have le : |Operator.add.exact below.toRat fraction.toRat| ≤ precision.largest.toRat := by
    decide +kernel
  obtain ⟨-, -, -, operations⟩ := no_overflow_up_to_largest precision
  exact ⟨le, operations .add below fraction nofun le, by decide +kernel, by decide +kernel⟩

end Precision

end Reckoner
