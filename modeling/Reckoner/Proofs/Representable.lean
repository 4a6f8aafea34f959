import Reckoner.Proofs.ExactOperations
import Reckoner.Proofs.Likeness

/-! # Results that a decimal denotes

Decimals for one number are normalized to the same decimal, so rounding does not tell them apart. If
the exact result of an operation is denoted by some decimal at all, then one that denotes it is
stored, however many digits it has, and it is not refused. What the operation gives is what rounding
the exact result gives.
-/

namespace Reckoner

namespace Decimal

variable {first second : Decimal}

theorem toRat_nonneg {value : Decimal} (sign : value.negative = false) : 0 ≤ value.toRat := by
  rw [toRat_eq, sign, signFactor, if_neg Bool.false_ne_true, one_mul]
  positivity

theorem negative_normalize (value : Decimal) :
    value.normalize.negative = decide (value.toRat < 0) := by
  show (value.negative && value.mantissa != 0) = _
  rw [Bool.eq_iff_iff, Bool.and_eq_true, bne_iff_ne, decide_eq_true_eq, ne_eq,
    ← toRat_eq_zero_iff]
  cases sign : value.negative with
  | false => simp [toRat_nonneg sign]
  | true =>
    have nonpos : value.toRat ≤ 0 := by
      rw [toRat_eq, sign, signFactor, if_pos rfl, neg_one_mul]
      exact neg_nonpos.2 (by positivity)
    simp [lt_iff_le_and_ne, nonpos]

theorem eq_of_toRat_eq (same : first.toRat = second.toRat)
    (sign : first.negative = second.negative) (scale : first.scale = second.scale) :
    first = second := by
  have magnitude : |first.toRat| = |second.toRat| := by rw [same]
  rw [abs_toRat, abs_toRat, scale, div_left_inj' (by positivity)] at magnitude
  have mantissa : first.mantissa = second.mantissa := by exact_mod_cast magnitude
  cases first
  cases second
  simp only [mk.injEq]
  exact ⟨sign, mantissa, scale⟩

/-- A number is written in one way without superfluous zeros and signs. -/
theorem normalize_eq_normalize_iff :
    first.normalize = second.normalize ↔ first.toRat = second.toRat := by
  constructor
  · intro same
    rw [← toRat_normalize first, same, toRat_normalize]
  · intro same
    have least := first.isLeast_scale_normalize
    rw [same] at least
    refine eq_of_toRat_eq ?_ ?_ (least.unique second.isLeast_scale_normalize)
    · rw [toRat_normalize, toRat_normalize, same]
    · rw [negative_normalize, negative_normalize, same]

theorem normalize_eq_self_iff {value : Decimal} :
    value.normalize = value ↔
      IsLeast (placesFor value.toRat) value.scale ∧
        (value.negative = true → value.toRat < 0) := by
  constructor
  · intro normalized
    have least := value.isLeast_scale_normalize
    have sign := value.negative_normalize
    rw [normalized] at least sign
    exact ⟨least, fun negative => by simpa [sign] using negative⟩
  · rintro ⟨least, sign⟩
    refine eq_of_toRat_eq value.toRat_normalize ?_ (value.isLeast_scale_normalize.unique least)
    rw [negative_normalize]
    cases written : value.negative with
    | true => exact decide_eq_true (sign written)
    | false => exact decide_eq_false (toRat_nonneg written).not_gt

end Decimal

namespace Precision

variable {precision : Precision} {left right : Decimal}

theorem round_eq_of_toRat_eq {first second : Decimal} (h : first.toRat = second.toRat) :
    precision.round first = precision.round second :=
  precision.round_congr (Decimal.normalize_eq_normalize_iff.2 h)

/-- Where some decimal denotes the exact result, an operation rounds it and does nothing else. -/
theorem apply_eq_round {operator : Operator} {exact : Decimal}
    (divisor : operator = .divide → right.toRat ≠ 0)
    (same : exact.toRat = operator.exact left.toRat right.toRat) :
    precision.apply operator left right = precision.round exact := by
  obtain ⟨stored, made, denotes⟩ := operator.exists_stored?_of_toRat divisor same.symm
  have placed : IsPlaced (operator.exact left.toRat right.toRat) := same ▸ exact.isPlaced_toRat
  have large := Operator.isTooSmall_eq_false precision divisor placed made denotes
  have accepted : ¬ (operator = .divide ∧ right.isZero = true) := fun refused =>
    divisor refused.1 (Decimal.isZero_iff.1 refused.2)
  rw [apply_eq, if_neg accepted, made]
  dsimp only
  rw [large, if_neg Bool.false_ne_true]
  exact round_eq_of_toRat_eq (denotes.trans same.symm)

/-- If the exact result of an operation is a whole number with room in a mantissa, over a power of
    ten that a scale can give, then some decimal denotes it, and the operation gives what rounding
    gives for every such decimal. It fails only where that rounding overflows. -/
theorem apply_of_representable (precision : Precision) (operator : Operator)
    (divisor : operator = .divide → right.toRat ≠ 0) {whole : ℤ} {scale : ℕ}
    (room : |whole| < mantissaLimit) (shallow : scale ≤ maxScale)
    (written : operator.exact left.toRat right.toRat = whole / 10 ^ scale) :
    (∃ exact : Decimal, exact.toRat = operator.exact left.toRat right.toRat) ∧
      ∀ exact : Decimal, exact.toRat = operator.exact left.toRat right.toRat →
        precision.apply operator left right = precision.round exact ∧
        ∀ error, precision.apply operator left right = .error error →
          error = .overflow ∧ precision.round exact = .error .overflow := by
  constructor
  · have bound : whole.natAbs < mantissaLimit := by
      rw [← Int.ofNat_lt, Int.natCast_natAbs]
      exact room
    refine ⟨⟨decide (whole < 0), whole.natAbs, scale, bound, shallow⟩, ?_⟩
    rw [written, Decimal.toRat_eq, ← mul_div_assoc, Decimal.signFactor_mul_natAbs]
  · intro exact same
    have rounds : precision.apply operator left right = precision.round exact :=
      apply_eq_round divisor same
    refine ⟨rounds, fun error refused => ?_⟩
    rw [rounds] at refused
    obtain rfl := error_of_round refused
    exact ⟨rfl, refused⟩

/-- One last place is the product of factors with twenty-nine places in all. With sixteen digits
    asked for it has only one, and is kept since it is exact. -/
theorem last_place_of_product :
    let left : Decimal := ⟨false, 5, 28, by decide, by decide⟩
    let right : Decimal := ⟨true, 2, 1, by decide, by decide⟩
    let lastPlace : Decimal := ⟨true, 1, 28, by decide, by decide⟩
    (Operator.multiply = .divide → right.toRat ≠ 0) ∧ |(-1 : ℤ)| < mantissaLimit ∧
      28 ≤ maxScale ∧ Operator.multiply.exact left.toRat right.toRat = (-1 : ℤ) / 10 ^ 28 ∧
      decimal64.apply .multiply left right = decimal64.round lastPlace ∧
      decimal64.round lastPlace = .ok lastPlace := by
  intro left right lastPlace
  have divisor : Operator.multiply = .divide → right.toRat ≠ 0 := nofun
  have room : |(-1 : ℤ)| < mantissaLimit := by decide
  have shallow : 28 ≤ maxScale := by decide
  have written : Operator.multiply.exact left.toRat right.toRat = (-1 : ℤ) / 10 ^ 28 := by
    norm_num [left, right, Operator.exact, Decimal.toRat_eq, signFactor]
  have denotes : lastPlace.toRat = Operator.multiply.exact left.toRat right.toRat := by
    rw [written]
    norm_num [lastPlace, Decimal.toRat_eq, signFactor]
  obtain ⟨-, rounds⟩ := apply_of_representable decimal64 .multiply divisor room shallow written
  exact ⟨divisor, room, shallow, written, (rounds _ denotes).1, by decide +kernel⟩

end Precision

end Reckoner
