import Reckoner.Proofs.Overflow

/-! # Mirror images

On the other side of zero everything is computed alike. The digits of a sum, product or quotient,
the places that are given up for them and the checks of what is too small do not depend on signs;
only the modes that go to one end of the numbers do, and these two are exchanged. So an operation on
operands whose signs are changed gives the number with the other sign, or fails with the same error.
Zeros have to be left out of the comparison of signs: a sum that vanishes has no sign whatever the
signs of its operands, and neither has a product with zero.
-/

namespace Reckoner

namespace Decimal

variable {change leftChange rightChange : Bool} {value turned left right left' right' : Decimal}

/-- Whether a decimal has the digits of another one at the same places, and its sign changed or
    kept. The sign of a zero does not matter. -/
structure Turned (change : Bool) (value turned : Decimal) : Prop where
  mantissa : turned.mantissa = value.mantissa
  scale : turned.scale = value.scale
  negative : value.mantissa ≠ 0 → turned.negative = (value.negative != change)

namespace Turned

theorem refl (value : Decimal) : value.Turned false value :=
  ⟨rfl, rfl, fun _ => (Bool.bne_false _).symm⟩

theorem opposite (value : Decimal) : value.Turned true (-value) :=
  ⟨rfl, rfl, fun _ => (Bool.bne_true _).symm⟩

theorem neg (h : value.Turned change turned) : value.neg.Turned change turned.neg where
  mantissa := h.mantissa
  scale := h.scale
  negative nonzero := by
    show (!turned.negative) = ((!value.negative) != change)
    rw [h.negative nonzero]
    cases value.negative <;> cases change <;> rfl

theorem normalize (h : value.Turned change turned) :
    value.normalize.Turned change turned.normalize where
  mantissa := by
    show (dropZeros turned.mantissa turned.scale).1 = (dropZeros value.mantissa value.scale).1
    rw [h.mantissa, h.scale]
  scale := by
    show (dropZeros turned.mantissa turned.scale).2 = (dropZeros value.mantissa value.scale).2
    rw [h.mantissa, h.scale]
  negative nonzero := by
    have least : value.normalize.mantissa ≤ value.mantissa := dropZeros_fst_le ..
    have nonzero : value.mantissa ≠ 0 := by omega
    show (turned.negative && turned.mantissa != 0) =
      ((value.negative && value.mantissa != 0) != change)
    rw [h.mantissa, h.negative nonzero, bne_iff_ne.2 nonzero, Bool.and_true, Bool.and_true]

theorem isZero_eq (h : value.Turned change turned) : turned.isZero = value.isZero := by
  rw [isZero, isZero, h.mantissa]

theorem isShort_eq (h : value.Turned change turned) (precision : Precision) :
    precision.mirror.isShort turned = precision.isShort value := by
  have digits : turned.normalize.digitCount = value.normalize.digitCount := by
    rw [digitCount, digitCount, h.normalize.mantissa]
  rw [Precision.isShort, Precision.isShort, h.scale, digits]
  rfl

theorem signed_eq (h : value.Turned change turned) :
    turned.signed = (if change then -1 else 1) * value.signed := by
  by_cases zero : value.mantissa = 0
  · simp [signed, h.mantissa, zero]
  · rw [signed, signed, h.negative zero, h.mantissa]
    cases value.negative <;> cases change <;> simp

theorem signedAt_eq (h : value.Turned change turned) (scale : Nat) :
    turned.signedAt scale = (if change then -1 else 1) * value.signedAt scale := by
  rw [signedAt, signedAt, h.signed_eq, h.scale, Int.mul_assoc]

theorem toRat_eq (h : value.Turned change turned) :
    turned.toRat = signFactor change * value.toRat := by
  rw [← mul_left_inj' (pow_ne_zero value.scale (by norm_num : (10 : ℚ) ≠ 0)), mul_assoc,
    toRat_mul_pow, ← h.scale, toRat_mul_pow, h.signed_eq]
  cases change <;> simp [signFactor]

theorem isExactProduct_eq (lefts : left.Turned leftChange left')
    (rights : right.Turned rightChange right') :
    left'.isExactProduct right' = left.isExactProduct right := by
  have scale : left'.productScale right' = left.productScale right := by
    simp only [productScale, lefts.mantissa, lefts.scale, rights.mantissa, rights.scale]
  rw [isExactProduct, isExactProduct, scale]

end Turned

/-! ## Stored results -/

section Parts

variable {negative negative' : Bool}

theorem ofParts?_turned {mantissa : Nat} (scale : Nat)
    (sign : mantissa ≠ 0 → negative' = (negative != change)) :
    Option.Rel (Turned change) (ofParts? negative mantissa scale)
      (ofParts? negative' mantissa scale) := by
  unfold ofParts?
  split
  · exact .some ⟨rfl, rfl, sign⟩
  · exact .none

/-- Ties go to the even neighbour on both sides of zero, so the same places are given up. -/
theorem nearest?_turned (dividend divisor places : Nat)
    (sign : dividend ≠ 0 → negative' = (negative != change)) :
    Option.Rel (Turned change) (nearest? negative dividend divisor places)
      (nearest? negative' dividend divisor places) := by
  have stored (power scale : Nat) :
      Option.Rel (Turned change)
        (ofParts? negative (RoundingMode.halfEven.divide negative (dividend * power) divisor) scale)
        (ofParts? negative'
          (RoundingMode.halfEven.divide negative' (dividend * power) divisor) scale) := by
    refine ofParts?_turned scale fun nonzero => sign ?_
    rintro rfl
    simp [RoundingMode.divide, RoundingMode.carries] at nonzero
  induction places with
  | zero =>
    have whole := stored 1 0
    rwa [Nat.mul_one] at whole
  | succ places ih =>
    have top := stored (tenPow (places + 1)) (places + 1)
    rw [nearest?, nearest?]
    generalize ofParts? negative _ _ = first, ofParts? negative' _ _ = second at top ⊢
    cases top with
    | some turns => exact .some turns
    | none => exact ih

end Parts

theorem add?_turned (lefts : left.Turned change left') (rights : right.Turned change right') :
    Option.Rel (Turned change) (left.add? right) (left'.add? right') := by
  unfold add?
  rw [lefts.isZero_eq, rights.isZero_eq]
  split
  · exact .some rights
  split
  · exact .some lefts
  · dsimp only
    rw [lefts.scale, rights.scale, lefts.signedAt_eq, rights.signedAt_eq, ← Int.mul_add]
    generalize left.signedAt _ + right.signedAt _ = sum
    cases change with
    | false =>
      rw [if_neg Bool.false_ne_true, Int.one_mul]
      exact nearest?_turned _ _ _ fun _ => (Bool.bne_false _).symm
    | true =>
      rw [if_pos rfl, Int.neg_one_mul, Int.natAbs_neg]
      refine nearest?_turned _ _ _ fun nonzero => ?_
      rw [Bool.bne_true, ← decide_not, decide_eq_decide]
      omega

theorem sub?_turned (lefts : left.Turned change left') (rights : right.Turned change right') :
    Option.Rel (Turned change) (left.sub? right) (left'.sub? right') :=
  add?_turned lefts rights.neg

section Factors

variable (lefts : left.Turned leftChange left') (rights : right.Turned rightChange right')

include lefts rights

theorem Turned.negative_bne (nonzero : left.mantissa ≠ 0) (nonzero' : right.mantissa ≠ 0) :
    (left'.negative != right'.negative) =
      ((left.negative != right.negative) != (leftChange != rightChange)) := by
  rw [lefts.negative nonzero, rights.negative nonzero']
  cases left.negative <;> cases right.negative <;> cases leftChange <;> cases rightChange <;> rfl

theorem mul?_turned :
    Option.Rel (Turned (leftChange != rightChange)) (left.mul? right) (left'.mul? right') := by
  unfold mul?
  rw [lefts.isZero_eq, rights.isZero_eq]
  split
  · exact .some ⟨rfl, rfl, absurd rfl⟩
  · dsimp only
    rw [lefts.mantissa, lefts.scale, rights.mantissa, rights.scale]
    exact nearest?_turned _ _ _ fun nonzero =>
      lefts.negative_bne rights (Nat.ne_zero_of_mul_ne_zero_left nonzero)
        (Nat.ne_zero_of_mul_ne_zero_right nonzero)

theorem div?_turned (divisor : right.mantissa ≠ 0) :
    Option.Rel (Turned (leftChange != rightChange)) (left.div? right) (left'.div? right') := by
  unfold div?
  dsimp only
  rw [lefts.isZero_eq, lefts.mantissa, lefts.scale, rights.mantissa, rights.scale]
  split
  · exact .some ⟨rfl, rfl, absurd rfl⟩
  next dividend =>
  have nonzero : left.mantissa ≠ 0 := by simpa [isZero] using dividend
  have sign := lefts.negative_bne rights nonzero divisor
  split
  · exact ofParts?_turned _ fun _ => sign
  · have stored := nearest?_turned (left.mantissa * tenPow right.scale)
      (right.mantissa * tenPow left.scale) maxScale fun _ => sign
    generalize nearest? (left.negative != right.negative) _ _ _ = first,
      nearest? (left'.negative != right'.negative) _ _ _ = second at stored ⊢
    cases stored with
    | some turns => exact .some turns.normalize
    | none => exact .none

/-- The check that multiplies back compares a turned product with a turned dividend. -/
theorem Turned.isExactQuotient_eq {quotient quotient' : Decimal}
    (quotients : quotient.Turned (leftChange != rightChange) quotient') :
    left'.isExactQuotient right' quotient' = left.isExactQuotient right quotient := by
  have twice : ((leftChange != rightChange) != rightChange) = leftChange := by
    cases leftChange <;> cases rightChange <;> rfl
  have products := mul?_turned quotients rights
  rw [isExactQuotient, isExactQuotient, quotients.isExactProduct_eq rights]
  rw [twice] at products
  generalize quotient.mul? right = first, quotient'.mul? right' = second at products ⊢
  cases products with
  | none => rfl
  | some turns =>
    have nonzero : signFactor leftChange ≠ 0 := by
      rw [← abs_pos, abs_signFactor]
      exact one_pos
    simp only [turns.toRat_eq, lefts.toRat_eq, mul_right_inj' nonzero]

end Factors

end Decimal

/-- Whether two outcomes are the same error, or numbers that differ in their signs only. -/
def IsMirrorImage (outcome image : Except ArithmeticError Decimal) : Prop :=
  image.map Decimal.toRat = outcome.map fun result => -result.toRat

/-- Whether a result changes its sign where the signs of the operands are changed like this. -/
def Operator.turns (operator : Operator) (leftChange rightChange : Bool) : Bool :=
  match operator with
  | .add | .subtract => leftChange && rightChange
  | .multiply | .divide => leftChange != rightChange

namespace Precision

variable (precision : Precision) {leftChange rightChange : Bool}
  {value turned left right left' right' : Decimal}

theorem rounded_mirror_neg (x : ℚ) : precision.mirror.rounded (-x) = -precision.rounded x := by
  rw [rounded_eq_neg precision x, neg_neg]

theorem round_mirror (h : value.Turned true turned) :
    IsMirrorImage (precision.round value) (precision.mirror.round turned) := by
  have opposite : turned.toRat = -value.toRat := by
    rw [h.toRat_eq, signFactor, if_pos rfl, neg_one_mul]
  have mirrored : precision.mirror.rounded turned.toRat = -precision.rounded value.toRat := by
    rw [opposite, rounded_mirror_neg]
  rcases lt_or_ge |precision.rounded value.toRat| mantissaLimit with room | large
  · obtain ⟨result, rounds, same⟩ := exists_round_of_lt room
    rw [← abs_neg, ← mirrored] at room
    obtain ⟨result', rounds', same'⟩ := exists_round_of_lt room
    rw [IsMirrorImage, rounds, rounds', Except.map, Except.map, same, same', mirrored]
  · rw [round_eq_overflow_iff.2 large]
    rw [← abs_neg, ← mirrored] at large
    rw [round_eq_overflow_iff.2 large]
    rfl

/-- An operation whose result changes its sign does so in the mirrored working precision. -/
theorem apply_mirror {operator : Operator} (turns : operator.turns leftChange rightChange = true)
    (lefts : left.Turned leftChange left') (rights : right.Turned rightChange right') :
    IsMirrorImage (precision.apply operator left right)
      (precision.mirror.apply operator left' right') := by
  rw [apply_eq, apply_eq, rights.isZero_eq]
  split
  · rfl
  next accepted =>
  have stored : Option.Rel (Decimal.Turned true) (operator.stored? left right)
      (operator.stored? left' right') := by
    cases operator with
    | add =>
      obtain ⟨rfl, rfl⟩ := Bool.and_eq_true_iff.1 turns
      exact Decimal.add?_turned lefts rights
    | subtract =>
      obtain ⟨rfl, rfl⟩ := Bool.and_eq_true_iff.1 turns
      exact Decimal.sub?_turned lefts rights
    | multiply =>
      rw [Operator.turns] at turns
      exact turns ▸ Decimal.mul?_turned lefts rights
    | divide =>
      have divisor : right.mantissa ≠ 0 := by simpa [Decimal.isZero] using accepted
      rw [Operator.turns] at turns
      exact turns ▸ Decimal.div?_turned lefts rights divisor
  generalize operator.stored? left right = first, operator.stored? left' right' = second at stored ⊢
  cases stored with
  | none => rfl
  | @some stored stored' opposite =>
    have small : operator.isTooSmall precision.mirror left' right' stored' =
        operator.isTooSmall precision left right stored := by
      cases operator with
      | add | subtract => rfl
      | multiply =>
        simp only [Operator.isTooSmall, opposite.isZero_eq, lefts.isZero_eq, rights.isZero_eq,
          opposite.isShort_eq, lefts.isExactProduct_eq rights]
      | divide =>
        rw [Operator.turns] at turns
        rw [← turns] at opposite
        simp only [Operator.isTooSmall, opposite.isZero_eq, lefts.isZero_eq, opposite.isShort_eq,
          lefts.isExactQuotient_eq rights opposite]
    dsimp only
    rw [small]
    split
    · rfl
    · exact precision.round_mirror opposite

/-- A sum or difference comes out with the other sign, or fails alike, where both operands are
    negated, and a product or quotient where either of them is, if rounding toward the one end of
    the numbers is exchanged for rounding toward the other one. -/
theorem mirror_image (precision : Precision) (left right : Decimal) :
    IsMirrorImage (precision.add left right) (precision.mirror.add (-left) (-right)) ∧
      IsMirrorImage (precision.sub left right) (precision.mirror.sub (-left) (-right)) ∧
      IsMirrorImage (precision.mul left right) (precision.mirror.mul (-left) right) ∧
      IsMirrorImage (precision.mul left right) (precision.mirror.mul left (-right)) ∧
      IsMirrorImage (precision.div left right) (precision.mirror.div (-left) right) ∧
      IsMirrorImage (precision.div left right) (precision.mirror.div left (-right)) := by
  have both (operator : Operator) (turns : operator.turns true true = true) :=
    precision.apply_mirror turns (.opposite left) (.opposite right)
  have first (operator : Operator) (turns : operator.turns true false = true) :=
    precision.apply_mirror turns (.opposite left) (.refl right)
  have second (operator : Operator) (turns : operator.turns false true = true) :=
    precision.apply_mirror turns (.refl left) (.opposite right)
  exact ⟨both .add rfl, both .subtract rfl, first .multiply rfl, second .multiply rfl,
    first .divide rfl, second .divide rfl⟩

end Precision

end Reckoner
