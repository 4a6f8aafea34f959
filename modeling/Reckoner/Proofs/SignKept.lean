import Reckoner.Proofs.Precedence
import Reckoner.Proofs.RoundedOrder
import Reckoner.Proofs.StoredLiterals

/-! # Signs of results

Three things could make a zero out of another number: a product, quotient or literal that has
nothing left at the last place, a number that is cut to the digits to keep, and a sum that loses
places. The first is refused, and the others keep the first digit. So what is computed has the sign
of the exact result, and a divisor that was multiplied and divided together from numbers other than
zero is not zero.
-/

namespace Reckoner

variable {precision : Precision}

theorem Decimal.Stores.sign_toRat {value : Decimal} {mode : RoundingMode} {x : ℚ} {places : Nat}
    (stores : value.Stores mode x places) (vanishes : value.toRat = 0 → x = 0) :
    SignType.sign value.toRat = SignType.sign x := by
  rcases lt_trichotomy x 0 with negative | rfl | positive
  · have nonpos := stores.nonpos negative.le
    rw [sign_neg negative, sign_neg (nonpos.lt_of_ne (mt vanishes negative.ne))]
  · rw [le_antisymm (stores.nonpos le_rfl) (stores.nonneg le_rfl)]
  · have nonneg := stores.nonneg positive.le
    rw [sign_pos positive, sign_pos (nonneg.lt_of_ne' (mt vanishes positive.ne'))]

namespace Precision

theorem sign_of_round {value rounded : Decimal} (h : precision.round value = .ok rounded) :
    SignType.sign rounded.toRat = SignType.sign value.toRat := by
  rw [precision.toRat_of_round h, sign_rounded]

theorem sign_of_apply {operator : Operator} {left right result : Decimal}
    (h : precision.apply operator left right = .ok result) :
    SignType.sign result.toRat = SignType.sign (operator.exact left.toRat right.toRat) := by
  obtain ⟨stored, -, kept, ⟨places, stands⟩, vanishes⟩ := stored_of_apply h
  rw [sign_of_round kept, stands.stores.sign_toRat vanishes]

theorem sign_of_ofLiteral {literal : Literal} {value : Decimal}
    (h : precision.ofLiteral literal = .ok value) :
    SignType.sign value.toRat = SignType.sign literal.toRat := by
  obtain ⟨stored, made, kept, fits⟩ := stored_of_ofLiteral h
  have stores := Literal.stores_of_stored? made
  rw [sign_of_round kept, stores.sign_toRat (toRat_eq_zero_of_stored stores fits)]

end Precision

namespace Literal

theorem toRat_eq_zero_iff {literal : Literal} :
    literal.toRat = 0 ↔ ∀ c ∈ literal.chars, c = '0' ∨ c = '.' := by
  have shown (digit : Digit) : digit.toChar = '0' ∨ digit.toChar = '.' ↔ digit.val = 0 := by
    revert digit
    decide
  have all (digits : List Digit) : (∀ c ∈ digits.map Digit.toChar, c = '0' ∨ c = '.') ↔
      ∀ digit ∈ digits, digit.val = 0 := by
    simp only [List.forall_mem_map, shown]
  have digits : literal.toRat = 0 ↔ ∀ digit ∈ literal.whole ++ literal.places, digit.val = 0 := by
    have scale : (10 : ℚ) ^ literal.places.length ≠ 0 := by positivity
    rw [toRat, Rat.mkRat_eq_div, natCast_tenPow, div_eq_zero_iff, or_iff_left scale,
      ← Digits.toNat_eq_zero_iff]
    norm_cast
  rw [digits, chars, places, List.forall_mem_append, List.forall_mem_append, all]
  cases literal.fraction with
  | none => simp
  | some places =>
    have written : (∀ c ∈ '.' :: places.map Digit.toChar, c = '0' ∨ c = '.') ↔
        ∀ digit ∈ places, digit.val = 0 := by
      rw [List.forall_mem_cons, all, and_iff_right (.inr rfl)]
    exact and_congr_right fun _ => written.symm

end Literal

namespace Tree

/-- Whether a tree multiplies and divides numbers other than zero: literals that do not denote zero,
    and sums and differences that do not come out as zero. -/
def HasNonzeroFactors (precision : Precision) : Tree → Prop
  | zero => False
  | number _ literal => literal.toRat ≠ 0
  | apply operator left right =>
    match operator with
    | .multiply | .divide => left.HasNonzeroFactors precision ∧ right.HasNonzeroFactors precision
    | .add | .subtract =>
      ∀ value, (apply operator left right).evaluate precision = .ok value → value.toRat ≠ 0

/-- Whether all that a tree divides by has factors other than zero. -/
def DividesByFactors (precision : Precision) : Tree → Prop
  | zero | number _ _ => True
  | apply operator left right =>
    left.DividesByFactors precision ∧ right.DividesByFactors precision ∧
      (operator = .divide → right.HasNonzeroFactors precision)

/-- Factors other than zero are multiplied and divided to a number other than zero. -/
theorem HasNonzeroFactors.toRat_ne_zero {tree : Tree} (h : tree.HasNonzeroFactors precision)
    {value : Decimal} (done : tree.evaluate precision = .ok value) : value.toRat ≠ 0 := by
  induction tree generalizing value with
  | zero => exact h.elim
  | number sign literal =>
    obtain ⟨magnitude, read, rfl⟩ := Evaluation.ofSigned_eq_ok (mapError_eq_ok_iff.1 done)
    have nonzero : magnitude.toRat ≠ 0 := by
      rw [← sign_ne_zero, Precision.sign_of_ofLiteral read, sign_ne_zero]
      exact h
    cases sign with
    | none => exact nonzero
    | some sign =>
      rw [← Decimal.isZero_eq_false_iff] at nonzero ⊢
      rwa [Option.elim_some, sign.on_isZero]
  | apply operator left right ihLeft ihRight =>
    -- Only the two operators that scale need the induction; for the others `h` is about the value.
    have scaled (h : left.HasNonzeroFactors precision ∧ right.HasNonzeroFactors precision)
        (product : ∀ x y : ℚ, x ≠ 0 → y ≠ 0 → operator.exact x y ≠ 0) : value.toRat ≠ 0 := by
      rw [evaluate_apply] at done
      obtain ⟨leftValue, leftDone, rest⟩ := bind_eq_ok_iff.1 done
      obtain ⟨rightValue, rightDone, applied⟩ := bind_eq_ok_iff.1 rest
      rw [← sign_ne_zero, Precision.sign_of_apply (mapError_eq_ok_iff.1 applied),
        sign_ne_zero]
      exact product _ _ (ihLeft h.1 leftDone) (ihRight h.2 rightDone)
    cases operator with
    | add | subtract => exact h value done
    | multiply => exact scaled h fun x y => mul_ne_zero
    | divide => exact scaled h fun x y => div_ne_zero

/-- What divides by factors other than zero alone is never refused for dividing by zero. -/
theorem DividesByFactors.evaluate_ne {tree : Tree} (h : tree.DividesByFactors precision) :
    tree.evaluate precision ≠ .error .divisionByZero := by
  intro refused
  induction tree with
  | zero => cases refused
  | number sign literal =>
    rcases Precision.error_of_ofSigned (mapError_eq_divisionByZero_iff.1 refused) with same | same
      <;> cases same
  | apply operator left right ihLeft ihRight =>
    obtain ⟨leftDivides, rightDivides, factors⟩ := h
    rw [evaluate_apply, bind_eq_error_iff] at refused
    rcases refused with first | ⟨dividend, -, rest⟩
    · exact ihLeft leftDivides first
    rcases bind_eq_error_iff.1 rest with second | ⟨divisor, done, refused⟩
    · exact ihRight rightDivides second
    obtain ⟨divides, zero⟩ :=
      Precision.apply_eq_divisionByZero_iff.1 (mapError_eq_divisionByZero_iff.1 refused)
    exact (factors divides).toRat_ne_zero done (Decimal.isZero_iff.1 zero)

end Tree

namespace Precision

/-- Nothing silently becomes zero or changes its sign: a result has the sign of the exact result, a
    literal is read as zero exactly if it has no other digits and as a positive number if it has,
    and no divisor that is computed from factors other than zero is refused as zero, neither by the
    division itself nor in an expression. -/
theorem sign_kept (precision : Precision) :
    (∀ operator left right result, precision.apply operator left right = .ok result →
      SignType.sign result.toRat = SignType.sign (operator.exact left.toRat right.toRat)) ∧
    (∀ text value, precision.parse text = .ok value →
      (value.toRat = 0 ↔ ∀ c ∈ text.toList, c = '0' ∨ c = '.') ∧ 0 ≤ value.toRat) ∧
    (∀ (factors : Tree) divisor, factors.HasNonzeroFactors precision →
      factors.evaluate precision = .ok divisor →
        ∀ dividend, precision.div dividend divisor ≠ .error .divisionByZero) ∧
    (∀ (expression : Expression) (text : String), withoutBlanks text.toList = expression.chars →
      expression.tree.DividesByFactors precision →
        precision.evaluate text ≠ .error .divisionByZero) := by
  refine ⟨fun operator left right result h => sign_of_apply h, fun text value h => ?_,
    fun factors divisor nonzero done dividend refused => ?_,
    fun expression text spelled divides => ?_⟩
  · obtain ⟨literal, written, read⟩ := literal_of_parse h
    have sign := sign_of_ofLiteral read
    rw [← written, ← Literal.toRat_eq_zero_iff, ← sign_eq_zero_iff, sign, sign_eq_zero_iff,
      ← sign_nonneg_iff, sign, sign_nonneg_iff]
    exact ⟨Iff.rfl, literal.toRat_nonneg⟩
  · have divided : precision.apply .divide dividend divisor = .error .divisionByZero := refused
    obtain ⟨-, zero⟩ := apply_eq_divisionByZero_iff.1 divided
    exact nonzero.toRat_ne_zero done (Decimal.isZero_iff.1 zero)
  · rw [precision.evaluate_of_spelled spelled]
    exact divides.evaluate_ne

/-- A product that is cut to one digit stays negative, and a divisor that is made of a tenth and a
    cut fraction is not refused. -/
theorem sign_kept_one_digit :
    let precision : Precision := ⟨1, .down, by decide, by decide⟩
    let fraction : Decimal := ⟨false, 19, 2, by decide, by decide⟩
    let tenth : Decimal := ⟨true, 1, 1, by decide, by decide⟩
    let product : Decimal := ⟨true, 1, 2, by decide, by decide⟩
    let read : Decimal := ⟨false, 1, 1, by decide, by decide⟩
    precision.apply .multiply fraction tenth = .ok product ∧
      SignType.sign product.toRat =
        SignType.sign (Operator.multiply.exact fraction.toRat tenth.toRat) ∧
      precision.parse ".19" = .ok read ∧ 0 ≤ read.toRat ∧
      ∃ quotient : Expression, withoutBlanks "1 / (.19 * 0.1)".toList = quotient.chars ∧
        quotient.tree.DividesByFactors precision ∧
        precision.evaluate "1 / (.19 * 0.1)" ≠ .error .divisionByZero := by
  intro precision fraction tenth product read
  let digits : Literal := ⟨[], some [1, 9], by decide⟩
  let digit : Literal := ⟨[0], some [1], by decide⟩
  let divisor : Expression := .chain (.more (.literal digits) .times (.last (.literal digit)))
  let quotient : Expression := .chain (.more (.literal ⟨[1], none, by decide⟩) .dividedBy
    (.last (.group divisor)))
  have spelled : withoutBlanks "1 / (.19 * 0.1)".toList = quotient.chars := by decide
  have nonzero : divisor.tree.HasNonzeroFactors precision :=
    ⟨(by decide +kernel : digits.toRat ≠ 0), (by decide +kernel : digit.toRat ≠ 0)⟩
  have divides : quotient.tree.DividesByFactors precision :=
    ⟨trivial, ⟨trivial, trivial, nofun⟩, fun _ => nonzero⟩
  have multiplied : precision.apply .multiply fraction tenth = .ok product := by decide +kernel
  have parsed : precision.parse ".19" = .ok read := by decide +kernel
  obtain ⟨signs, literals, -, expressions⟩ := sign_kept precision
  exact ⟨multiplied, signs _ _ _ _ multiplied, parsed, (literals _ _ parsed).2,
    quotient, spelled, divides, expressions quotient _ spelled divides⟩

end Precision

end Reckoner
