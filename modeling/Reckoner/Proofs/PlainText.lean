import Reckoner.Proofs.ExactLiterals
import Reckoner.Proofs.ReadBack
import Reckoner.Proofs.Representable
import Reckoner.Proofs.Tiling

/-! # Plain texts

The plain text of a decimal shows its number in the shortest way: without zeros that could be left
out at either end, and with a minus sign only before a number below zero. It denotes this number
exactly, so two decimals have the same plain text exactly if they denote the same number.
-/

namespace Reckoner

/-- The number that a text denotes: that of a literal, with its sign changed by a minus sign in
    front. -/
def numberOf? : List Char → Option ℚ
  | '-' :: text => (Literal.ofChars? text).map fun literal => -literal.toRat
  | text => (Literal.ofChars? text).map Literal.toRat

/-- Whether a text is a number without superfluous zeros: perhaps a minus sign, a whole part that is
    a single digit or does not start with a zero, and perhaps a point with digits behind it of which
    the last one is not zero. -/
def IsPlainNumber (text : List Char) : Prop :=
  ∃ (negative : Bool) (literal : Literal),
    text = (if negative then ['-'] else []) ++ literal.chars ∧
    (∃ first rest, literal.whole = first :: rest ∧ (first.val = 0 → rest = [])) ∧
    ∀ places ∈ literal.fraction, ∃ front last, places = front ++ [last] ∧ last.val ≠ 0

theorem numberOf?_chars (literal : Literal) : numberOf? literal.chars = some literal.toRat := by
  have unsigned : ∀ text, literal.chars ≠ '-' :: text := by
    intro text same
    have start := literal.startsWith_of_mem_chars (same ▸ List.mem_cons_self)
    exact absurd start (by decide)
  rw [numberOf?, literal.ofChars?_chars, Option.map_some]
  exact unsigned

theorem numberOf?_minus (literal : Literal) :
    numberOf? ('-' :: literal.chars) = some (-literal.toRat) := by
  rw [numberOf?, literal.ofChars?_chars, Option.map_some]

namespace Digits

theorem padded_succ (number places : Nat) :
    padded number (places + 1) =
      Fin.ofNat 10 (number / tenPow places) :: padded number places := by
  induction places generalizing number with
  | zero => simp [padded]
  | succ places ih =>
    rw [padded, ih, List.cons_append, Nat.div_div_eq_div_mul, ← tenPow_succ]
    rfl

theorem ofNat_leading (number : Nat) :
    ∃ first rest, ofNat number = first :: rest ∧ (first.val = 0 → rest = []) := by
  rcases Nat.eq_zero_or_pos number with rfl | positive
  · exact ⟨0, [], by decide +kernel, fun _ => rfl⟩
  · have least := tenPow_count_le positive
    have most := lt_tenPow_count number
    obtain ⟨places, length⟩ : ∃ places, count number = places + 1 :=
      ⟨count (number / 10), by rw [count, if_neg positive.ne']⟩
    rw [length, tenPow_succ] at least most
    refine ⟨_, _, by rw [ofNat, length, Nat.max_eq_right (by omega), padded_succ], fun zero => ?_⟩
    have digit : number / tenPow places < 10 := Nat.div_lt_of_lt_mul (Nat.mul_comm .. ▸ most)
    have nonzero : 0 < number / tenPow places := Nat.div_pos (by omega) (tenPow_pos places)
    simp only [Fin.ofNat] at zero
    omega

end Digits

namespace Decimal

theorem toRat_literal (value : Decimal) :
    value.literal.toRat = value.mantissa / 10 ^ value.scale := by
  have length : value.fractionDigits.length = value.scale := Digits.length_padded ..
  have digits : Digits.toNat (value.literal.whole ++ value.literal.places) = value.mantissa := by
    rw [literal_places, Digits.toNat_append, length]
    exact value.toNat_digits
  rw [Literal.toRat, Rat.mkRat_eq_div, digits, literal_places, length, natCast_tenPow]
  rfl

theorem numberOf?_chars (value : Decimal) : numberOf? value.chars = some value.toRat := by
  rw [chars, List.append_assoc, ← chars_literal, toRat_eq, signFactor]
  cases value.negative with
  | false =>
    rw [if_neg Bool.false_ne_true, List.nil_append, Reckoner.numberOf?_chars, toRat_literal]
    simp
  | true =>
    rw [if_pos rfl, List.singleton_append, numberOf?_minus, toRat_literal]
    simp

theorem numberOf?_plain (value : Decimal) : numberOf? value.plain.toList = some value.toRat := by
  rw [plain, text, String.toList_ofList, numberOf?_chars, toRat_normalize]

theorem isPlainNumber_plain (value : Decimal) : IsPlainNumber value.plain.toList := by
  have reduced := value.normalize_reduced
  rw [plain, text, String.toList_ofList]
  generalize value.normalize = value at reduced ⊢
  refine ⟨value.negative, value.literal, ?_, Digits.ofNat_leading _, fun places written => ?_⟩
  · rw [chars, List.append_assoc, chars_literal]
  · simp only [literal] at written
    split at written
    · cases written
    next scaled =>
    cases written
    obtain ⟨scale, length⟩ := Nat.exists_eq_succ_of_ne_zero scaled
    refine ⟨Digits.padded (value.mantissa / 10) scale, Fin.ofNat 10 value.mantissa, ?_, ?_⟩
    · rw [fractionDigits, length, Digits.padded]
    · exact reduced.resolve_left scaled

/-- Plain texts are canonical: they are the same exactly for decimals that denote the same number,
    they have no superfluous zeros, none of them is a zero with a minus sign, and the number that a
    plain text denotes is that of the decimal. -/
theorem plain_canonical (first second : Decimal) :
    (first.plain = second.plain ↔ first.toRat = second.toRat) ∧
      IsPlainNumber first.plain.toList ∧ first.plain ≠ "-0" ∧
      numberOf? first.plain.toList = some first.toRat := by
  refine ⟨⟨fun same => ?_, fun same => ?_⟩, first.isPlainNumber_plain, fun negated => ?_,
    first.numberOf?_plain⟩
  · have denoted := first.numberOf?_plain
    rw [same, second.numberOf?_plain] at denoted
    exact (Option.some.inj denoted).symm
  · rw [plain, plain, normalize_eq_normalize_iff.2 same]
  · have denoted := first.numberOf?_plain
    have zero : numberOf? "-0".toList = some 0 := by decide +kernel
    rw [negated, zero] at denoted
    have vanishes := isZero_iff.2 (Option.some.inj denoted).symm
    rw [plain, normalize_of_isZero vanishes] at negated
    exact absurd negated (by decide +kernel)

end Decimal

end Reckoner
