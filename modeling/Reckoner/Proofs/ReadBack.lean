import Reckoner.Decimal.Text
import Reckoner.Proofs.Groups
import Reckoner.Proofs.Kept
import Reckoner.Proofs.Spelling

/-! # Reading what has been shown

The plain text of a value that is kept by the working precision is one literal with at most one
sign, and reading it gives the value back with all its digits. So a value can be put into an
expression in place of what it was computed from.
-/

namespace Reckoner

theorem Digits.toNat_foldl (digits : List Digit) (number : Nat) :
    digits.foldl (fun number digit => 10 * number + digit.val) number =
      number * tenPow digits.length + toNat digits := by
  induction digits generalizing number with
  | nil => simp
  | cons digit digits ih =>
    rw [toNat, List.foldl_cons, List.foldl_cons, ih, ih, List.length_cons, tenPow_succ,
      Nat.add_mul, Nat.add_mul]
    have shifted := Nat.mul_assoc 10 number (tenPow digits.length)
    have shifted' := Nat.mul_left_comm number 10 (tenPow digits.length)
    omega

namespace Literal

theorem storePlaces_append {front rest : List Digit} {mantissa scale : Nat}
    (room : front.foldl (fun number digit => 10 * number + digit.val) mantissa < mantissaLimit)
    (deep : scale + front.length ≤ maxScale) :
    storePlaces mantissa scale (front ++ rest) = storePlaces
      (front.foldl (fun number digit => 10 * number + digit.val) mantissa)
      (scale + front.length) rest := by
  induction front generalizing mantissa scale with
  | nil => rfl
  | cons digit front ih =>
    rw [List.foldl_cons] at room ⊢
    rw [List.length_cons] at deep ⊢
    have fits : 10 * mantissa + digit.val < mantissaLimit := by
      rw [Digits.toNat_foldl] at room
      have := Nat.le_mul_of_pos_right (10 * mantissa + digit.val) (tenPow_pos front.length)
      omega
    rw [List.cons_append, storePlaces, if_pos ⟨fits, by omega⟩, ih room (by omega)]
    congr 1
    omega

theorem leadingZeros_le (digits : List Digit) : leadingZeros digits ≤ digits.length :=
  (List.takeWhile_prefix _).length_le

theorem isTooSmall_eq_false {literal : Literal} (h : literal.places.length ≤ maxScale)
    (digits : Nat) : literal.isTooSmall digits = false := by
  have first := leadingZeros_le literal.places
  have last := Nat.min_le_left
    (literal.places.length - leadingZeros literal.places.reverse - leadingZeros literal.places)
    digits
  have shallow : leadingZeros literal.places + min (literal.places.length -
      leadingZeros literal.places.reverse - leadingZeros literal.places) digits ≤ maxScale := by
    omega
  simp only [isTooSmall, decide_eq_false (Nat.not_lt.2 shallow), Bool.and_false]

end Literal

namespace Decimal

theorem wholeDigits_append_ne_nil (value : Decimal) :
    value.wholeDigits ++
      (if value.scale = 0 then none else some value.fractionDigits).getD [] ≠ [] := by
  intro none
  have length := congrArg List.length (List.append_eq_nil_iff.1 none).1
  rw [wholeDigits, Digits.ofNat, Digits.length_padded, List.length_nil] at length
  omega

/-- The literal that shows the magnitude of a decimal. -/
def literal (value : Decimal) : Literal where
  whole := value.wholeDigits
  fraction := if value.scale = 0 then none else some value.fractionDigits
  hasDigit := value.wholeDigits_append_ne_nil

/-- The token that shows a decimal. -/
def token (value : Decimal) : Token :=
  .number (if value.negative then some .minus else none) value.literal

theorem chars_literal (value : Decimal) :
    value.literal.chars = value.wholeDigits.map Digit.toChar ++
      if value.scale = 0 then [] else '.' :: value.fractionDigits.map Digit.toChar := by
  by_cases none : value.scale = 0 <;> simp [Literal.chars, literal, none]

theorem chars_eq_token_chars (value : Decimal) : value.chars = value.token.chars := by
  rw [chars, List.append_assoc, ← chars_literal, token]
  cases value.negative <;> rfl

theorem toList_plain (value : Decimal) : value.plain.toList = value.normalize.token.chars := by
  rw [plain, text, String.toList_ofList, chars_eq_token_chars]

theorem flatMap_chars_plain (value : Decimal) :
    [Token.openParen, value.normalize.token, .closeParen].flatMap Token.chars =
      '(' :: value.plain.toList ++ [')'] := by
  rw [toList_plain]
  simp [Token.chars]

theorem allReadable_token (value : Decimal) {rest : List Char}
    (h : ∀ c ∈ rest.head?, Literal.startsWith c = false) :
    Token.AllReadable true rest [value.token] := by
  have ends : value.literal.EndsBefore rest := value.literal.endsBefore_of_not_startsWith h
  refine ⟨?_, trivial⟩
  rw [token]
  cases value.negative with
  | false => exact ends
  | true => exact ⟨rfl, ends⟩

theorem withoutBlanks_plain (value : Decimal) :
    withoutBlanks value.plain.toList = value.plain.toList := by
  have written : value.plain.toList = [value.normalize.token].flatMap Token.chars := by
    rw [value.toList_plain, List.flatMap_singleton]
  rw [written, withoutBlanks_flatMap_chars]

theorem scan_plain (value : Decimal) :
    Scan.ofChars value.plain.toList = ⟨[(0, value.normalize.token)], none⟩ := by
  have whole := Scan.ofChars_flatMap_chars (value.normalize.allReadable_token nofun)
  rwa [List.flatMap_singleton, ← value.toList_plain] at whole

theorem literal_places (value : Decimal) : value.literal.places = value.fractionDigits := by
  simp only [Literal.places, literal]
  split
  · next none => simp [fractionDigits, none, Digits.padded]
  · rfl

theorem stored?_literal (value : Decimal) :
    value.literal.stored? = ofParts? false value.mantissa value.scale := by
  have written := value.toNat_digits
  have length : value.fractionDigits.length = value.scale := Digits.length_padded ..
  have mantissa : value.literal.places.foldl (fun number digit => 10 * number + digit.val)
      (Digits.toNat value.literal.whole) = value.mantissa := by
    rw [literal_places, Digits.toNat_foldl, length]
    exact written
  have scale : 0 + value.literal.places.length = value.scale := by
    rw [literal_places, length, Nat.zero_add]
  rw [Literal.stored?, ← List.append_nil value.literal.places, Literal.storePlaces_append, mantissa,
    scale]
  · rfl
  · rw [mantissa]
    exact value.mantissa_lt
  · rw [scale]
    exact value.scale_le

end Decimal

namespace Precision

variable {precision : Precision} {value : Decimal}

theorem ofLiteral_literal (h : precision.Keeps value) (normalized : value.normalize = value) :
    precision.ofLiteral value.literal = .ok { value with negative := false } := by
  have magnitude : Decimal.ofParts? false value.mantissa value.scale =
      some { value with negative := false } := Decimal.ofParts?_eq_some_iff.2 ⟨rfl, rfl, rfl⟩
  have shallow : value.literal.places.length ≤ maxScale := by
    rw [value.literal_places, Decimal.fractionDigits, Digits.length_padded]
    exact value.scale_le
  have kept : precision.Keeps { value with negative := false } := h
  have same : ({ value with negative := false } : Decimal).normalize =
      { value with negative := false } := by
    have mantissa := congrArg Decimal.mantissa normalized
    have scale := congrArg Decimal.scale normalized
    simp only [Decimal.normalize] at mantissa scale ⊢
    simp [mantissa, scale]
  rw [ofLiteral, if_neg (by rw [Literal.isTooSmall_eq_false shallow]; exact Bool.false_ne_true),
    value.stored?_literal, magnitude]
  exact (round_of_keeps kept).trans (congrArg Except.ok same)

/-- The plain text of a value that is kept is read as that value. -/
theorem exec_token (h : precision.Keeps value) (normalized : value.normalize = value)
    (state : Stacks) :
    Evaluation.act precision state value.token =
      .ok { state with values := value :: state.values } := by
  have read := ofLiteral_literal h normalized
  obtain ⟨negative, mantissa, scale, _, _⟩ := value
  cases negative <;> simp only [Decimal.token, Evaluation.act, ofSigned, read] <;> rfl

/-- The plain text of a value that is kept is evaluated to this value. -/
theorem evaluate_plain (h : precision.Keeps value) :
    precision.evaluate value.plain = .ok value.normalize := by
  have read := exec_token h.normalize value.normalize_normalize .empty
  have scanned := value.scan_plain
  obtain ⟨c, chars, written⟩ := List.exists_cons_of_ne_nil value.normalize.token.chars_ne_nil
  have shown : withoutBlanks value.plain.toList = c :: chars := by
    rw [value.withoutBlanks_plain, value.toList_plain, written]
  rw [value.toList_plain, written] at scanned
  rw [precision.evaluate_eq_exec shown, scanned]
  show Evaluation.exec precision [value.normalize.token] .empty >>=
    Evaluation.conclude precision none = _
  rw [Evaluation.exec_singleton, read]
  rfl

/-- A result that is shown reads back as itself: evaluating its plain text succeeds, comes to the
    same number and shows it by the same text. -/
theorem exists_evaluate_plain {text : String} (h : precision.evaluate text = .ok value) :
    ∃ again, precision.evaluate value.plain = .ok again ∧ again.toRat = value.toRat ∧
      again.plain = value.plain := by
  obtain ⟨-, -, accepted⟩ := exec_tokensOf h
  have kept : precision.Keeps value := ensures_keeps.value accepted
  have shown : value.normalize.plain = value.plain := by
    rw [Decimal.plain, Decimal.plain, value.normalize_normalize]
  exact ⟨value.normalize, evaluate_plain kept, value.toRat_normalize, shown⟩

/-- The largest decimal rounds to a number of 29 digits, one more than are kept. -/
theorem exists_evaluate_plain_largest :
    extended.evaluate "-79228162514264337593543950334" =
      .ok ⟨true, 79228162514264337593543950330, 0, by decide, by decide⟩ ∧
    ∃ again, extended.evaluate (Decimal.plain
        ⟨true, 79228162514264337593543950330, 0, by decide, by decide⟩) = .ok again ∧
      again.toRat = Decimal.toRat ⟨true, 79228162514264337593543950330, 0, by decide, by decide⟩ ∧
      again.plain = Decimal.plain
        ⟨true, 79228162514264337593543950330, 0, by decide, by decide⟩ := by
  have value : extended.evaluate "-79228162514264337593543950334" =
      .ok ⟨true, 79228162514264337593543950330, 0, by decide, by decide⟩ := by decide +kernel
  exact ⟨value, exists_evaluate_plain value⟩

end Precision

end Reckoner
