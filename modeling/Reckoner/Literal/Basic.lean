import Reckoner.Digits

/-! # Number literals

A literal is a run of digits with at most one point and at least one digit; the point may stand at
either end. Reading takes the longest such run, so that a second point simply ends it. A literal
has no sign: a sign is a token of its own or belongs to the operand around the literal.
-/

namespace Reckoner

/-- An unsigned number as it is written. -/
structure Literal where
  /-- The digits before the point. -/
  whole : List Digit
  /-- The digits after the point, or nothing where no point is written. -/
  fraction : Option (List Digit)
  hasDigit : whole ++ fraction.getD [] ≠ []
  deriving Repr, DecidableEq

namespace Literal

/-- The digits after the point, none where no point is written. -/
def places (literal : Literal) : List Digit :=
  literal.fraction.getD []

/-- The number that a literal denotes, whatever its length. -/
def toRat (literal : Literal) : Rat :=
  mkRat (Digits.toNat (literal.whole ++ literal.places)) (tenPow literal.places.length)

/-- The characters of a literal. -/
def chars (literal : Literal) : List Char :=
  literal.whole.map Digit.toChar ++
    match literal.fraction with
    | none => []
    | some places => '.' :: places.map Digit.toChar

/-- Split off the digits at the front of a text. -/
def takeDigits : List Char → List Digit × List Char
  | [] => ([], [])
  | c :: text =>
    match Digit.ofChar? c with
    | some digit => (digit :: (takeDigits text).1, (takeDigits text).2)
    | none => ([], c :: text)

/-- The literal with these parts, unless there is no digit in them. -/
def ofParts? (whole : List Digit) (fraction : Option (List Digit)) : Option Literal :=
  if h : whole ++ fraction.getD [] ≠ [] then some ⟨whole, fraction, h⟩ else none

/-- Read the longest run of digits with at most one point at the front of a text, and give what
    follows it. Nothing is read where the run has no digit. -/
def read? (text : List Char) : Option (Literal × List Char) :=
  match takeDigits text with
  | (whole, '.' :: more) =>
    match takeDigits more with
    | (places, rest) => (ofParts? whole (some places)).map (·, rest)
  | (whole, rest) => (ofParts? whole none).map (·, rest)

/-- Read a text that has to be one literal and nothing else. -/
def ofChars? (text : List Char) : Option Literal :=
  match read? text with
  | some (literal, []) => some literal
  | _ => none

/-- Whether a literal may start with a character. -/
def startsWith (c : Char) : Bool :=
  c == '.' || (Digit.ofChar? c).isSome

theorem takeDigits_append (text : List Char) :
    (takeDigits text).1.map Digit.toChar ++ (takeDigits text).2 = text := by
  induction text with
  | nil => rfl
  | cons c text ih =>
    rw [takeDigits]
    split
    · next digit found => simp [ih, Digit.toChar_of_ofChar? found]
    · rfl

theorem chars_of_ofParts? {whole : List Digit} {fraction : Option (List Digit)}
    {literal : Literal} (h : ofParts? whole fraction = some literal) :
    literal.whole = whole ∧ literal.fraction = fraction := by
  unfold ofParts? at h
  split at h
  · obtain rfl := Option.some.inj h
    exact ⟨rfl, rfl⟩
  · exact absurd h (by simp)

theorem chars_append_of_read? {text rest : List Char} {literal : Literal}
    (h : read? text = some (literal, rest)) : literal.chars ++ rest = text := by
  have front := takeDigits_append text
  unfold read? at h
  split at h
  · next whole more split =>
    have back := takeDigits_append more
    obtain ⟨made, madeParts, same⟩ := Option.map_eq_some_iff.1 h
    obtain ⟨rfl, rfl⟩ := Prod.mk.inj same
    obtain ⟨wholeEq, fractionEq⟩ := chars_of_ofParts? madeParts
    rw [split] at front
    simp only [chars, wholeEq, fractionEq, List.append_assoc, List.cons_append]
    rw [back, front]
  · next whole rest' split =>
    obtain ⟨made, madeParts, same⟩ := Option.map_eq_some_iff.1 h
    obtain ⟨rfl, rfl⟩ := Prod.mk.inj same
    obtain ⟨wholeEq, fractionEq⟩ := chars_of_ofParts? madeParts
    rw [split] at front
    simpa [chars, wholeEq, fractionEq] using front

theorem chars_ne_nil (literal : Literal) : literal.chars ≠ [] := by
  obtain ⟨whole, fraction, hasDigit⟩ := literal
  cases fraction with
  | none => simpa [chars] using hasDigit
  | some places => simp [chars]

end Literal

end Reckoner
