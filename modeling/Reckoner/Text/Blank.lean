/-! # Blank characters

A calculator line may be spaced in any way its writer likes, so blanks are the characters with the
Unicode property `White_Space` and not the ASCII ones alone. Texts are handled as lists of
characters here, because every position the calculator reports counts characters.
-/

namespace Reckoner

/-- The ranges of code points with the property `White_Space`, both ends included. -/
def blankRanges : List (Nat × Nat) :=
  [(0x09, 0x0D), (0x20, 0x20), (0x85, 0x85), (0xA0, 0xA0), (0x1680, 0x1680), (0x2000, 0x200A),
    (0x2028, 0x2029), (0x202F, 0x202F), (0x205F, 0x205F), (0x3000, 0x3000)]

/-- Whether a character separates what stands around it without meaning anything itself. -/
def isBlank (c : Char) : Bool :=
  blankRanges.any fun range => range.1 ≤ c.toNat && c.toNat ≤ range.2

/-- The text without any of its blanks, the rest in order. -/
def withoutBlanks (text : List Char) : List Char :=
  text.filter fun c => !isBlank c

/-- The text without the blanks at its two ends. -/
def trimBlanks (text : List Char) : List Char :=
  ((text.dropWhile isBlank).reverse.dropWhile isBlank).reverse

/-- Two texts with the same letters, when the case of ASCII letters does not count. All other
    letters have to agree exactly. -/
def sameIgnoringCase (left right : List Char) : Bool :=
  left.map Char.toLower == right.map Char.toLower

theorem isBlank_eq_true_of_isWhitespace {c : Char} (h : c.isWhitespace = true) :
    isBlank c = true := by
  simp only [Char.isWhitespace, Bool.or_eq_true, decide_eq_true_eq] at h
  rcases h with ((h | h) | h) | h <;> subst h <;> decide

@[simp]
theorem withoutBlanks_append (left right : List Char) :
    withoutBlanks (left ++ right) = withoutBlanks left ++ withoutBlanks right :=
  List.filter_append left right

end Reckoner
