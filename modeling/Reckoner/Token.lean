import Reckoner.EvalError
import Reckoner.Literal.Basic
import Reckoner.Operator
import Reckoner.Text.Blank

/-! # Tokens of an expression

An expression without its blanks falls into tokens from left to right. All that reading needs to
know about what came before is whether an operand is due: at the start, after an opening
parenthesis and after an operator or sign. Where one is due, a `+` or `-` is a sign. A sign in
front of a literal belongs to the operand; in front of a parenthesis or of another sign it is a
token of its own.
-/

namespace Reckoner

/-- A piece of an expression. -/
inductive Token where
  | openParen
  | closeParen
  | operator (operator : Operator)
  /-- A sign in front of a parenthesis or of another sign. -/
  | sign (sign : Sign)
  /-- A literal with the sign that stands directly before it, if there is one. -/
  | number (sign : Option Sign) (literal : Literal)
  deriving Repr, DecidableEq

namespace Token

/-- The characters of a token. -/
def chars : Token → List Char
  | openParen => ['(']
  | closeParen => [')']
  | operator op => [op.symbol]
  | sign s => [s.symbol]
  | number none literal => literal.chars
  | number (some s) literal => s.symbol :: literal.chars

/-- Whether an operand is due after a token. -/
def operandDue : Token → Bool
  | openParen | operator _ | sign _ => true
  | closeParen | number .. => false

/-- Whether a sign in front of this character stands for itself and not for a part of a number. -/
def takesSign (c : Char) : Bool :=
  c == '(' || c == '+' || c == '-'

/-- Read the token that starts with `c`, and give the characters after it. -/
def read (due : Bool) (position : Nat) (c : Char) (text : List Char) :
    Except EvalError (Token × List Char) :=
  if c = '(' then .ok (openParen, text)
  else if c = ')' then .ok (closeParen, text)
  else if Literal.startsWith c then
    match Literal.read? (c :: text) with
    | some (literal, rest) => .ok (number none literal, rest)
    | none => .error (.numberParseFailure position)
  else
    match Operator.ofChar? c with
    | none => .error (.illegalCharacter c position)
    | some op =>
      match if due then op.sign? else none with
      | none => .ok (operator op, text)
      | some s =>
        match text with
        | [] => .error (.missingUnaryOperand position)
        | next :: _ =>
          if takesSign next then .ok (sign s, text)
          else
            match Literal.read? text with
            | some (literal, rest) => .ok (number (some s) literal, rest)
            | none => .error (.numberParseFailure (position + 1))

theorem chars_append_of_read {due : Bool} {position : Nat} {c : Char} {text rest : List Char}
    {token : Token} (h : read due position c text = .ok (token, rest)) :
    token.chars ++ rest = c :: text := by
  unfold read at h
  split at h
  · next paren => cases h; simp [chars, paren]
  split at h
  · next paren => cases h; simp [chars, paren]
  split at h
  · split at h
    · next literal after found => cases h; exact Literal.chars_append_of_read? found
    · cases h
  split at h
  · cases h
  next op found =>
  have symbol := Operator.symbol_of_ofChar? found
  split at h
  · cases h; simp [chars, symbol]
  next s signed =>
  have same : s.symbol = c := by
    split at signed
    · rw [Sign.symbol, Sign.operator_of_sign? signed, symbol]
    · cases signed
  split at h
  · cases h
  split at h
  · cases h; simp [chars, same]
  split at h
  · next literal after found =>
    cases h
    simp [chars, same, Literal.chars_append_of_read? found]
  · cases h

theorem chars_ne_nil (token : Token) : token.chars ≠ [] := by
  cases token with
  | number sign literal =>
    cases sign with
    | none => exact literal.chars_ne_nil
    | some s => simp [chars]
  | _ => simp [chars]

theorem length_lt_of_read {due : Bool} {position : Nat} {c : Char} {text rest : List Char}
    {token : Token} (h : read due position c text = .ok (token, rest)) :
    rest.length < (c :: text).length := by
  rw [← chars_append_of_read h, List.length_append]
  have := List.length_pos_iff.2 token.chars_ne_nil
  omega

end Token

/-- Whether an operand is due after a character that stands before some offset of a text, nothing
    standing there at its start. -/
def operandDueAfter : Option Char → Bool
  | none => true
  | some c => c == '(' || (Operator.ofChar? c).isSome

/-- Whether the character at an offset of a text is a sign and not an operator between operands. -/
def isSignAt (text : List Char) (index : Nat) : Bool :=
  match text[index]?.bind Operator.ofChar? with
  | none => false
  | some op =>
    op.sign?.isSome &&
      operandDueAfter (match index with | 0 => none | before + 1 => text[before]?)

/-- The tokens that could be read from a text, each with the offset of its first character, and
    what stopped the reading before the end, if anything did. -/
structure Scan where
  tokens : List (Nat × Token)
  stop : Option EvalError
  deriving Repr, DecidableEq

namespace Scan

/-- Read tokens up to the end of the text or the first character that starts none. The text stands
    at an offset of a longer one. -/
def readFrom (due : Bool) (position : Nat) : List Char → Scan
  | [] => ⟨[], none⟩
  | c :: text =>
    match h : Token.read due position c text with
    | .error stop => ⟨[], some stop⟩
    | .ok (token, rest) =>
      have : rest.length < (c :: text).length := Token.length_lt_of_read h
      let scan := readFrom token.operandDue (position + token.chars.length) rest
      ⟨(position, token) :: scan.tokens, scan.stop⟩
termination_by text => text.length
decreasing_by exact this

/-- The tokens of a whole text. -/
def ofChars (text : List Char) : Scan :=
  readFrom true 0 text

end Scan

end Reckoner
