import Reckoner.Proofs.Reading

/-! # The tokens of an expression

An expression that is written down is read back as its own tokens, whatever follows it, unless that
continues its last literal. A sign is a token of its own in front of a group or of another sign and
part of the number in front of a literal.
-/

namespace Reckoner

mutual

def Operand.tokens : Operand → List Token
  | .literal literal => [.number none literal]
  | .group inner => .openParen :: inner.tokens ++ [.closeParen]
  | .signed sign operand =>
    match operand with
    | .literal literal => [.number (some sign) literal]
    | operand => .sign sign :: operand.tokens

def Chain.tokens : Chain → List Token
  | .last operand => operand.tokens
  | .more operand scaling rest => operand.tokens ++ .operator scaling.operator :: rest.tokens

def Expression.tokens : Expression → List Token
  | .chain chain => chain.tokens
  | .more before sign chain => before.tokens ++ .operator sign.operator :: chain.tokens

end

mutual

theorem Operand.flatMap_chars_tokens (operand : Operand) :
    operand.tokens.flatMap Token.chars = operand.chars := by
  cases operand with
  | literal literal => simp [Operand.tokens, Operand.chars, Token.chars]
  | group inner =>
    simp [Operand.tokens, Operand.chars, Token.chars, inner.flatMap_chars_tokens]
  | signed sign operand =>
    have inner := operand.flatMap_chars_tokens
    cases operand with
    | literal literal => simp [Operand.tokens, Operand.chars, Token.chars]
    | group | signed =>
      show (Token.sign sign :: Operand.tokens _).flatMap Token.chars = _
      rw [List.flatMap_cons, inner]
      rfl

theorem Chain.flatMap_chars_tokens (chain : Chain) :
    chain.tokens.flatMap Token.chars = chain.chars := by
  cases chain with
  | last operand => exact operand.flatMap_chars_tokens
  | more operand scaling rest =>
    simp [Chain.tokens, Chain.chars, Token.chars, operand.flatMap_chars_tokens,
      rest.flatMap_chars_tokens]

theorem Expression.flatMap_chars_tokens (expression : Expression) :
    expression.tokens.flatMap Token.chars = expression.chars := by
  cases expression with
  | chain chain => exact chain.flatMap_chars_tokens
  | more before sign chain =>
    simp [Expression.tokens, Expression.chars, Token.chars, Sign.symbol,
      before.flatMap_chars_tokens, chain.flatMap_chars_tokens]

end

mutual

theorem Operand.dueAfter_tokens (operand : Operand) (due : Bool) :
    Token.dueAfter due operand.tokens = false := by
  cases operand with
  | literal => rfl
  | group inner => simp [Operand.tokens, Token.dueAfter, Token.operandDue]
  | signed sign operand =>
    have inner := fun due => operand.dueAfter_tokens due
    cases operand with
    | literal => rfl
    | group | signed => exact inner true

theorem Chain.dueAfter_tokens (chain : Chain) (due : Bool) :
    Token.dueAfter due chain.tokens = false := by
  cases chain with
  | last operand => exact operand.dueAfter_tokens due
  | more operand scaling rest => simp [Chain.tokens, Token.dueAfter, rest.dueAfter_tokens]

theorem Expression.dueAfter_tokens (expression : Expression) (due : Bool) :
    Token.dueAfter due expression.tokens = false := by
  cases expression with
  | chain chain => exact chain.dueAfter_tokens due
  | more before sign chain => simp [Expression.tokens, Token.dueAfter, chain.dueAfter_tokens]

end

mutual

theorem Operand.allReadable_tokens (operand : Operand) {rest : List Char}
    (h : ∀ c ∈ rest.head?, Literal.startsWith c = false) :
    Token.AllReadable true rest operand.tokens := by
  cases operand with
  | literal literal => exact ⟨literal.endsBefore_of_not_startsWith h, trivial⟩
  | group inner =>
    refine ⟨trivial, Token.allReadable_append.2 ⟨inner.allReadable_tokens ?_, trivial, trivial⟩⟩
    simp [Token.chars]
    decide
  | signed sign operand =>
    have inner := operand.allReadable_tokens h
    have written := operand.flatMap_chars_tokens
    cases operand with
    | literal literal => exact ⟨⟨rfl, literal.endsBefore_of_not_startsWith h⟩, trivial⟩
    | group => exact ⟨⟨rfl, '(', by rw [written]; rfl, rfl⟩, inner⟩
    | signed second =>
      refine ⟨⟨rfl, second.symbol, by rw [written]; rfl, ?_⟩, inner⟩
      cases second <;> rfl

theorem Chain.allReadable_tokens (chain : Chain) {rest : List Char}
    (h : ∀ c ∈ rest.head?, Literal.startsWith c = false) :
    Token.AllReadable true rest chain.tokens := by
  cases chain with
  | last operand => exact operand.allReadable_tokens h
  | more operand scaling others =>
    refine Token.allReadable_append.2
      ⟨operand.allReadable_tokens ?_, ?_, others.allReadable_tokens h⟩
    · simp [Token.chars, Token.startsWith_symbol]
    · exact fun _ => by cases scaling <;> rfl

theorem Expression.allReadable_tokens (expression : Expression) {rest : List Char}
    (h : ∀ c ∈ rest.head?, Literal.startsWith c = false) :
    Token.AllReadable true rest expression.tokens := by
  cases expression with
  | chain chain => exact chain.allReadable_tokens h
  | more before sign chain =>
    refine Token.allReadable_append.2 ⟨before.allReadable_tokens ?_, ?_, chain.allReadable_tokens h⟩
    · simp [Token.chars, Token.startsWith_symbol]
    · rw [before.dueAfter_tokens]
      exact fun due => by cases due

end

theorem isBlank_toChar (digit : Digit) : isBlank digit.toChar = false := by
  revert digit
  decide

theorem isBlank_symbol (operator : Operator) : isBlank operator.symbol = false := by
  cases operator <;> decide

theorem Literal.not_isBlank_of_mem_chars {literal : Literal} {c : Char} (h : c ∈ literal.chars) :
    isBlank c = false := by
  obtain rfl | ⟨digit, rfl⟩ := Literal.startsWith_eq_true_iff.1 (startsWith_of_mem_chars h)
  · decide
  · exact isBlank_toChar digit

theorem Token.not_isBlank_of_mem_chars {token : Token} {c : Char} (h : c ∈ token.chars) :
    isBlank c = false := by
  cases token with
  | openParen | closeParen => obtain rfl := List.mem_singleton.1 h; decide
  | operator op => obtain rfl := List.mem_singleton.1 h; exact isBlank_symbol op
  | sign s => obtain rfl := List.mem_singleton.1 h; exact isBlank_symbol s.operator
  | number sign literal =>
    cases sign with
    | none => exact Literal.not_isBlank_of_mem_chars h
    | some s =>
      obtain rfl | h := List.mem_cons.1 h
      · exact isBlank_symbol s.operator
      · exact Literal.not_isBlank_of_mem_chars h

theorem withoutBlanks_flatMap_chars (tokens : List Token) :
    withoutBlanks (tokens.flatMap Token.chars) = tokens.flatMap Token.chars := by
  refine List.filter_eq_self.2 fun c member => ?_
  obtain ⟨token, _, member⟩ := List.mem_flatMap.1 member
  simp [Token.not_isBlank_of_mem_chars member]

theorem Scan.ofChars_flatMap_chars {tokens : List Token}
    (readable : Token.AllReadable true [] tokens) :
    ofChars (tokens.flatMap Token.chars) = ⟨Token.place 0 tokens, none⟩ := by
  have whole := readFrom_append readable 0
  rw [List.append_nil] at whole
  rw [ofChars, whole]
  simp [readFrom]

/-- The whole of a written expression is read, as its tokens. -/
theorem Expression.scan_chars (expression : Expression) :
    Scan.ofChars expression.chars = ⟨Token.place 0 expression.tokens, none⟩ := by
  rw [← expression.flatMap_chars_tokens]
  exact Scan.ofChars_flatMap_chars (expression.allReadable_tokens (by simp))

theorem Operand.chars_ne_nil (operand : Operand) : operand.chars ≠ [] := by
  cases operand with
  | literal literal => exact literal.chars_ne_nil
  | group | signed => simp [Operand.chars]

theorem Expression.chars_ne_nil (expression : Expression) : expression.chars ≠ [] := by
  cases expression with
  | more => simp [Expression.chars]
  | chain chain =>
    cases chain with
    | last operand => exact operand.chars_ne_nil
    | more => simp [Expression.chars, Chain.chars]

end Reckoner
