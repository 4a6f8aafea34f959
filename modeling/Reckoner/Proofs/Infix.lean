import Mathlib.Control.Monad.Basic
import Reckoner.Proofs.Counting
import Reckoner.Proofs.Spelling

/-! # Which texts are accepted

An evaluation only counts its operands, so a missing operand in one place can be made up for by one
too many in another. When a value is returned the two occur equally often, and the text is an infix
expression exactly when neither occurs.
-/

namespace Reckoner

open Evaluation

namespace Token

/-- Whether an operand starts with a token. -/
def beginsOperand : Token → Bool
  | openParen | sign _ | number .. => true
  | closeParen | operator _ => false

/-- How often an operand begins where none is due, as `2` does in `1 2` and `(2)` in `1(2)`. -/
def surplus (due : Bool) : List Token → Nat
  | [] => 0
  | token :: tokens =>
    (if token.beginsOperand && !due then 1 else 0) + surplus token.operandDue tokens

/-- How often an operand is due and none begins, as before the star in `*2` and inside `()`. -/
def missing (due : Bool) : List Token → Nat
  | [] => if due then 1 else 0
  | token :: tokens =>
    (if due && !token.beginsOperand then 1 else 0) + missing token.operandDue tokens

theorem surplus_cons_of_due (token : Token) (tokens : List Token) :
    surplus true (token :: tokens) = surplus token.operandDue tokens := by
  simp [surplus]

theorem missing_cons_of_not_due (token : Token) (tokens : List Token) :
    missing false (token :: tokens) = missing token.operandDue tokens := by
  simp [missing]

theorem missing_cons_eq_zero {token : Token} {tokens : List Token} :
    missing true (token :: tokens) = 0 ↔
      token.beginsOperand = true ∧ missing token.operandDue tokens = 0 := by
  grind [missing]

theorem surplus_cons_eq_zero {token : Token} {tokens : List Token} :
    surplus false (token :: tokens) = 0 ↔
      token.beginsOperand = false ∧ surplus token.operandDue tokens = 0 := by
  grind [surplus]

theorem surplus_append (due : Bool) (first second : List Token) :
    surplus due (first ++ second) = surplus due first + surplus (dueAfter due first) second := by
  induction first generalizing due with
  | nil => simp [surplus, dueAfter]
  | cons token first ih => simp [surplus, dueAfter, ih, Nat.add_assoc]

/-- The values exceed the operators by one, by one more for each surplus operand and by one less for
    each missing one. -/
theorem totalWeight_eq {due : Bool} {rest : List Char} {tokens : List Token}
    (h : AllReadable due rest tokens) :
    totalWeight tokens + (if due then 0 else 1) + missing due tokens =
      1 + (surplus due tokens : Int) := by
  induction tokens generalizing due with
  | nil => cases due <;> rfl
  | cons token tokens ih =>
    have rest := ih h.2
    cases token with
    | openParen | closeParen | operator | number =>
      grind [missing, surplus, totalWeight, weight, beginsOperand, operandDue]
    | sign =>
      obtain rfl := h.1.1
      grind [missing, surplus, totalWeight, weight, beginsOperand, operandDue]

end Token

mutual

theorem Operand.surplus_tokens (operand : Operand) : Token.surplus true operand.tokens = 0 := by
  cases operand with
  | literal => rfl
  | group inner =>
    have inside : Token.surplus true (inner.tokens ++ [.closeParen]) = 0 := by
      simp [Token.surplus_append, inner.surplus_tokens, Token.surplus, Token.beginsOperand]
    exact (Token.surplus_cons_of_due _ _).trans inside
  | signed sign operand =>
    have inside := operand.surplus_tokens
    cases operand with
    | literal => rfl
    | group | signed => exact (Token.surplus_cons_of_due _ _).trans inside

theorem Chain.surplus_tokens (chain : Chain) : Token.surplus true chain.tokens = 0 := by
  cases chain with
  | last operand => exact operand.surplus_tokens
  | more operand scaling rest =>
    simp [Chain.tokens, Token.surplus_append, Token.surplus, Token.operandDue, Token.beginsOperand,
      operand.surplus_tokens, rest.surplus_tokens]

theorem Expression.surplus_tokens (expression : Expression) :
    Token.surplus true expression.tokens = 0 := by
  cases expression with
  | chain chain => exact chain.surplus_tokens
  | more before sign chain =>
    simp [Expression.tokens, Token.surplus_append, Token.surplus, Token.operandDue,
      Token.beginsOperand, before.surplus_tokens, chain.surplus_tokens]

end

/-! ## Building the expression -/

/-- Join one more operand to the end of a chain. -/
def Chain.snoc (scaling : Scaling) (operand : Operand) : Chain → Chain
  | .last first => .more first scaling (.last operand)
  | .more first between rest => .more first between (rest.snoc scaling operand)

/-- Change the last chain of an expression. -/
def Expression.mapLast (change : Chain → Chain) : Expression → Expression
  | .chain last => .chain (change last)
  | .more before sign last => .more before sign (change last)

/-- Join one more operand to the end of an expression. -/
def Expression.snoc (expression : Expression) (operand : Operand) : Operator → Expression
  | .add => .more expression .plus (.last operand)
  | .subtract => .more expression .minus (.last operand)
  | .multiply => expression.mapLast (Chain.snoc .times operand)
  | .divide => expression.mapLast (Chain.snoc .dividedBy operand)

theorem Chain.chars_snoc (scaling : Scaling) (operand : Operand) (chain : Chain) :
    (chain.snoc scaling operand).chars =
      chain.chars ++ scaling.operator.symbol :: operand.chars := by
  match chain with
  | .last first => rfl
  | .more first between rest =>
    simp [Chain.snoc, Chain.chars, Chain.chars_snoc scaling operand rest]

theorem Expression.chars_mapLast {change : Chain → Chain} {added : List Char}
    (h : ∀ chain, (change chain).chars = chain.chars ++ added) (expression : Expression) :
    (expression.mapLast change).chars = expression.chars ++ added := by
  cases expression <;> simp [Expression.mapLast, Expression.chars, h]

theorem Expression.chars_snoc (expression : Expression) (operand : Operand)
    (operator : Operator) :
    (expression.snoc operand operator).chars =
      expression.chars ++ operator.symbol :: operand.chars := by
  cases operator with
  | add | subtract => rfl
  | multiply => exact expression.chars_mapLast (Chain.chars_snoc .times operand)
  | divide => exact expression.chars_mapLast (Chain.chars_snoc .dividedBy operand)

/-- What has been read of an expression whose next operand is not complete yet. -/
structure Frame where
  before : Option (Expression × Operator)
  signs : List Sign

namespace Frame

def chars (frame : Frame) : List Char :=
  (match frame.before with
    | none => []
    | some (expression, operator) => expression.chars ++ [operator.symbol]) ++
    frame.signs.map Sign.symbol

/-- What has been read when these parentheses are open, the innermost first. -/
def outerChars : List Frame → List Char
  | [] => []
  | frame :: outer => outerChars outer ++ frame.chars ++ ['(']

/-- The expression that an operand completes. -/
def complete (frame : Frame) (operand : Operand) : Expression :=
  match frame.before with
  | none => .chain (.last (frame.signs.foldr .signed operand))
  | some (expression, operator) =>
    expression.snoc (frame.signs.foldr .signed operand) operator

theorem chars_foldr_signed (signs : List Sign) (operand : Operand) :
    (signs.foldr .signed operand).chars = signs.map Sign.symbol ++ operand.chars := by
  induction signs with
  | nil => rfl
  | cons sign signs ih => simp [Operand.chars, ih]

theorem chars_complete (frame : Frame) (operand : Operand) :
    (frame.complete operand).chars = frame.chars ++ operand.chars := by
  obtain ⟨before, signs⟩ := frame
  cases before with
  | none => simp [complete, chars, Expression.chars, Chain.chars, chars_foldr_signed]
  | some joined => simp [complete, chars, Expression.chars_snoc, chars_foldr_signed]

end Frame

/-- Tokens without a surplus or missing operand, and with partners for all parentheses, complete
    whatever expressions are open before them. -/
theorem Token.exists_expression (tokens : List Token) :
    (∀ frame outer, surplus true tokens = 0 → missing true tokens = 0 →
      Balanced (List.length outer) tokens → ∃ whole : Expression,
        whole.chars = Frame.outerChars outer ++ Frame.chars frame ++ tokens.flatMap Token.chars) ∧
    (∀ expression outer, surplus false tokens = 0 → missing false tokens = 0 →
      Balanced (List.length outer) tokens → ∃ whole : Expression,
        whole.chars = Frame.outerChars outer ++ Expression.chars expression ++
          tokens.flatMap Token.chars) := by
  induction tokens with
  | nil =>
    refine ⟨fun frame outer _ missed => by simp [missing] at missed, ?_⟩
    intro expression outer _ _ balanced
    obtain rfl := List.length_eq_zero_iff.1 balanced
    exact ⟨expression, by simp [Frame.outerChars]⟩
  | cons token tokens ih =>
    obtain ⟨ihDue, ihDone⟩ := ih
    constructor
    · intro frame outer noSurplus noMissing balanced
      rw [surplus_cons_of_due] at noSurplus
      obtain ⟨begins, noMissing⟩ := missing_cons_eq_zero.1 noMissing
      cases token with
      | closeParen | operator => cases begins
      | openParen =>
        obtain ⟨whole, spelled⟩ := ihDue ⟨none, []⟩ (frame :: outer) noSurplus noMissing balanced
        exact ⟨whole, by simp [spelled, Frame.outerChars, Frame.chars, Token.chars]⟩
      | sign sign =>
        obtain ⟨whole, spelled⟩ := ihDue ⟨frame.before, frame.signs ++ [sign]⟩ outer noSurplus
          noMissing balanced
        exact ⟨whole, by simp [spelled, Frame.chars, Token.chars]⟩
      | number sign literal =>
        have operand : ∃ operand : Operand, operand.chars = (number sign literal).chars := by
          cases sign with
          | none => exact ⟨.literal literal, rfl⟩
          | some sign => exact ⟨.signed sign (.literal literal), rfl⟩
        obtain ⟨operand, same⟩ := operand
        obtain ⟨whole, spelled⟩ := ihDone (frame.complete operand) outer noSurplus noMissing
          balanced
        exact ⟨whole, by simp [spelled, Frame.chars_complete, same]⟩
    · intro expression outer noSurplus noMissing balanced
      rw [missing_cons_of_not_due] at noMissing
      obtain ⟨ends, noSurplus⟩ := surplus_cons_eq_zero.1 noSurplus
      cases token with
      | openParen | sign | number => cases ends
      | operator operator =>
        obtain ⟨whole, spelled⟩ := ihDue ⟨some (expression, operator), []⟩ outer noSurplus
          noMissing balanced
        exact ⟨whole, by simp [spelled, Frame.chars, Token.chars]⟩
      | closeParen =>
        cases outer with
        | nil => exact balanced.elim
        | cons frame outer =>
          obtain ⟨whole, spelled⟩ := ihDone (frame.complete (.group expression)) outer noSurplus
            noMissing balanced
          exact ⟨whole, by
            simp [spelled, Frame.outerChars, Frame.chars_complete, Operand.chars, Token.chars]⟩

/-! ## Accepted texts -/

theorem Expression.surplus_tokensOf {expression : Expression} {text : String}
    (h : withoutBlanks text.toList = expression.chars) :
    Token.surplus true (tokensOf text) = 0 := by
  rw [tokensOf, h, expression.scan_chars, Token.map_snd_place]
  exact expression.surplus_tokens

/-- An accepted text falls into tokens to its end, with partners for all parentheses. As many
    operands are missing as begin where none is due, and the text is an infix expression exactly
    when there is no operand of either kind. -/
theorem Precision.spells_expression_iff {precision : Precision} {text : String} {value : Decimal}
    (h : precision.evaluate text = .ok value) :
    (tokensOf text).flatMap Token.chars = withoutBlanks text.toList ∧
      Token.Balanced 0 (tokensOf text) ∧
      Token.surplus true (tokensOf text) = Token.missing true (tokensOf text) ∧
      ((∃ expression : Expression, withoutBlanks text.toList = expression.chars) ↔
        Token.surplus true (tokensOf text) = 0) := by
  obtain ⟨spelled, readable, accepted⟩ := Precision.exec_tokensOf h
  have balanced := balanced_of_conclude accepted
  have equal : Token.surplus true (tokensOf text) = Token.missing true (tokensOf text) := by
    have counted := Token.totalWeight_eq readable
    rw [totalWeight_of_conclude accepted] at counted
    simp at counted
    omega
  refine ⟨spelled, balanced, equal, ?_, ?_⟩
  · rintro ⟨expression, written⟩
    exact expression.surplus_tokensOf written
  · intro noSurplus
    obtain ⟨whole, written⟩ := (Token.exists_expression (tokensOf text)).1 ⟨none, []⟩ []
      noSurplus (equal ▸ noSurplus) balanced
    exact ⟨whole, by simp [← spelled, written, Frame.outerChars, Frame.chars]⟩

theorem Precision.surplus_and_missing_of_product :
    Precision.decimal64.evaluate "(1 + 2) * -3" = .ok ⟨true, 9, 0, by decide, by decide⟩ ∧
      Token.surplus true (tokensOf "(1 + 2) * -3") =
        Token.missing true (tokensOf "(1 + 2) * -3") := by
  have accepted : Precision.decimal64.evaluate "(1 + 2) * -3" =
      .ok ⟨true, 9, 0, by decide, by decide⟩ := by decide +kernel
  exact ⟨accepted, (Precision.spells_expression_iff accepted).2.2.1⟩

/-- The group of `1(*2)` begins where no operand is due, and makes up for the one that the star
    misses on its left. -/
theorem Precision.not_forall_exists_expression :
    ¬ ∀ (precision : Precision) (text : String) (value : Decimal),
      precision.evaluate text = .ok value →
        ∃ expression : Expression, withoutBlanks text.toList = expression.chars := by
  intro spells
  obtain ⟨expression, written⟩ := spells .decimal64 "1(*2)" ⟨false, 2, 0, by decide, by decide⟩
    (by decide +kernel)
  have none := expression.surplus_tokensOf written
  have one : Token.surplus true (tokensOf "1(*2)") = 1 := by decide +kernel
  omega

end Reckoner
