import Reckoner.Proofs.Likeness
import Reckoner.Proofs.ReadBack
import Reckoner.Proofs.Surroundings

/-! # Signs that wait for their operand

A sign in front of a group or of another sign leaves a zero and an operator on the stacks. The
operator is of the lowest precedence, so whatever unwinds down to the nearest parenthesis applies
it, and a `*` or `/` does not. Settled signs have given the operand's value the sign it should have,
written as normalized decimals are.
-/

namespace Reckoner

open Evaluation

variable {precision : Precision}

namespace Stacks

def push (state : Stacks) (value : Decimal) : Stacks :=
  ⟨value :: state.values, state.pending⟩

theorem push_alike (state : Stacks) {first second : Decimal} (h : first.Alike second) :
    (state.push first).Alike (state.push second) :=
  ⟨.cons h (Alike.refl state).1, rfl⟩

/-- Let signs wait, the last one on top. -/
def await (state : Stacks) : List Sign → Stacks
  | [] => state
  | sign :: signs =>
    await ⟨.zero :: state.values, .operator sign.operator :: state.pending⟩ signs

theorem await_append (state : Stacks) (first second : List Sign) :
    state.await (first ++ second) = (state.await first).await second := by
  induction first generalizing state with
  | nil => rfl
  | cons sign first ih => exact ih _

theorem exists_await_eq {waiting : List Sign} (h : waiting ≠ []) (state : Stacks) :
    ∃ sign values pending,
      state.await waiting = ⟨.zero :: values, .operator (Sign.operator sign) :: pending⟩ := by
  rcases List.eq_nil_or_concat waiting with none | ⟨front, last, rfl⟩
  · exact absurd none h
  · rw [List.concat_eq_append, await_append]
    exact ⟨last, _, _, rfl⟩

theorem settle_await {waiting : List Sign} {inner : Decimal} (h : waiting ≠ [])
    (kept : precision.Keeps inner) (state : Stacks) :
    ((state.await waiting).push inner).settle precision =
      (state.push (waiting.foldr Sign.on inner).normalize).settle precision := by
  have applies (sign : Sign) {value : Decimal} (kept : precision.Keeps value)
      (values : List Decimal) (pending : List Pending) :
      settle precision ⟨value :: .zero :: values, .operator sign.operator :: pending⟩ =
        settle precision ⟨(sign.on value).normalize :: values, pending⟩ := by
    rw [settle_operator, combine, Precision.operate, Precision.apply_zero kept]
    rfl
  induction waiting generalizing state with
  | nil => exact absurd rfl h
  | cons sign signs ih =>
    cases signs with
    | nil => exact applies sign kept _ _
    | cons second signs =>
      rw [await, ih (by simp)]
      refine (applies sign (kept.foldr_on (second :: signs)).normalize _ _).trans ?_
      rw [Sign.normalize_on_normalize]
      rfl

end Stacks

open Stacks

theorem exec_map_sign (signs : List Sign) (state : Stacks) :
    exec precision (signs.map .sign) state = .ok (state.await signs) := by
  induction signs generalizing state with
  | nil => rfl
  | cons sign signs ih =>
    rw [List.map_cons, exec_cons, act, ok_bind, ih]
    rfl

/-- A sign directly before a literal may leave a zero with a minus sign. -/
theorem Sign.on_alike_normalize (sign : Sign) {value : Decimal}
    (normalized : value.normalize = value) : (sign.on value).Alike (sign.on value).normalize := by
  cases zero : value.isZero with
  | true =>
    have signed : (sign.on value).isZero = true := by rw [sign.on_isZero, zero]
    right
    rw [Decimal.normalize_of_isZero signed]
    exact ⟨signed, rfl⟩
  | false =>
    left
    exact (sign.normalize_on_of_normalize_eq normalized zero).symm

/-! ## Operands with signs -/

/-- Whether a text is one literal that the next character does not continue. -/
def IsLiteralBefore (next : Option Char) (text : List Char) : Prop :=
  ∃ literal : Literal, text = literal.chars ∧ literal.EndsBefore next.toList

theorem tokensOf_of_literal {text : String} {literal : Literal}
    (h : withoutBlanks text.toList = literal.chars) :
    tokensOf text = [.number none literal] := by
  have readable : Token.AllReadable true [] [.number none literal] :=
    ⟨literal.endsBefore_nil, trivial⟩
  have whole := Scan.readFrom_append readable 0
  simp only [List.flatMap_singleton, List.append_nil, Token.chars] at whole
  rw [tokensOf, h, Scan.ofChars, whole]
  simp [Scan.readFrom, Token.place]

theorem ofLiteral_of_evaluate {text : String} {literal : Literal} {value : Decimal}
    (h : withoutBlanks text.toList = literal.chars) (alone : precision.evaluate text = .ok value) :
    precision.ofLiteral literal = .ok value := by
  obtain ⟨-, -, accepted⟩ := Precision.exec_tokensOf alone
  rw [tokensOf_of_literal h, exec_singleton] at accepted
  obtain ⟨state, acted, concluded⟩ := bind_eq_ok_iff.1 accepted
  obtain ⟨read, made, pushed⟩ := bind_eq_ok_iff.1 acted
  cases pushed
  cases concluded
  rw [← Precision.ofSigned_none]
  exact mapError_eq_ok_iff.1 made

/-- What some signs and the operand behind them do to the stacks: `waiting` are the signs that are
    not part of a number, and `inner` is the value above them. -/
structure SignedTokens (precision : Precision) (next : Option Char) (text : List Char)
    (tokens : List Token) (waiting : List Sign) (inner : Decimal) : Prop where
  spelled : tokens.flatMap Token.chars = text
  readable : ∀ rest : List Char, rest.head? = next → Token.AllReadable true rest tokens
  ended : Token.dueAfter true tokens = false
  acts : ∀ state : Stacks,
    exec precision tokens state = .ok ((state.await waiting).push inner)
  keeps : precision.Keeps inner

theorem allReadable_map_sign {signs : List Sign} {due : Bool} {c : Char} {rest : List Char}
    (h : Token.takesSign c = true) (start : signs ≠ [] → due = true) :
    Token.AllReadable due (c :: rest) (signs.map .sign) := by
  induction signs generalizing due with
  | nil => trivial
  | cons sign signs ih =>
    refine ⟨⟨start (by simp), ?_⟩, ih fun _ => rfl⟩
    cases signs with
    | nil => exact ⟨c, rfl, h⟩
    | cons second signs => exact ⟨second.symbol, rfl, by cases second <;> rfl⟩

theorem flatMap_chars_map_sign (signs : List Sign) :
    (signs.map Token.sign).flatMap Token.chars = signs.map Sign.symbol := by
  induction signs with
  | nil => rfl
  | cons sign signs ih => rw [List.map_cons, List.flatMap_cons, ih]; rfl

theorem dueAfter_map_sign (signs : List Sign) : Token.dueAfter true (signs.map .sign) = true := by
  induction signs with
  | nil => rfl
  | cons sign signs ih => exact ih

/-- The last sign in front of a literal is part of the number, and all others wait. -/
theorem signedTokens_literal {next : Option Char} {literal : Literal} {value : Decimal}
    (ends : literal.EndsBefore next.toList) (h : precision.ofLiteral literal = .ok value)
    (signs : List Sign) (sign : Sign) :
    SignedTokens precision next ((signs ++ [sign]).map Sign.symbol ++ literal.chars)
      (signs.map .sign ++ [.number (some sign) literal]) signs (sign.on value) where
  spelled := by
    rw [List.flatMap_append, flatMap_chars_map_sign]
    simp [Token.chars]
  readable rest same := by
    have ends' : literal.EndsBefore rest := by
      intro c member
      exact ends c (by rw [← same, member]; rfl)
    refine Token.allReadable_append.2 ⟨?_, ⟨dueAfter_map_sign signs, ends'⟩, trivial⟩
    have takes : Token.takesSign sign.symbol = true := by cases sign <;> rfl
    exact allReadable_map_sign takes fun _ => rfl
  ended := by simp [Token.dueAfter, Token.operandDue]
  acts state := by
    rw [exec_append, exec_map_sign, ok_bind, exec_singleton, act,
      Precision.ofSigned_some h]
    rfl
  keeps := (keeps_of_ofLiteral h).1.on sign

theorem signedTokens_group {next : Option Char} {text : List Char} {tokens : List Token}
    {value : Decimal} (group : ReadsAsGroup precision text tokens value) (signs : List Sign) :
    SignedTokens precision next (signs.map Sign.symbol ++ text)
      (signs.map .sign ++ (.openParen :: tokens ++ [.closeParen])) signs value where
  spelled := by
    rw [List.flatMap_append, flatMap_chars_map_sign, group.spelled]
  readable rest _ :=
    Token.allReadable_append.2 ⟨allReadable_map_sign rfl fun _ => rfl, group.readable _ rest⟩
  ended := by simp [Token.dueAfter, Token.operandDue]
  acts state := by
    rw [exec_append, exec_map_sign, ok_bind, group.yields.acts]
    rfl
  keeps := group.yields.keeps

theorem readsAsGroup_plain {value : Decimal} (kept : precision.Keeps value) :
    ReadsAsGroup precision ('(' :: value.plain.toList ++ [')']) [value.normalize.token]
      value.normalize where
  spelled := value.flatMap_chars_plain
  readable := by
    have inside : Token.AllReadable true [')'] [value.normalize.token] :=
      value.normalize.allReadable_token (by simp; decide)
    exact Token.allReadable_parens inside
  yields := by
    refine ⟨fun state => ?_, kept.normalize⟩
    have read := Precision.exec_token kept.normalize value.normalize_normalize
    rw [List.cons_append, exec_cons, act, ok_bind, List.cons_append, exec_cons, read, ok_bind,
      List.nil_append, exec_singleton]
    rfl

theorem signedTokens_plain (next : Option Char) {value : Decimal} (kept : precision.Keeps value) :
    SignedTokens precision next ('(' :: value.plain.toList ++ [')'])
      [.openParen, value.normalize.token, .closeParen] [] value.normalize :=
  signedTokens_group (readsAsGroup_plain kept) []

end Reckoner
