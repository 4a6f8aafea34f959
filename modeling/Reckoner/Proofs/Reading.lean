import Reckoner.Proofs.Acting
import Reckoner.Expression.Basic

/-! # Reading what has been written

A token is read back from its characters where it may stand: a literal in front of a character that
does not continue it, a sign where an operand is due. What is read may stand there, so the tokens of
a text are determined by their characters, and a text that is followed by more keeps its tokens as
long as its last one is complete.
-/

namespace Reckoner

namespace Literal

/-- Whether the characters behind a literal leave it as it is. -/
def EndsBefore (literal : Literal) (rest : List Char) : Prop :=
  ∀ c ∈ rest.head?, Digit.ofChar? c = none ∧ (c = '.' → literal.fraction ≠ none)

theorem startsWith_toChar (digit : Digit) : startsWith digit.toChar = true := by
  simp [startsWith]

theorem startsWith_eq_true_iff {c : Char} :
    startsWith c = true ↔ c = '.' ∨ ∃ digit : Digit, c = digit.toChar := by
  simp only [startsWith, Bool.or_eq_true, beq_iff_eq, Option.isSome_iff_exists]
  constructor
  · rintro (rfl | ⟨digit, shown⟩)
    · exact .inl rfl
    · exact .inr ⟨digit, (Digit.toChar_of_ofChar? shown).symm⟩
  · rintro (rfl | ⟨digit, rfl⟩)
    · exact .inl rfl
    · exact .inr ⟨digit, Digit.ofChar?_toChar digit⟩

theorem startsWith_of_mem_chars {literal : Literal} {c : Char} (h : c ∈ literal.chars) :
    startsWith c = true := by
  rw [startsWith_eq_true_iff]
  simp only [chars, List.mem_append, List.mem_map] at h
  rcases h with ⟨digit, _, rfl⟩ | h
  · exact .inr ⟨digit, rfl⟩
  · cases written : literal.fraction with
    | none => rw [written] at h; cases h
    | some places =>
      rw [written] at h
      rcases List.mem_cons.1 h with rfl | h
      · exact .inl rfl
      · obtain ⟨digit, _, rfl⟩ := List.mem_map.1 h
        exact .inr ⟨digit, rfl⟩

theorem endsBefore_nil (literal : Literal) : literal.EndsBefore [] := by
  simp [EndsBefore]

theorem endsBefore_of_not_startsWith (literal : Literal) {rest : List Char}
    (h : ∀ c ∈ rest.head?, startsWith c = false) : literal.EndsBefore rest := by
  intro c member
  have plain := h c member
  simp only [startsWith, Bool.or_eq_false_iff, beq_eq_false_iff_ne, Option.isSome_eq_false_iff,
    Option.isNone_iff_eq_none] at plain
  exact ⟨plain.2, fun point => absurd point plain.1⟩

theorem takeDigits_map_toChar_append (digits : List Digit) {rest : List Char}
    (h : ∀ c ∈ rest.head?, Digit.ofChar? c = none) :
    takeDigits (digits.map Digit.toChar ++ rest) = (digits, rest) := by
  induction digits with
  | nil =>
    cases rest with
    | nil => rfl
    | cons c rest => simp [takeDigits, h c rfl]
  | cons digit digits ih => simp [takeDigits, ih]

theorem takeDigits_rest (text : List Char) :
    ∀ c ∈ (takeDigits text).2.head?, Digit.ofChar? c = none := by
  induction text with
  | nil => simp [takeDigits]
  | cons c text ih =>
    rw [takeDigits]
    split
    · exact ih
    · next none =>
      intro c' member
      obtain rfl : c = c' := by simpa using member
      exact none

theorem ofParts?_self (literal : Literal) :
    ofParts? literal.whole literal.fraction = some literal := by
  rw [ofParts?, dif_pos literal.hasDigit]

theorem read?_chars_append {literal : Literal} {rest : List Char} (h : literal.EndsBefore rest) :
    read? (literal.chars ++ rest) = some (literal, rest) := by
  have same := ofParts?_self literal
  have front : ∀ c ∈ rest.head?, Digit.ofChar? c = none := fun c member => (h c member).1
  cases written : literal.fraction with
  | none =>
    have split : takeDigits (literal.chars ++ rest) = (literal.whole, rest) := by
      rw [chars, written, List.append_nil]
      exact takeDigits_map_toChar_append _ front
    rw [written] at same
    cases rest with
    | nil => rw [read?, split]; simp [same]
    | cons c rest =>
      have noPoint : c ≠ '.' := fun point => (h c rfl).2 point written
      simp only [read?, split]
      split
      · next equal => exact absurd (List.cons.inj (Prod.mk.inj equal).2).1 noPoint
      · next equal =>
        obtain ⟨rfl, rfl⟩ := Prod.mk.inj equal
        simp [same]
  | some places =>
    have split : takeDigits (literal.chars ++ rest) =
        (literal.whole, '.' :: (places.map Digit.toChar ++ rest)) := by
      rw [chars, written, List.append_assoc]
      exact takeDigits_map_toChar_append _ (by simp; decide)
    rw [written] at same
    simp [read?, split, takeDigits_map_toChar_append places front, same]

theorem endsBefore_of_read? {text rest : List Char} {literal : Literal}
    (h : read? text = some (literal, rest)) : literal.EndsBefore rest := by
  have front := takeDigits_rest text
  unfold read? at h
  split at h
  · next whole more split =>
    have back := takeDigits_rest more
    obtain ⟨made, madeParts, same⟩ := Option.map_eq_some_iff.1 h
    obtain ⟨rfl, rfl⟩ := Prod.mk.inj same
    intro c member
    refine ⟨back c member, fun _ => ?_⟩
    simp [(chars_of_ofParts? madeParts).2]
  · next whole rest' noPoint split =>
    obtain ⟨made, madeParts, same⟩ := Option.map_eq_some_iff.1 h
    obtain ⟨rfl, rfl⟩ := Prod.mk.inj same
    intro c member
    rw [split] at front
    refine ⟨front c member, fun point => ?_⟩
    obtain ⟨more, rfl⟩ := List.head?_eq_some_iff.1 member
    exact absurd (congrArg (· :: more) point) (noPoint more)

end Literal

namespace Token

/-- Whether a token is read as such in front of `rest`, where an operand is due or not. -/
def ReadableBefore (due : Bool) (rest : List Char) : Token → Prop
  | openParen | closeParen => True
  | operator op => due = true → op.sign? = none
  | sign _ => due = true ∧ ∃ c ∈ rest.head?, takesSign c = true
  | number none literal => literal.EndsBefore rest
  | number (some _) literal => due = true ∧ literal.EndsBefore rest

theorem startsWith_symbol (op : Operator) : Literal.startsWith op.symbol = false := by
  cases op <;> rfl

theorem symbol_ne_paren (op : Operator) : op.symbol ≠ '(' ∧ op.symbol ≠ ')' := by
  cases op <;> decide

theorem ne_paren_of_startsWith {c : Char} (h : Literal.startsWith c = true) :
    c ≠ '(' ∧ c ≠ ')' ∧ takesSign c = false ∧ Operator.ofChar? c = none := by
  obtain rfl | ⟨digit, rfl⟩ := Literal.startsWith_eq_true_iff.1 h
  · decide
  · revert digit
    decide

theorem chars_literal_eq_cons (literal : Literal) :
    ∃ c rest, literal.chars = c :: rest ∧ Literal.startsWith c = true := by
  obtain ⟨whole, fraction, hasDigit⟩ := literal
  cases whole with
  | cons digit whole => exact ⟨_, _, rfl, Literal.startsWith_toChar digit⟩
  | nil =>
    cases fraction with
    | none => simp at hasDigit
    | some places => exact ⟨'.', _, rfl, rfl⟩

theorem sign?_operator (s : Sign) : s.operator.sign? = some s := by
  cases s <;> rfl

theorem read_of_readableBefore {token : Token} {due : Bool} {rest : List Char}
    (h : token.ReadableBefore due rest) (position : Nat) :
    ∃ c text, token.chars ++ rest = c :: text ∧ read due position c text = .ok (token, rest) := by
  cases token with
  | openParen => exact ⟨'(', rest, rfl, rfl⟩
  | closeParen => exact ⟨')', rest, rfl, rfl⟩
  | operator op =>
    have noSign : (if due = true then op.sign? else none) = none := by
      split
      · next isDue => exact h isDue
      · rfl
    have noParen := symbol_ne_paren op
    refine ⟨op.symbol, rest, rfl, ?_⟩
    simp [read, noParen.1, noParen.2, startsWith_symbol, noSign]
  | sign s =>
    obtain ⟨isDue, c, member, takes⟩ := h
    obtain ⟨more, rfl⟩ := List.head?_eq_some_iff.1 member
    have noParen := symbol_ne_paren s.operator
    refine ⟨s.symbol, c :: more, rfl, ?_⟩
    simp [read, Sign.symbol, noParen.1, noParen.2, startsWith_symbol, isDue, sign?_operator, takes]
  | number sign literal =>
    obtain ⟨c, more, written, starts⟩ := chars_literal_eq_cons literal
    have noParen := ne_paren_of_startsWith starts
    cases sign with
    | none =>
      have found := Literal.read?_chars_append h
      rw [written, List.cons_append] at found
      refine ⟨c, more ++ rest, by simp [chars, written], ?_⟩
      simp [read, noParen.1, noParen.2.1, starts, found]
    | some s =>
      obtain ⟨isDue, ends⟩ := h
      have found := Literal.read?_chars_append ends
      rw [written, List.cons_append] at found
      have noParen' := symbol_ne_paren s.operator
      refine ⟨s.symbol, c :: (more ++ rest), by simp [chars, written], ?_⟩
      simp [read, Sign.symbol, noParen'.1, noParen'.2, startsWith_symbol, isDue, sign?_operator,
        noParen.2.2.1, found]

theorem readableBefore_of_read {token : Token} {due : Bool} {position : Nat} {c : Char}
    {text rest : List Char} (h : read due position c text = .ok (token, rest)) :
    token.ReadableBefore due rest := by
  unfold read at h
  split at h
  · cases h; trivial
  split at h
  · cases h; trivial
  split at h
  · split at h
    · next literal after found => cases h; exact Literal.endsBefore_of_read? found
    · cases h
  split at h
  · cases h
  next op found =>
  split at h
  · next noSign =>
    cases h
    intro isDue
    simpa [isDue] using noSign
  next s signed =>
  have isDue : due = true := by
    cases due with
    | true => rfl
    | false => simp at signed
  split at h
  · cases h
  next following more =>
  split at h
  · next takes => cases h; exact ⟨isDue, following, rfl, takes⟩
  split at h
  · next literal after found => cases h; exact ⟨isDue, Literal.endsBefore_of_read? found⟩
  · cases h

/-- Whether an operand is due after some tokens, if it was before them. -/
def dueAfter (due : Bool) : List Token → Bool
  | [] => due
  | token :: tokens => dueAfter token.operandDue tokens

/-- Whether each of some tokens is read as such in front of the others and of `rest`. -/
def AllReadable (due : Bool) (rest : List Char) : List Token → Prop
  | [] => True
  | token :: tokens =>
    token.ReadableBefore due (tokens.flatMap chars ++ rest) ∧
      AllReadable token.operandDue rest tokens

/-- Some tokens, each with its offset, when the first stands at `position`. -/
def place (position : Nat) : List Token → List (Nat × Token)
  | [] => []
  | token :: tokens => (position, token) :: place (position + token.chars.length) tokens

@[simp]
theorem map_snd_place (position : Nat) (tokens : List Token) :
    (place position tokens).map (·.2) = tokens := by
  induction tokens generalizing position with
  | nil => rfl
  | cons token tokens ih => simp [place, ih]

@[simp]
theorem dueAfter_append (due : Bool) (first second : List Token) :
    dueAfter due (first ++ second) = dueAfter (dueAfter due first) second := by
  induction first generalizing due with
  | nil => rfl
  | cons token first ih => exact ih _

theorem allReadable_append {due : Bool} {rest : List Char} {first second : List Token} :
    AllReadable due rest (first ++ second) ↔
      AllReadable due (second.flatMap chars ++ rest) first ∧
        AllReadable (dueAfter due first) rest second := by
  induction first generalizing due with
  | nil => simp [AllReadable, dueAfter]
  | cons token first ih => simp [AllReadable, dueAfter, ih, and_assoc]

end Token

namespace Scan

open Token

theorem readFrom_error {due : Bool} {position : Nat} {c : Char} {text : List Char}
    {stop : EvalError} (h : Token.read due position c text = .error stop) :
    readFrom due position (c :: text) = ⟨[], some stop⟩ := by
  rw [readFrom]
  split
  · next error same => rw [h] at same; cases same; rfl
  · next same => rw [h] at same; cases same

theorem readFrom_ok {due : Bool} {position : Nat} {c : Char} {text rest : List Char}
    {token : Token} (h : Token.read due position c text = .ok (token, rest)) :
    readFrom due position (c :: text) =
      ⟨(position, token) ::
          (readFrom token.operandDue (position + token.chars.length) rest).tokens,
        (readFrom token.operandDue (position + token.chars.length) rest).stop⟩ := by
  rw [readFrom]
  split
  · next error same => rw [h] at same; cases same
  · next same => rw [h] at same; cases same; rfl

/-- Tokens that may stand in front of a text are read before it. -/
theorem readFrom_append {due : Bool} {rest : List Char} {tokens : List Token}
    (h : AllReadable due rest tokens) (position : Nat) :
    readFrom due position (tokens.flatMap chars ++ rest) =
      ⟨place position tokens ++ (readFrom (dueAfter due tokens)
          (position + (tokens.flatMap chars).length) rest).tokens,
        (readFrom (dueAfter due tokens)
          (position + (tokens.flatMap chars).length) rest).stop⟩ := by
  induction tokens generalizing due position with
  | nil => rfl
  | cons token tokens ih =>
    obtain ⟨first, others⟩ := h
    obtain ⟨c, text, written, found⟩ := read_of_readableBefore first position
    rw [List.flatMap_cons, List.append_assoc, written, readFrom_ok found, ih others]
    simp [place, dueAfter, Nat.add_assoc]

/-- What stops a reading in front of `rest`, if anything is left there. -/
def StopsBefore (due : Bool) (position : Nat) (stop : Option EvalError) : List Char → Prop
  | [] => stop = none
  | c :: text => ∃ error, Token.read due position c text = .error error ∧ stop = some error

/-- A reading takes tokens that may stand where they do, up to where it stops. -/
theorem readFrom_spec (due : Bool) (position : Nat) (text : List Char) :
    ∃ tokens rest, text = tokens.flatMap chars ++ rest ∧ AllReadable due rest tokens ∧
      (readFrom due position text).tokens = place position tokens ∧
      StopsBefore (dueAfter due tokens) (position + (tokens.flatMap chars).length)
        (readFrom due position text).stop rest := by
  fun_induction readFrom due position text with
  | case1 => exact ⟨[], [], rfl, trivial, rfl, rfl⟩
  | case2 due position c text stop h => exact ⟨[], c :: text, rfl, trivial, rfl, stop, h, rfl⟩
  | case3 due position c text token rest h _ scan ih =>
    obtain ⟨tokens, left, whole, readable, placed, stops⟩ := ih
    refine ⟨token :: tokens, left, ?_, ⟨?_, readable⟩, ?_, ?_⟩
    · rw [List.flatMap_cons, List.append_assoc, ← whole, chars_append_of_read h]
    · rw [← whole]
      exact readableBefore_of_read h
    · rw [place, placed]
    · simpa [dueAfter, Nat.add_assoc] using stops

end Scan

/-- The tokens that are read from a text. -/
def tokensOf (text : String) : List Token :=
  (Scan.ofChars (withoutBlanks text.toList)).tokens.map (·.2)

theorem Precision.exec_tokensOf {precision : Precision} {text : String} {value : Decimal}
    (h : precision.evaluate text = .ok value) :
    (tokensOf text).flatMap Token.chars = withoutBlanks text.toList ∧
      Token.AllReadable true [] (tokensOf text) ∧
      Evaluation.exec precision (tokensOf text) .empty >>= Evaluation.conclude precision none =
        .ok value := by
  cases written : withoutBlanks text.toList with
  | nil =>
    simp only [Precision.evaluate, Precision.trace, Evaluation.run, written] at h
    cases h
  | cons c chars =>
    rw [precision.evaluate_eq_exec written] at h
    obtain ⟨final, acted, ended⟩ := bind_eq_ok_iff.1 h
    have noStop := Evaluation.stop_eq_none_of_conclude precision ended
    obtain ⟨tokens, rest, whole, readable, placed, stops⟩ := Scan.readFrom_spec true 0 (c :: chars)
    have same : tokensOf text = tokens := by
      rw [tokensOf, written, Scan.ofChars, placed, Token.map_snd_place]
    cases rest with
    | cons _ _ =>
      obtain ⟨error, _, stopped⟩ := stops
      exact absurd (noStop.symm.trans stopped) (by simp)
    | nil =>
      rw [same]
      refine ⟨by simpa using whole.symm, readable, ?_⟩
      rw [← same, tokensOf, written, ← noStop]
      exact h

end Reckoner
