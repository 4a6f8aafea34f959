import Reckoner.Proofs.Operating
import Reckoner.Proofs.Tiling

/-! # What errors say about the text

An error about characters is found at the first token that cannot be read, and everything before it
has been read. An error about parentheses is found on the stacks: their markers count the
parentheses that are open in the text read so far, whatever has been applied in between. So each
error says something about the text itself, although operations may fail at any time before.
-/

namespace Reckoner

open Evaluation

variable {precision : Precision}

/-- Whether a character may stand in an expression. -/
def isLegal (c : Char) : Bool :=
  c.isDigit || c ∈ ['.', '+', '-', '*', '/', '(', ')']

/-- What an error says about the text, from which blanks have been removed. An error that comes from
    values says nothing about it. -/
def EvalError.Describes (text : List Char) : EvalError → Prop
  | emptyExpression => text = []
  | illegalCharacter found position =>
    text[position]? = some found ∧ text.findIdx? (fun c => !isLegal c) = some position
  | numberParseFailure position =>
    position < text.length ∧ ∃ run rest, text.drop position = run ++ rest ∧ IsMaximalRun run rest ∧
      (run = ['.'] ∨ run = [] ∧ 0 < position ∧ isSignAt text (position - 1) = true)
  | missingUnaryOperand position =>
    position + 1 = text.length ∧ isSignAt text position = true
  | unmatchedParenthesis => matched 0 text = false
  | divisionByZero | malformedExpression | overflow | underflow => True

/-! ## Characters -/

theorem isSome_digit_iff {c : Char} : (Digit.ofChar? c).isSome = true ↔ c.isDigit = true := by
  have bounds : c.isDigit = true ↔ '0'.toNat ≤ c.toNat ∧ c.toNat ≤ '9'.toNat := by
    simp only [Char.isDigit, Bool.and_eq_true, decide_eq_true_eq]
    rfl
  rw [bounds, Digit.ofChar?]
  split
  · next inside => simp only [Option.isSome_some, inside, and_self]
  · next outside => simp only [Option.isSome_none, Bool.false_eq_true, outside]

theorem isLegal_iff {c : Char} :
    isLegal c = true ↔
      c = '(' ∨ c = ')' ∨ Literal.startsWith c = true ∨ (Operator.ofChar? c).isSome = true := by
  have operator : (Operator.ofChar? c).isSome = true ↔ c = '+' ∨ c = '-' ∨ c = '*' ∨ c = '/' := by
    rw [Option.isSome_iff_exists]
    constructor
    · rintro ⟨operator, found⟩
      obtain rfl := Operator.symbol_of_ofChar? found
      cases operator <;> decide
    · rintro (rfl | rfl | rfl | rfl) <;> exact ⟨_, rfl⟩
  rw [operator, Literal.startsWith, Bool.or_eq_true, isSome_digit_iff, beq_iff_eq]
  simp only [isLegal, Bool.or_eq_true, decide_eq_true_eq, List.mem_cons, List.not_mem_nil, or_false]
  grind

namespace Token

theorem isLegal_of_mem_chars {token : Token} {c : Char} (h : c ∈ token.chars) :
    isLegal c = true := by
  cases token with
  | openParen | closeParen =>
    obtain rfl := List.mem_singleton.1 h
    rfl
  | operator operator =>
    obtain rfl := List.mem_singleton.1 h
    cases operator <;> rfl
  | sign sign =>
    obtain rfl := List.mem_singleton.1 h
    cases sign <;> rfl
  | number sign literal =>
    rw [chars_number, List.mem_append] at h
    rcases h with signed | member
    · obtain ⟨sign, -, rfl⟩ := Option.map_eq_some_iff.1 (Option.mem_toList.1 signed)
      cases sign <;> rfl
    · exact isLegal_iff.2 (.inr (.inr (.inl (Literal.startsWith_of_mem_chars member))))

theorem isLegal_of_mem_flatMap_chars {tokens : List Token} {c : Char}
    (h : c ∈ tokens.flatMap chars) : isLegal c = true := by
  obtain ⟨token, -, member⟩ := List.mem_flatMap.1 h
  exact isLegal_of_mem_chars member

end Token

theorem Literal.isMaximalRun_of_read?_eq_none {text : List Char} (h : read? text = none) :
    (∃ rest, text = '.' :: rest ∧ IsMaximalRun ['.'] rest) ∨
      IsMaximalRun [] text ∧ ∀ c ∈ text.head?, startsWith c = false := by
  obtain ⟨noDigit, behind⟩ := read?_eq_none_iff.1 h
  by_cases point : ∃ rest, text = '.' :: rest
  · obtain ⟨rest, rfl⟩ := point
    refine .inl ⟨rest, rfl, ⟨List.forall_mem_singleton.2 rfl, by decide⟩, ?_⟩
    rintro c member ⟨all, points⟩
    -- No digit stands behind the point, and a second point would be one too many.
    have starts := all c (by simp)
    obtain rfl : c = '.' := by simpa [startsWith, behind rest rfl c member] using starts
    exact absurd points (by decide)
  · have apart (c : Char) (member : c ∈ text.head?) : startsWith c = false := by
      obtain ⟨rest, rfl⟩ := List.head?_eq_some_iff.1 member
      have noPoint : c ≠ '.' := by
        rintro rfl
        exact point ⟨rest, rfl⟩
      simp [startsWith, noDigit c member, noPoint]
    refine .inr ⟨⟨⟨List.forall_mem_nil _, by decide⟩, ?_⟩, apart⟩
    rintro c member ⟨all, -⟩
    have starts := all c (by simp)
    rw [apart c member] at starts
    cases starts

namespace EvalError

theorem describes_illegalCharacter {front rest : List Char} {c : Char}
    (legal : ∀ d ∈ front, isLegal d = true) (illegal : isLegal c = false) :
    (illegalCharacter c front.length).Describes (front ++ c :: rest) := by
  constructor
  · simp
  · have none : front.findIdx? (fun d => !isLegal d) = none := by
      rw [List.findIdx?_eq_none_iff]
      intro d member
      simp [legal d member]
    simp [List.findIdx?_append, none, List.findIdx?_cons, illegal]

theorem describes_numberParseFailure {front text : List Char} (nonempty : text ≠ [])
    (unread : Literal.read? text = none)
    (sign : (∀ c ∈ text.head?, Literal.startsWith c = false) →
      0 < front.length ∧ isSignAt (front ++ text) (front.length - 1) = true) :
    (numberParseFailure front.length).Describes (front ++ text) := by
  constructor
  · have := List.length_pos_iff.2 nonempty
    simp only [List.length_append]
    omega
  · rw [List.drop_left]
    rcases Literal.isMaximalRun_of_read?_eq_none unread with ⟨rest, rfl, maximal⟩ | ⟨maximal, apart⟩
    · exact ⟨['.'], rest, rfl, maximal, .inl rfl⟩
    · exact ⟨[], text, rfl, maximal, .inr ⟨rfl, sign apart⟩⟩

end EvalError

/-- What cannot be read behind some tokens is as the error says. -/
theorem Token.describes_of_read {front : List Token} {c : Char} {text : List Char}
    {error : EvalError}
    (h : read (dueAfter true front) (front.flatMap chars).length c text = .error error) :
    error.Describes (front.flatMap chars ++ c :: text) := by
  have legal : ∀ d ∈ front.flatMap chars, isLegal d = true :=
    fun d member => isLegal_of_mem_flatMap_chars member
  unfold read at h
  split at h
  · cases h
  next notOpen =>
  split at h
  · cases h
  next notClose =>
  split at h
  · next starts =>
    split at h
    · cases h
    next unread =>
    cases h
    refine EvalError.describes_numberParseFailure (by simp) unread fun apart => ?_
    rw [apart c rfl] at starts
    cases starts
  next startsNot =>
  split at h
  · next noOperator =>
    cases h
    refine EvalError.describes_illegalCharacter legal ?_
    rw [← Bool.not_eq_true, isLegal_iff, noOperator]
    simp [notOpen, notClose, startsNot]
  next operator found =>
  split at h
  · cases h
  next sign signed =>
  have due : dueAfter true front = true := by
    by_contra notDue
    simp [notDue] at signed
  rw [if_pos due] at signed
  have written : c = sign.symbol := by
    rw [Sign.symbol, Sign.operator_of_sign? signed, Operator.symbol_of_ofChar? found]
  subst written
  have unary := isSignAt_of_due due sign text
  split at h
  · cases h
    exact ⟨by simp, unary⟩
  next following text =>
  split at h
  · cases h
  split at h
  · cases h
  next unread =>
  cases h
  have described : (EvalError.numberParseFailure
      (front.flatMap chars ++ [sign.symbol]).length).Describes
        (front.flatMap chars ++ [sign.symbol] ++ following :: text) := by
    refine EvalError.describes_numberParseFailure (by simp) unread fun _ => ⟨by simp, ?_⟩
    simpa using unary
  simpa using described

/-! ## Parentheses -/

/-- The causes that are found in values: operations that fail, and values that are left over or
    missing. -/
def EvalError.IsOfValues (error : EvalError) : Prop :=
  error.IsArithmetic ∨ error = .malformedExpression

theorem EvalError.IsOfValues.describes {error : EvalError} (h : error.IsOfValues)
    (text : List Char) : error.Describes text := by
  rcases h with (rfl | rfl | rfl) | rfl <;> trivial

namespace Stacks

theorem isOfValues_of_combine {operator : Operator} {values : List Decimal} {error : EvalError}
    (h : combine precision operator values = .error error) : error.IsOfValues := by
  match values with
  | [] => cases h; exact .inr rfl
  | [_] => cases h; exact .inr rfl
  | right :: left :: values =>
    rcases bind_eq_error_iff.1 h with failed | ⟨value, _, pushed⟩
    · exact .inl (isArithmetic_of_mapError failed fun _ => Precision.error_of_apply)
    · cases pushed

theorem isOfValues_of_foldFor {incoming : Operator} {state : Stacks} {error : EvalError}
    (h : state.foldFor precision incoming = .error error) : error.IsOfValues := by
  obtain ⟨values, pending⟩ := state
  induction pending generalizing values with
  | nil => cases h
  | cons entry pending ih =>
    cases entry with
    | openParen => cases h
    | operator top =>
      by_cases low : top.precedence < incoming.precedence
      · rw [foldFor_of_lt precision low] at h
        cases h
      · rw [foldFor_of_le precision (by omega)] at h
        rcases bind_eq_error_iff.1 h with failed | ⟨combined, _, later⟩
        · exact isOfValues_of_combine failed
        · exact ih combined later

end Stacks

theorem Evaluation.matched_of_act {state acted : Stacks} {token : Token}
    (h : act precision state token = .ok acted) (rest : List Char) :
    matched state.depth (token.chars ++ rest) = matched acted.depth rest := by
  have depth := depth_of_act h
  cases token with
  | openParen =>
    rw [depth]
    rfl
  | closeParen =>
    rw [depth]
    rfl
  | operator | sign | number =>
    rw [depth]
    refine Token.matched_append (fun c member => ⟨fun same => ?_, fun same => ?_⟩) _ _
    · cases (Token.ne_paren_of_mem_chars member).1 same
    · cases (Token.ne_paren_of_mem_chars member).2 same

theorem Evaluation.matched_of_exec {tokens : List Token} {state final : Stacks}
    (h : exec precision tokens state = .ok final) (rest : List Char) :
    matched state.depth (tokens.flatMap Token.chars ++ rest) = matched final.depth rest := by
  induction tokens generalizing state with
  | nil => cases h; rfl
  | cons token tokens ih =>
    rw [exec_cons] at h
    obtain ⟨acted, first, others⟩ := bind_eq_ok_iff.1 h
    rw [List.flatMap_cons, List.append_assoc, matched_of_act first, ih others]

theorem Evaluation.error_of_act {state : Stacks} {token : Token} {error : EvalError}
    (h : act precision state token = .error error) :
    error.IsOfValues ∨
      error = .unmatchedParenthesis ∧ token = .closeParen ∧ state.depth = 0 := by
  cases token with
  | openParen | sign => cases h
  | closeParen =>
    rcases bind_eq_error_iff.1 h with failed | ⟨settled, unwound, refused⟩
    · exact .inl (Stacks.isOfValues_of_foldFor failed)
    right
    obtain ⟨values, pending⟩ := settled
    have depth := (Stacks.foldFor_keeps unwound).2
    rcases Stacks.settle_top unwound with rfl | ⟨others, rfl⟩
    · cases refused
      exact ⟨rfl, rfl, depth.symm⟩
    · cases refused
  | operator operator =>
    rcases bind_eq_error_iff.1 h with failed | ⟨folded, _, pushed⟩
    · exact .inl (Stacks.isOfValues_of_foldFor failed)
    · cases pushed
  | number sign literal =>
    rcases bind_eq_error_iff.1 h with failed | ⟨value, _, pushed⟩
    · refine .inl (.inl (isArithmetic_of_mapError failed fun cause refused => ?_))
      exact .inr (Precision.error_of_ofSigned refused)
    · cases pushed

/-- Where tokens fail for a parenthesis, no text that begins with them is balanced. -/
theorem Evaluation.error_of_exec {tokens : List Token} {state : Stacks} {error : EvalError}
    (h : exec precision tokens state = .error error) (rest : List Char) :
    error.IsOfValues ∨ error = .unmatchedParenthesis ∧
      matched state.depth (tokens.flatMap Token.chars ++ rest) = false := by
  induction tokens generalizing state with
  | nil => cases h
  | cons token tokens ih =>
    rw [exec_cons] at h
    rw [List.flatMap_cons, List.append_assoc]
    rcases bind_eq_error_iff.1 h with failed | ⟨acted, first, later⟩
    · refine (error_of_act failed).imp_right ?_
      rintro ⟨rfl, rfl, closed⟩
      rw [closed]
      exact ⟨rfl, rfl⟩
    · rw [matched_of_act first]
      exact ih later

theorem Evaluation.error_of_conclude {state : Stacks} {error : EvalError}
    (h : conclude precision none state = .error error) :
    error.IsOfValues ∨ error = .unmatchedParenthesis ∧ state.depth ≠ 0 := by
  rcases bind_eq_error_iff.1 h with failed | ⟨settled, unwound, refused⟩
  · exact .inl (Stacks.isOfValues_of_foldFor failed)
  obtain ⟨values, pending⟩ := settled
  have depth := (Stacks.foldFor_keeps unwound).2
  rcases Stacks.settle_top unwound with rfl | ⟨others, rfl⟩
  · match values with
    | [] => cases refused; exact .inl (.inr rfl)
    | [_] => cases refused
    | _ :: _ :: _ => cases refused; exact .inl (.inr rfl)
  · cases refused
    refine .inr ⟨rfl, ?_⟩
    rw [← depth]
    simp [Stacks.depth]

/-! ## Whole texts -/

namespace Precision

theorem describes_of_evaluate {text : String} {error : EvalError}
    (h : precision.evaluate text = .error error) : error.Describes (withoutBlanks text.toList) := by
  cases written : withoutBlanks text.toList with
  | nil =>
    simp only [evaluate, trace, run, written] at h
    cases h
    rfl
  | cons c chars =>
    rw [precision.evaluate_eq_exec written] at h
    obtain ⟨tokens, rest, whole, -, placed, stops⟩ := Scan.readFrom_spec true 0 (c :: chars)
    rw [Scan.ofChars, placed, Token.map_snd_place] at h
    rw [whole]
    rcases bind_eq_error_iff.1 h with failed | ⟨final, acted, ended⟩
    · rcases error_of_exec failed rest with ofValues | ⟨rfl, unbalanced⟩
      · exact ofValues.describes _
      · exact unbalanced
    cases rest with
    | nil =>
      rw [stops] at ended
      rcases error_of_conclude ended with ofValues | ⟨rfl, left⟩
      · exact ofValues.describes _
      · have still := matched_of_exec acted []
        rw [matched, beq_eq_false_iff_ne.2 left] at still
        exact still
    | cons d text =>
      obtain ⟨stop, unread, stopped⟩ := stops
      rw [stopped] at ended
      obtain rfl : stop = error := Except.error.inj ended
      rw [Nat.zero_add] at unread
      exact Token.describes_of_read unread

theorem matched_of_evaluate {text : String} {value : Decimal}
    (h : precision.evaluate text = .ok value) : matched 0 (withoutBlanks text.toList) = true := by
  obtain ⟨spelled, -, accepted⟩ := exec_tokensOf h
  rw [← spelled]
  exact (Token.matched_flatMap_chars 0 _).2 (balanced_of_conclude accepted)

theorem isLegal_of_evaluate {text : String} {value : Decimal}
    (h : precision.evaluate text = .ok value) {c : Char} (member : c ∈ withoutBlanks text.toList) :
    isLegal c = true := by
  obtain ⟨spelled, -, -⟩ := exec_tokensOf h
  rw [← spelled] at member
  exact Token.isLegal_of_mem_flatMap_chars member

/-- What an error says about the text is true, and no text has a value in which a parenthesis lacks
    its partner or a character stands that may not. -/
theorem errors_describe_text (precision : Precision) (text : String) :
    let chars := withoutBlanks text.toList
    (∀ error, precision.evaluate text = .error error → error.Describes chars) ∧
    (matched 0 chars = false ∨ (∃ c ∈ chars, isLegal c = false) →
      ∃ error, precision.evaluate text = .error error) := by
  intro chars
  refine ⟨fun error failed => describes_of_evaluate failed, fun wrong => ?_⟩
  cases outcome : precision.evaluate text with
  | error error => exact ⟨error, rfl⟩
  | ok value =>
    exfalso
    rcases wrong with unmatched | ⟨c, member, illegal⟩
    · rw [matched_of_evaluate outcome] at unmatched
      cases unmatched
    · rw [isLegal_of_evaluate outcome member] at illegal
      cases illegal

/-- A sign has no number behind it, and a parenthesis stays open. -/
theorem errors_describe_text_negated_paren :
    decimal64.evaluate "2 * -)" = .error (.numberParseFailure 3) ∧
    (EvalError.numberParseFailure 3).Describes ['2', '*', '-', ')'] ∧
    matched 0 ['(', '1'] = false ∧ ∃ error, decimal64.evaluate "( 1" = .error error := by
  have unread : decimal64.evaluate "2 * -)" = .error (.numberParseFailure 3) := by decide +kernel
  have opened : matched 0 ['(', '1'] = false := rfl
  refine ⟨unread, ?_, opened, ?_⟩
  · exact (decimal64.errors_describe_text "2 * -)").1 _ unread
  · exact (decimal64.errors_describe_text "( 1").2 (.inl opened)

end Precision

end Reckoner
