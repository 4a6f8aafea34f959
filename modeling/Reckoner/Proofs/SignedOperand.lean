import Reckoner.Proofs.Signs

/-! # When a signed operand is one operand

A sign waits on the stack of operators, where what follows its operand may get in between. An
operand with signs can be replaced by its value in all surroundings exactly when no sign waits or
when the next character unwinds the waiting signs before anything else happens to the value.
-/

namespace Reckoner

open Evaluation Stacks

variable {precision : Precision}

/-- What is seen of an evaluation: the number it comes to or the kind of its error. -/
def seen (outcome : Except EvalError Decimal) : Except String Rat :=
  (outcome.map Decimal.toRat).mapError EvalError.kind

theorem seen_bind_congr {outcome : Except EvalError Stacks}
    {first second : Stacks → Except EvalError Decimal}
    (h : ∀ state, seen (first state) = seen (second state)) :
    seen (outcome >>= first) = seen (outcome >>= second) := by
  cases outcome with
  | error cause => rfl
  | ok state => exact h state

theorem Follows.seen_eq {first second : Except EvalError Decimal}
    (h : Follows Decimal.Alike first second) : seen first = seen second := by
  cases h with
  | ok alike => exact congrArg Except.ok alike.toRat_eq
  | error cause => rfl

/-- How an evaluation goes on from some stacks with the rest of a text. -/
def goOn (precision : Precision) (due : Bool) (position : Nat) (rest : List Char)
    (state : Stacks) : Except EvalError Decimal :=
  exec precision ((Scan.readFrom due position rest).tokens.map (·.2)) state >>=
    conclude precision (Scan.readFrom due position rest).stop

theorem evaluate_eq_goOn {text : String} (h : withoutBlanks text.toList ≠ []) :
    precision.evaluate text = goOn precision true 0 (withoutBlanks text.toList) .empty := by
  obtain ⟨c, chars, written⟩ := List.exists_cons_of_ne_nil h
  rw [precision.evaluate_eq_exec written, written]
  rfl

theorem goOn_append {due : Bool} {rest : List Char} {tokens : List Token}
    (h : Token.AllReadable due rest tokens) (position : Nat) (state : Stacks) :
    goOn precision due position (tokens.flatMap Token.chars ++ rest) state =
      exec precision tokens state >>= goOn precision (Token.dueAfter due tokens)
        (position + (tokens.flatMap Token.chars).length) rest := by
  rw [goOn, Scan.readFrom_append h, List.map_append, Token.map_snd_place, exec_append, bind_assoc]
  rfl

theorem seen_goOn_position (due : Bool) (position position' : Nat) (rest : List Char)
    (state : Stacks) :
    seen (goOn precision due position rest state) =
      seen (goOn precision due position' rest state) := by
  obtain ⟨tokens, stop⟩ := Scan.readFrom_position due position position' rest
  rw [goOn, goOn, tokens]
  refine seen_bind_congr fun final => ?_
  revert stop
  generalize (Scan.readFrom due position rest).stop = stop
  generalize (Scan.readFrom due position' rest).stop = stop'
  intro same
  cases stop with
  | none =>
    cases stop' with
    | none => rfl
    | some error => cases same
  | some error =>
    cases stop' with
    | none => cases same
    | some error' => exact congrArg Except.error (Option.some.inj same)

theorem SignedTokens.ne_nil {next : Option Char} {text : List Char} {tokens : List Token}
    {waiting : List Sign} {inner : Decimal}
    (h : SignedTokens precision next text tokens waiting inner) : text ≠ [] := by
  cases tokens with
  | nil => cases h.ended
  | cons token tokens =>
    rw [← h.spelled, List.flatMap_cons]
    simp [token.chars_ne_nil]

theorem seen_goOn_alike {first second : Stacks} (h : first.Alike second) (due : Bool)
    (position : Nat) (rest : List Char) :
    seen (goOn precision due position rest first) =
      seen (goOn precision due position rest second) := by
  have acted := exec_alike precision ((Scan.readFrom due position rest).tokens.map (·.2)) h
  have ended := acted.bind fun _ _ alike =>
    conclude_alike precision (Scan.readFrom due position rest).stop alike
  exact ended.seen_eq

theorem seen_evaluate_congr {before operand operand' after : List Char} {text text' : String}
    {tokens tokens' : List Token} {waiting waiting' : List Sign} {inner inner' : Decimal}
    (position : OperandPosition before)
    (written : withoutBlanks text.toList = before ++ (operand ++ after))
    (written' : withoutBlanks text'.toList = before ++ (operand' ++ after))
    (first : SignedTokens precision after.head? operand tokens waiting inner)
    (second : SignedTokens precision after.head? operand' tokens' waiting' inner')
    (h : ∀ state position, seen (goOn precision false position after
        ((await state waiting).push inner)) =
      seen (goOn precision false position after ((await state waiting').push inner'))) :
    seen (precision.evaluate text) = seen (precision.evaluate text') := by
  rw [evaluate_eq_goOn (by simp [written, first.ne_nil]),
    evaluate_eq_goOn (by simp [written', second.ne_nil]), written, written']
  rcases readFrom_front position with ⟨front, rfl, due, readable⟩ | ⟨front, error, stopped⟩
  · rw [goOn_append (readable _), goOn_append (readable _), due, ← first.spelled,
      ← second.spelled]
    refine seen_bind_congr fun state => ?_
    rw [goOn_append (first.readable after rfl), goOn_append (second.readable after rfl),
      first.ended, second.ended, first.acts, second.acts, ok_bind, ok_bind, h]
    exact seen_goOn_position ..
  · simp only [Scan.ofChars] at stopped
    rw [goOn, goOn, stopped, stopped]

/-- Whether a character behind an operand, if there is one, unwinds what waits for the operand. -/
def Detaches (next : Option Char) : Prop :=
  ∀ c ∈ next, c ∉ ['*', '/', '('] ∧ Literal.startsWith c = false

/-- Where the next character unwinds, it does not matter what it has to unwind. -/
theorem goOn_eq_of_settle_eq {first second : Stacks}
    (h : first.settle precision = second.settle precision) {rest : List Char}
    (detaches : Detaches rest.head?) (position : Nat) :
    goOn precision false position rest first = goOn precision false position rest second := by
  cases rest with
  | nil =>
    simp only [goOn, Scan.readFrom, List.map_nil, exec_nil, ok_bind, conclude, h]
  | cons c text =>
    obtain ⟨apart, noLiteral⟩ := detaches c rfl
    simp only [List.mem_cons, List.not_mem_nil, or_false, not_or] at apart
    obtain ⟨noTimes, noDivide, noOpen⟩ := apart
    by_cases shut : c = ')'
    · have read : Token.read false position c text = .ok (.closeParen, text) := by
        rw [shut]
        rfl
      simp only [goOn, Scan.readFrom_ok read, List.map_cons, exec_cons, act, h]
    cases found : Operator.ofChar? c with
    | none =>
      have read : Token.read false position c text =
          .error (.illegalCharacter c position) := by
        simp [Token.read, noOpen, shut, noLiteral, found]
      simp only [goOn, Scan.readFrom_error read, List.map_nil, exec_nil, ok_bind, conclude]
    | some op =>
      have read : Token.read false position c text = .ok (.operator op, text) := by
        simp [Token.read, noOpen, shut, noLiteral, found]
      have symbol := Operator.symbol_of_ofChar? found
      have low : op.precedence = Operator.add.precedence := by
        cases op with
        | add | subtract => rfl
        | multiply => exact absurd symbol.symm noTimes
        | divide => exact absurd symbol.symm noDivide
      have same : ∀ state, foldFor precision op state = settle precision state :=
        foldFor_congr precision low
      simp only [goOn, Scan.readFrom_ok read, List.map_cons, exec_cons, act, same, h]

/-- Whether a text is one operand in front of a character: a literal that is not continued, or a
    group. -/
def IsOperandBefore (next : Option Char) (text : List Char) : Prop :=
  IsLiteralBefore next text ∨ IsGroup text

theorem exists_signedTokens {signs : List Sign} (nonempty : signs ≠ []) {operand : String}
    {value : Decimal} {next : Option Char}
    (complete : IsOperandBefore next (withoutBlanks operand.toList))
    (alone : precision.evaluate operand = .ok value) :
    ∃ tokens waiting inner,
      SignedTokens precision next (signs.map Sign.symbol ++ withoutBlanks operand.toList) tokens
        waiting inner ∧
      waiting.foldr Sign.on inner = signs.foldr Sign.on value ∧
      (waiting = [] → inner.Alike inner.normalize) ∧
      (waiting = [] ↔
        signs.length = 1 ∧ ∃ literal : Literal, withoutBlanks operand.toList = literal.chars) := by
  rcases complete with ⟨literal, written, ends⟩ | group
  · have read := ofLiteral_of_evaluate written alone
    rcases List.eq_nil_or_concat signs with none | ⟨front, last, rfl⟩
    · exact absurd none nonempty
    rw [List.concat_eq_append, written]
    refine ⟨_, front, last.on value, signedTokens_literal ends read front last, ?_, ?_, ?_⟩
    · rw [List.foldr_append]
      rfl
    · intro _
      exact last.on_alike_normalize (keeps_of_ofLiteral read).2
    · simp
  · obtain ⟨tokens, read⟩ := exists_readsAsGroup_of_isGroup group alone
    refine ⟨_, signs, value, signedTokens_group read signs, rfl,
      fun none => absurd none nonempty, ?_⟩
    refine iff_of_false nonempty ?_
    rintro ⟨-, literal, written⟩
    obtain ⟨inner, spelled, -⟩ := group
    obtain ⟨c, rest, chars, starts⟩ := Token.chars_literal_eq_cons literal
    rw [written, chars] at spelled
    obtain ⟨rfl, -⟩ := List.cons.inj spelled
    cases starts

/-! ## Surroundings in which a waiting sign is seen -/

theorem exec_stars {values : List Decimal} {pending : List Pending}
    (stays : ∀ values, foldFor precision .multiply ⟨values, pending⟩ = .ok ⟨values, pending⟩)
    (count : Nat) :
    exec precision (List.replicate count (.operator .multiply))
        ⟨.zero :: values, .operator .multiply :: pending⟩ =
      if count ≤ values.length then
        .ok ⟨.zero :: values.drop count, .operator .multiply :: pending⟩
      else .error .malformedExpression := by
  induction count generalizing values with
  | zero => rfl
  | succ count ih =>
    have same : Operator.multiply.precedence ≤ Operator.multiply.precedence := Nat.le_refl _
    rw [List.replicate_succ, exec_cons, act, foldFor_of_le precision same]
    cases values with
    | nil => rfl
    | cons value values =>
      have product : precision.apply .multiply value .zero = .ok .zero :=
        precision.mul_of_isZero (.inr rfl)
      rw [combine, Precision.operate, product]
      simp only [mapError_ok, ok_bind, stays, ih, List.length_cons, List.drop_succ_cons,
        Nat.add_le_add_iff_right]

theorem exists_literal (precision : Precision) {c : Char} (h : Literal.startsWith c = true) :
    ∃ literal : Literal, literal.chars.head? = some c ∧ literal.EndsBefore ['('] ∧
      ∃ value, precision.ofLiteral literal = .ok value := by
  obtain rfl | ⟨digit, rfl⟩ := Literal.startsWith_eq_true_iff.1 h
  · let nought : Literal := ⟨[], some [0], by decide⟩
    have kept : precision.Keeps ⟨false, 0, 1, by decide, by decide⟩ := ⟨0, 0, rfl, tenPow_pos _⟩
    have shallow : nought.isTooSmall precision.digits = false :=
      Literal.isTooSmall_eq_false (by decide) _
    have stored : nought.stored? = some ⟨false, 0, 1, by decide, by decide⟩ := by decide
    refine ⟨nought, rfl, nought.endsBefore_of_not_startsWith (by simp; decide),
      Decimal.normalize ⟨false, 0, 1, by decide, by decide⟩, ?_⟩
    rw [Precision.ofLiteral, shallow, stored]
    exact Precision.round_of_keeps kept
  · have small := digit.isLt
    have room : digit.val < mantissaLimit := by
      unfold mantissaLimit
      omega
    let value : Decimal := ⟨false, digit.val, 0, room, by decide⟩
    have few : digit.val < tenPow precision.digits := by
      have least := tenPow_le_tenPow precision.digits_pos
      rw [tenPow_succ, tenPow_zero] at least
      omega
    have kept : precision.Keeps value := ⟨digit.val, 0, (Nat.mul_one _).symm, few⟩
    have shown : value.literal.chars.head? = some digit.toChar := by
      have single : ∀ digit : Digit, Digits.ofNat digit.val = [digit] := by decide +kernel
      have whole : value.literal.whole = [digit] := by
        show Digits.ofNat (digit.val / 1) = [digit]
        rw [Nat.div_one, single]
      rw [Literal.chars, whole]
      rfl
    exact ⟨value.literal, shown, value.literal.endsBefore_of_not_startsWith (by simp; decide), _,
      Precision.ofLiteral_literal kept rfl⟩

theorem exec_zero (state : Stacks) :
    exec precision [.openParen, Decimal.zero.token, .closeParen] state =
      .ok (state.push .zero) := by
  have kept : precision.Keeps .zero := Precision.keeps_zero
  have read := Precision.exec_token kept rfl
  rw [exec_cons, act, ok_bind, exec_cons, read, ok_bind, exec_singleton]
  rfl

/-- Tokens that tell whether a sign waits below a value: they take one value more than there is
    without it, and never too many with it. -/
structure Telling (precision : Precision) (tokens : List Token) : Prop where
  readable : Token.AllReadable false ['x'] tokens
  alone : ∀ value, exec precision tokens ⟨[value], []⟩ = .error .malformedExpression
  awaited : ∀ inner values sign pending error, exec precision tokens
    ⟨inner :: .zero :: values, .operator (Sign.operator sign) :: pending⟩ = .error error →
      error = .divisionByZero

theorem foldFor_sign {incoming : Operator} (h : incoming.precedence = 2) (sign : Sign)
    (values : List Decimal) (pending : List Pending) :
    foldFor precision incoming ⟨values, .operator sign.operator :: pending⟩ =
      .ok ⟨values, .operator sign.operator :: pending⟩ :=
  foldFor_of_lt precision (by rw [h]; cases sign <;> decide) _ _

theorem operate_zero {operator : Operator} (h : operator.precedence = 2) (value : Decimal) :
    precision.operate operator .zero value = .ok .zero ∨
      precision.operate operator .zero value = .error .divisionByZero := by
  cases operator with
  | add | subtract => cases h
  | multiply =>
    left
    have zero : Decimal.zero.isZero = true := rfl
    have product : precision.mul .zero value = .ok .zero := precision.mul_of_isZero (.inl zero)
    rw [Precision.operate, Precision.apply, product]
    rfl
  | divide =>
    cases divisor : value.isZero with
    | true =>
      right
      have quotient : precision.apply .divide .zero value = .error .divisionByZero := by
        rw [Precision.apply, Precision.div, if_pos divisor]
      rw [Precision.operate, quotient]
      rfl
    | false =>
      left
      have zero : Decimal.zero.isZero = true := rfl
      have quotient : precision.apply .divide .zero value = .ok .zero :=
        precision.div_of_isZero zero divisor
      rw [Precision.operate, quotient]
      rfl

theorem telling_scaling {operator : Operator} (h : operator.precedence = 2) :
    Telling precision [.operator operator, .operator .multiply] where
  readable := ⟨fun due => absurd due Bool.false_ne_true, fun _ => rfl, trivial⟩
  alone value := by
    have same : Operator.multiply.precedence ≤ operator.precedence := Nat.le_of_eq h.symm
    rw [exec_cons, act, foldFor_nil, ok_bind, ok_bind, exec_singleton, act,
      foldFor_of_le precision same]
    rfl
  awaited inner values sign pending error failed := by
    have same : Operator.multiply.precedence ≤ operator.precedence := Nat.le_of_eq h.symm
    rw [exec_cons, act, foldFor_sign h, ok_bind, ok_bind, exec_singleton, act,
      foldFor_of_le precision same, combine] at failed
    rcases operate_zero h inner with product | refused
    · have scales : Operator.multiply.precedence = 2 := rfl
      rw [product, ok_bind, ok_bind, foldFor_sign scales] at failed
      cases failed
    · rw [refused] at failed
      cases failed
      rfl

theorem allReadable_stars (due : Bool) (rest : List Char) (count : Nat) :
    Token.AllReadable due rest (List.replicate count (.operator .multiply)) := by
  induction count generalizing due with
  | zero => trivial
  | succ count ih => exact ⟨fun _ => rfl, ih true⟩

theorem telling_head {head : List Token} {values : List Decimal}
    (readable : Token.AllReadable false ['('] head)
    (acts : ∀ state : Stacks,
      exec precision head state = .ok ⟨values ++ state.values, state.pending⟩) :
    Telling precision (head ++ ([.openParen, Decimal.zero.token, .closeParen] ++
      List.replicate (values.length + 3) (.operator .multiply))) := by
  have runs {pending : List Pending} (stays : ∀ values,
      foldFor precision .multiply ⟨values, pending⟩ = .ok ⟨values, pending⟩)
      (below : List Decimal) :
      exec precision (head ++ ([.openParen, Decimal.zero.token, .closeParen] ++
        List.replicate (values.length + 3) (.operator .multiply))) ⟨below, pending⟩ =
      if values.length + 2 ≤ (values ++ below).length then
        .ok ⟨.zero :: (values ++ below).drop (values.length + 2),
          .operator .multiply :: pending⟩
      else .error .malformedExpression := by
    rw [exec_append, acts, ok_bind, exec_append, exec_zero, ok_bind, List.replicate_succ, exec_cons,
      act, push, stays, ok_bind, ok_bind]
    exact exec_stars stays _
  refine ⟨?_, ?_, ?_⟩
  · refine Token.allReadable_append.2 ⟨readable.of_head?_eq rfl, ?_⟩
    refine ⟨trivial, ?_, trivial, allReadable_stars _ _ _⟩
    exact Decimal.zero.literal.endsBefore_of_not_startsWith (by simp [Token.chars]; decide)
  · intro value
    rw [runs fun _ => rfl, if_neg]
    simp
  · intro inner below sign pending error failed
    rw [runs (foldFor_sign rfl sign · pending), if_pos] at failed
    · cases failed
    · simp

/-- Tokens that tell a waiting sign begin with every character that may get in between. -/
theorem exists_telling (precision : Precision) {c : Char}
    (h : c ∈ ['*', '/', '('] ∨ Literal.startsWith c = true) :
    ∃ tokens, (tokens.flatMap Token.chars).head? = some c ∧ Telling precision tokens := by
  rcases h with member | starts
  · simp only [List.mem_cons, List.not_mem_nil, or_false] at member
    rcases member with rfl | rfl | rfl
    · exact ⟨[.operator .multiply, .operator .multiply], rfl, telling_scaling rfl⟩
    · exact ⟨[.operator .divide, .operator .multiply], rfl, telling_scaling rfl⟩
    · have none : Token.AllReadable false ['('] [] := trivial
      have nothing : ∀ state : Stacks,
          exec precision [] state = .ok ⟨[] ++ state.values, state.pending⟩ := fun _ => rfl
      exact ⟨_, rfl, telling_head none nothing⟩
  · obtain ⟨literal, shown, ends, value, read⟩ := exists_literal precision starts
    have readable : Token.AllReadable false ['('] [.number none literal] := ⟨ends, trivial⟩
    have acts : ∀ state : Stacks, exec precision [.number none literal] state =
        .ok ⟨[value] ++ state.values, state.pending⟩ := by
      intro state
      rw [exec_singleton, act, Precision.ofSigned_none, read]
      rfl
    refine ⟨_, ?_, telling_head readable acts⟩
    obtain ⟨more, written⟩ := List.head?_eq_some_iff.1 shown
    simp [Token.chars, written]

theorem goOn_illegal (due : Bool) (position : Nat) (state : Stacks) :
    goOn precision due position ['x'] state = .error (.illegalCharacter 'x' position) := by
  have unread : Token.read due position 'x' [] = .error (.illegalCharacter 'x' position) := rfl
  simp only [goOn, Scan.readFrom_error unread, List.map_nil, exec_nil, ok_bind, conclude]

/-- Behind a telling text a waiting sign is seen. -/
theorem seen_goOn_ne {tokens : List Token} (telling : Telling precision tokens)
    {waiting : List Sign} (nonempty : waiting ≠ []) (inner value : Decimal) (position : Nat) :
    seen (goOn precision false position (tokens.flatMap Token.chars ++ ['x'])
        ((await .empty waiting).push inner)) ≠
      seen (goOn precision false position (tokens.flatMap Token.chars ++ ['x'])
        (push .empty value)) := by
  obtain ⟨sign, values, pending, top⟩ := exists_await_eq nonempty .empty
  have without : exec precision tokens (push .empty value) = .error .malformedExpression :=
    telling.alone value
  rw [goOn_append telling.readable, goOn_append telling.readable, top, without, error_bind]
  cases outcome : exec precision tokens
      (push ⟨.zero :: values, .operator sign.operator :: pending⟩ inner) with
  | error error =>
    obtain rfl := telling.awaited inner values sign pending error outcome
    rw [error_bind]
    decide
  | ok final =>
    rw [ok_bind, goOn_illegal]
    intro same
    exact absurd (Except.error.inj same) (by simp [EvalError.kind])

/-! ## The exact condition -/

theorem evaluate_operand {text : String} {operand after : List Char} {tokens : List Token}
    {waiting : List Sign} {inner : Decimal}
    (written : withoutBlanks text.toList = operand ++ after)
    (h : SignedTokens precision after.head? operand tokens waiting inner) :
    precision.evaluate text =
      goOn precision false (0 + (tokens.flatMap Token.chars).length) after
        ((await .empty waiting).push inner) := by
  rw [evaluate_eq_goOn (by simp [written, h.ne_nil]), written, ← h.spelled,
    goOn_append (h.readable after rfl), h.ended, h.acts]
  rfl

/-- Values that differ at most in the sign of zero, and waiting signs that are unwound, are not
    seen. -/
theorem seen_goOn_await {waiting : List Sign} {inner : Decimal} {after : List Char}
    (kept : precision.Keeps inner) (alike : waiting = [] → inner.Alike inner.normalize)
    (h : waiting = [] ∨ Detaches after.head?) (state : Stacks) (position : Nat) :
    seen (goOn precision false position after ((await state waiting).push inner)) =
      seen (goOn precision false position after
        (state.push (waiting.foldr Sign.on inner).normalize)) := by
  by_cases none : waiting = []
  · subst none
    exact seen_goOn_alike (state.push_alike (alike rfl)) false position after
  · exact congrArg seen
      (goOn_eq_of_settle_eq (settle_await none kept state) (h.resolve_left none) position)

theorem withoutBlanks_append_group (before text after : String) :
    withoutBlanks (before ++ "(" ++ text ++ ")" ++ after).toList =
      withoutBlanks before.toList ++
        (('(' :: withoutBlanks text.toList ++ [')']) ++ withoutBlanks after.toList) := by
  have whole : (before ++ "(" ++ text ++ ")" ++ after).toList =
      before.toList ++ (['('] ++ text.toList ++ [')'] ++ after.toList) := by simp
  have opened : withoutBlanks ['('] = ['('] := rfl
  have closed : withoutBlanks [')'] = [')'] := rfl
  simp only [whole, withoutBlanks_append, opened, closed]
  rfl

theorem withoutBlanks_append_plain (value : Decimal) (before after : String) :
    withoutBlanks (before ++ "(" ++ value.plain ++ ")" ++ after).toList =
      withoutBlanks before.toList ++
        (('(' :: value.plain.toList ++ [')']) ++ withoutBlanks after.toList) := by
  rw [withoutBlanks_append_group, value.withoutBlanks_plain]

/-- Where a sign waits and the next character may get in between, some text behind it tells the
    operand from its value. -/
theorem exists_seen_ne {signs : List Sign} {operand : String} {tokens : List Token}
    {waiting : List Sign} {inner : Decimal} {c : Char}
    (signed : SignedTokens precision (some c)
      (signs.map Sign.symbol ++ withoutBlanks operand.toList) tokens waiting inner)
    (nonempty : waiting ≠ []) (between : c ∈ ['*', '/', '('] ∨ Literal.startsWith c = true) :
    ∃ run after : String, withoutBlanks run.toList = signs.map Sign.symbol ∧
      (withoutBlanks after.toList).head? = some c ∧
      seen (precision.evaluate ("" ++ run ++ operand ++ after)) ≠
        seen (precision.evaluate
          ("" ++ "(" ++ (waiting.foldr Sign.on inner).plain ++ ")" ++ after)) := by
  obtain ⟨after, first, telling⟩ := exists_telling precision between
  let rest := after.flatMap Token.chars ++ ['x']
  have bare : withoutBlanks (String.ofList rest).toList = rest := by
    rw [String.toList_ofList, withoutBlanks_append, withoutBlanks_flatMap_chars]
    rfl
  have follows : rest.head? = some c := by
    rw [List.head?_append, first]
    rfl
  have empty : withoutBlanks "".toList = [] := by decide
  have signsBare : withoutBlanks (signs.map Sign.symbol) = signs.map Sign.symbol := by
    rw [← flatMap_chars_map_sign, withoutBlanks_flatMap_chars]
  have plain := signedTokens_plain (some c) (signed.keeps.foldr_on waiting)
  rw [← follows] at signed plain
  refine ⟨String.ofList (signs.map Sign.symbol), String.ofList rest, ?_, ?_, ?_⟩
  · rw [String.toList_ofList, signsBare]
  · rw [bare, follows]
  · have shown := withoutBlanks_append_plain (waiting.foldr Sign.on inner) "" (String.ofList rest)
    have written : withoutBlanks ("" ++ String.ofList (signs.map Sign.symbol) ++ operand ++
        String.ofList rest).toList =
          (signs.map Sign.symbol ++ withoutBlanks operand.toList) ++ rest := by
      rw [String.toList_append, withoutBlanks_append, bare]
      simp [signsBare]
    rw [bare, empty, List.nil_append] at shown
    rw [evaluate_operand written signed, evaluate_operand shown plain]
    intro same
    exact seen_goOn_ne telling nonempty inner _ _ (same.trans (seen_goOn_position ..))

/-- An operand with signs can be replaced by its value, in all surroundings that have some next
    character behind it, if and only if it is a literal with a single sign or the next character is
    neither `*` nor `/` nor one that starts another operand. -/
theorem Precision.signed_operand_iff {signs : List Sign} (nonempty : signs ≠ [])
    {operand : String} {value : Decimal} {next : Option Char}
    (complete : IsOperandBefore next (withoutBlanks operand.toList))
    (alone : precision.evaluate operand = .ok value) :
    (∀ before run after : String, OperandPosition (withoutBlanks before.toList) →
      withoutBlanks run.toList = signs.map Sign.symbol →
      (withoutBlanks after.toList).head? = next →
        seen (precision.evaluate (before ++ run ++ operand ++ after)) =
          seen (precision.evaluate
            (before ++ "(" ++ (signs.foldr Sign.on value).plain ++ ")" ++ after))) ↔
      (signs.length = 1 ∧
        ∃ literal : Literal, withoutBlanks operand.toList = literal.chars) ∨
      Detaches next := by
  obtain ⟨tokens, waiting, inner, signed, same, alike, noneWaits⟩ :=
    exists_signedTokens nonempty complete alone
  rw [← noneWaits, ← same]
  constructor
  · intro replaces
    by_cases none : waiting = []
    · exact .inl none
    right
    intro c member
    by_contra bad
    have between : c ∈ ['*', '/', '('] ∨ Literal.startsWith c = true := by
      by_contra other
      rw [not_or, Bool.not_eq_true] at other
      exact bad other
    obtain rfl : next = some c := member
    obtain ⟨run, after, written, follows, apart⟩ := exists_seen_ne signed none between
    exact apart (replaces "" run after (by decide) written follows)
  · intro holds before run after position written follows
    subst follows
    have plain := signedTokens_plain (withoutBlanks after.toList).head?
      (signed.keeps.foldr_on waiting)
    refine seen_evaluate_congr position ?_ (withoutBlanks_append_plain _ before after) signed plain
      fun state position => seen_goOn_await signed.keeps alike holds state position
    simp [written]

/-- A sum unwinds the sign of the group before it. -/
theorem Precision.signed_group_before_sum :
    seen (Precision.decimal64.evaluate ("2*" ++ "-" ++ "(1 + 3)" ++ "+5")) =
      seen (Precision.decimal64.evaluate ("2*" ++ "(" ++ ([Sign.minus].foldr Sign.on
        ⟨false, 4, 0, by decide, by decide⟩).plain ++ ")" ++ "+5")) := by
  have group : IsOperandBefore (some '+') (withoutBlanks "(1 + 3)".toList) :=
    .inr ⟨"1+3".toList, by decide, by decide⟩
  have detaches : Detaches (some '+') := by
    rintro c ⟨⟩
    decide
  exact (Precision.signed_operand_iff (by decide) group (by decide +kernel)).2 (.inr detaches)
    "2*" "-" "+5" (by decide) (by decide) rfl

/-- The waiting sign of `2 / -(4) * 2` takes the product, where `2 / (-4) * 2` divides first. -/
theorem Precision.not_forall_seen_eq :
    ¬ ∀ (precision : Precision) (signs : List Sign) (operand before run after : String)
      (value : Decimal), signs ≠ [] → OperandPosition (withoutBlanks before.toList) →
      withoutBlanks run.toList = signs.map Sign.symbol →
      IsOperandBefore (withoutBlanks after.toList).head? (withoutBlanks operand.toList) →
      precision.evaluate operand = .ok value →
        seen (precision.evaluate (before ++ run ++ operand ++ after)) =
          seen (precision.evaluate
            (before ++ "(" ++ (signs.foldr Sign.on value).plain ++ ")" ++ after)) := by
  intro replaces
  have same := replaces .decimal64 [.minus] "(4)" "2/" "-" "*2"
    ⟨false, 4, 0, by decide, by decide⟩ (by decide) (by decide) (by decide)
    (.inr ⟨"4".toList, by decide, by decide⟩) (by decide +kernel)
  have waited : Precision.decimal64.evaluate ("2/" ++ "-" ++ "(4)" ++ "*2") =
      .ok ⟨true, 25, 2, by decide, by decide⟩ := by decide +kernel
  have replaced : Precision.decimal64.evaluate ("2/" ++ "(" ++ ([Sign.minus].foldr Sign.on
      ⟨false, 4, 0, by decide, by decide⟩).plain ++ ")" ++ "*2") =
        .ok ⟨true, 1, 0, by decide, by decide⟩ := by decide +kernel
  rw [waited, replaced] at same
  have numbers := Except.ok.inj same
  rw [Decimal.toRat_eq, Decimal.toRat_eq] at numbers
  norm_num [signFactor] at numbers

end Reckoner
