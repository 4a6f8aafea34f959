import Reckoner.Proofs.Groups
import Reckoner.Proofs.Spelling

/-! # Texts inside other texts

Where an operand is due, an operand that is complete is read by itself: what stands before it keeps
its tokens or stops the reading for good, and the places of what stands behind it only change the
places of errors. The parentheses of a group are found by counting characters.
-/

namespace Reckoner

/-! ## Parentheses -/

/-- Whether every parenthesis in a text has its partner, when `depth` are open before it. -/
def matched : (depth : Nat) → List Char → Bool
  | depth, [] => depth == 0
  | depth, c :: text =>
    if c = '(' then matched (depth + 1) text
    else if c = ')' then depth != 0 && matched (depth - 1) text
    else matched depth text

/-- A text between a parenthesis and its partner. -/
def IsGroup (text : List Char) : Prop :=
  ∃ inner, text = '(' :: inner ++ [')'] ∧ matched 0 inner = true

namespace Token

theorem ne_paren_of_mem_chars {token : Token} {c : Char} (h : c ∈ token.chars) :
    (c = '(' → token = openParen) ∧ (c = ')' → token = closeParen) := by
  cases token with
  | openParen =>
    obtain rfl := List.mem_singleton.1 h
    exact ⟨fun _ => rfl, fun same => absurd same (by decide)⟩
  | closeParen =>
    obtain rfl := List.mem_singleton.1 h
    exact ⟨fun same => absurd same (by decide), fun _ => rfl⟩
  | operator op =>
    obtain rfl := List.mem_singleton.1 h
    have apart := symbol_ne_paren op
    exact ⟨fun same => absurd same apart.1, fun same => absurd same apart.2⟩
  | sign s =>
    obtain rfl := List.mem_singleton.1 h
    have apart := symbol_ne_paren s.operator
    exact ⟨fun same => absurd same apart.1, fun same => absurd same apart.2⟩
  | number sign literal =>
    have apart : c ≠ '(' ∧ c ≠ ')' := by
      have ofLiteral : c ∈ literal.chars → c ≠ '(' ∧ c ≠ ')' := fun member =>
        have noParen := ne_paren_of_startsWith (Literal.startsWith_of_mem_chars member)
        ⟨noParen.1, noParen.2.1⟩
      cases sign with
      | none => exact ofLiteral h
      | some s =>
        rcases List.mem_cons.1 h with rfl | member
        · exact symbol_ne_paren s.operator
        · exact ofLiteral member
    exact ⟨fun same => absurd same apart.1, fun same => absurd same apart.2⟩

theorem matched_append {front : List Char} (h : ∀ c ∈ front, c ≠ '(' ∧ c ≠ ')') (depth : Nat)
    (rest : List Char) : matched depth (front ++ rest) = matched depth rest := by
  induction front with
  | nil => rfl
  | cons c front ih =>
    have apart := h c (List.mem_cons_self ..)
    rw [List.cons_append, matched, if_neg apart.1, if_neg apart.2]
    exact ih fun c member => h c (List.mem_cons_of_mem _ member)

theorem matched_flatMap_chars (depth : Nat) (tokens : List Token) :
    matched depth (tokens.flatMap chars) = true ↔ Balanced depth tokens := by
  induction tokens generalizing depth with
  | nil => simp [matched, Balanced]
  | cons token tokens ih =>
    rw [List.flatMap_cons]
    have plain (notOpen : token ≠ openParen) (notClose : token ≠ closeParen) :
        matched depth (token.chars ++ tokens.flatMap chars) =
          matched depth (tokens.flatMap chars) :=
      matched_append (fun c member => ⟨fun same => notOpen ((ne_paren_of_mem_chars member).1 same),
        fun same => notClose ((ne_paren_of_mem_chars member).2 same)⟩) _ _
    cases token with
    | openParen => exact ih (depth + 1)
    | closeParen =>
      cases depth with
      | zero => simp [chars, matched, Balanced]
      | succ depth => exact ih depth
    | operator | sign | number =>
      rw [plain (by simp) (by simp), ih]
      cases depth <;> rfl

theorem exists_eq_openParen_cons {tokens : List Token} {text : List Char}
    (h : tokens.flatMap chars = '(' :: text) :
    ∃ others, tokens = openParen :: others ∧ others.flatMap chars = text := by
  cases tokens with
  | nil => cases h
  | cons first others =>
    obtain ⟨c, more, written⟩ := List.exists_cons_of_ne_nil first.chars_ne_nil
    rw [List.flatMap_cons, written, List.cons_append] at h
    obtain ⟨rfl, behind⟩ := List.cons.inj h
    have member : '(' ∈ first.chars := written ▸ List.mem_cons_self ..
    obtain rfl := (ne_paren_of_mem_chars member).1 rfl
    obtain rfl : [] = more := (List.cons.inj written).2
    exact ⟨others, rfl, behind⟩

theorem exists_eq_append_paren {tokens : List Token} {text : List Char} {c : Char} {paren : Token}
    (h : tokens.flatMap chars = text ++ [c]) (written : paren.chars = [c])
    (only : ∀ token : Token, c ∈ token.chars → token = paren) :
    ∃ front, tokens = front ++ [paren] ∧ front.flatMap chars = text := by
  rcases List.eq_nil_or_concat tokens with rfl | ⟨front, last, rfl⟩
  · exact absurd h (by simp)
  rw [List.concat_eq_append] at h ⊢
  have split := List.dropLast_append_getLast last.chars_ne_nil
  rw [List.flatMap_append, List.flatMap_singleton, ← split, ← List.append_assoc] at h
  obtain ⟨inside, same⟩ := List.append_inj' h rfl
  have member : c ∈ last.chars := (List.cons.inj same).1 ▸ List.getLast_mem last.chars_ne_nil
  obtain rfl := only last member
  exact ⟨front, rfl, by simpa [written] using inside⟩

theorem exists_eq_append_closeParen {tokens : List Token} {text : List Char}
    (h : tokens.flatMap chars = text ++ [')']) :
    ∃ front, tokens = front ++ [closeParen] ∧ front.flatMap chars = text :=
  exists_eq_append_paren h rfl fun _ member => (ne_paren_of_mem_chars member).2 rfl

theorem exists_eq_append_openParen {tokens : List Token} {text : List Char}
    (h : tokens.flatMap chars = text ++ ['(']) :
    ∃ front, tokens = front ++ [openParen] ∧ front.flatMap chars = text :=
  exists_eq_append_paren h rfl fun _ member => (ne_paren_of_mem_chars member).1 rfl

/-- Only the first character behind some tokens has an influence on how they are read. -/
theorem AllReadable.of_head?_eq {due : Bool} {rest rest' : List Char} {tokens : List Token}
    (h : AllReadable due rest tokens) (same : rest.head? = rest'.head?) :
    AllReadable due rest' tokens := by
  induction tokens generalizing due with
  | nil => trivial
  | cons token tokens ih =>
    obtain ⟨first, others⟩ := h
    refine ⟨?_, ih others⟩
    have behind : (tokens.flatMap chars ++ rest).head? = (tokens.flatMap chars ++ rest').head? := by
      rw [List.head?_append, List.head?_append, same]
    cases token with
    | openParen | closeParen => trivial
    | operator => exact first
    | sign => exact ⟨first.1, behind ▸ first.2⟩
    | number sign literal =>
      cases sign with
      | none =>
        intro c member
        exact first c (behind ▸ member)
      | some sign => exact ⟨first.1, fun c member => first.2 c (behind ▸ member)⟩

theorem AllReadable.of_dueAfter {tokens : List Token} (h : AllReadable true [] tokens)
    (due : dueAfter true tokens = true) (rest : List Char) : AllReadable true rest tokens := by
  rcases List.eq_nil_or_concat tokens with rfl | ⟨before, last, rfl⟩
  · trivial
  rw [List.concat_eq_append] at due h ⊢
  obtain ⟨front, final⟩ := allReadable_append.1 h
  refine allReadable_append.2 ⟨front.of_head?_eq ?_, ?_, trivial⟩
  · obtain ⟨c, more, written⟩ := List.exists_cons_of_ne_nil last.chars_ne_nil
    simp [written]
  · cases last with
    | openParen | closeParen => trivial
    | operator op => exact final.1
    | sign s => exact absurd final.1.2 (by simp)
    | number => simp [dueAfter, operandDue] at due

theorem AllReadable.before {due : Bool} {tokens : List Token} (h : AllReadable due [] tokens)
    {c : Char} (apart : Literal.startsWith c = false) (rest : List Char) :
    AllReadable due (c :: rest) tokens := by
  induction tokens generalizing due with
  | nil => trivial
  | cons token tokens ih =>
    obtain ⟨first, others⟩ := h
    refine ⟨?_, ih others⟩
    cases tokens with
    | cons second tokens =>
      obtain ⟨d, more, written⟩ := List.exists_cons_of_ne_nil second.chars_ne_nil
      rw [List.flatMap_cons, written] at first ⊢
      -- The next character is that of the second token in both texts.
      have single : AllReadable due (d :: (more ++ tokens.flatMap chars ++ [])) [token] :=
        ⟨first, trivial⟩
      exact (single.of_head?_eq rfl).1
    | nil =>
      have ends (literal : Literal) : literal.EndsBefore (c :: rest) :=
        literal.endsBefore_of_not_startsWith (by simpa using apart)
      cases token with
      | openParen | closeParen => trivial
      | operator => exact first
      | sign => exact absurd first.2 (by simp)
      | number sign literal =>
        cases sign with
        | none => exact ends literal
        | some sign => exact ⟨first.1, ends literal⟩

theorem allReadable_parens {tokens : List Token} {behind : List Char}
    (h : AllReadable true (')' :: behind) tokens) (due : Bool) (rest : List Char) :
    AllReadable due rest (.openParen :: tokens ++ [.closeParen]) :=
  ⟨trivial, allReadable_append.2 ⟨h.of_head?_eq rfl, trivial, trivial⟩⟩

end Token

namespace Evaluation

variable {precision : Precision}

/-- Tokens that put a value on any stacks, one that is kept by the working precision. -/
structure Yields (precision : Precision) (tokens : List Token) (value : Decimal) : Prop where
  acts : ∀ state : Stacks, exec precision tokens state = .ok ⟨value :: state.values, state.pending⟩
  keeps : precision.Keeps value

/-- Tokens that spell a text between parentheses, are read as such wherever it stands, and put a
    value on the stacks. -/
structure ReadsAsGroup (precision : Precision) (text : List Char) (tokens : List Token)
    (value : Decimal) : Prop where
  spelled : (Token.openParen :: tokens ++ [Token.closeParen]).flatMap Token.chars = text
  readable : ∀ due rest, Token.AllReadable due rest (.openParen :: tokens ++ [.closeParen])
  yields : Yields precision (.openParen :: tokens ++ [.closeParen]) value

theorem exists_readsAsGroup_of_isGroup {text : String} {value : Decimal}
    (group : IsGroup (withoutBlanks text.toList)) (h : precision.evaluate text = .ok value) :
    ∃ tokens, ReadsAsGroup precision (withoutBlanks text.toList) tokens value := by
  obtain ⟨inner, written, closed⟩ := group
  obtain ⟨spelled, readable, accepted⟩ := Precision.exec_tokensOf h
  have keeps := Precision.ensures_keeps.value accepted
  generalize tokensOf text = tokens at spelled readable accepted
  have whole := spelled
  rw [written, List.cons_append] at spelled
  obtain ⟨others, rfl, behind⟩ := Token.exists_eq_openParen_cons spelled
  obtain ⟨middle, rfl, inside⟩ := Token.exists_eq_append_closeParen behind
  have balanced : Token.Balanced 0 middle := by
    rw [← Token.matched_flatMap_chars, inside]
    exact closed
  obtain ⟨before, -⟩ := Token.allReadable_append.1 readable.2
  exact ⟨middle, whole, Token.allReadable_parens before, exec_group balanced accepted, keeps⟩

/-- A text that has a value is read and has this value everywhere between parentheses. -/
theorem exists_readsAsGroup {text : String} {value : Decimal}
    (h : precision.evaluate text = .ok value) :
    ∃ tokens, ReadsAsGroup precision ('(' :: withoutBlanks text.toList ++ [')']) tokens value := by
  obtain ⟨spelled, readable, accepted⟩ := Precision.exec_tokensOf h
  have before : Token.AllReadable true [')'] (tokensOf text) := readable.before (by decide) []
  refine ⟨tokensOf text, ?_, Token.allReadable_parens before, exec_parens_of_conclude accepted,
    Precision.ensures_keeps.value accepted⟩
  rw [← spelled]
  simp [Token.chars]

end Evaluation

/-! ## What stands before -/

namespace Literal

theorem takeDigits_eq_nil {text : List Char} (h : ∀ c ∈ text.head?, Digit.ofChar? c = none) :
    takeDigits text = ([], text) :=
  takeDigits_map_toChar_append [] h

theorem read?_eq_none_iff {text : List Char} :
    read? text = none ↔ (∀ c ∈ text.head?, Digit.ofChar? c = none) ∧
      ∀ more, text = '.' :: more → ∀ c ∈ more.head?, Digit.ofChar? c = none := by
  constructor
  · intro none
    constructor
    · intro c member
      obtain ⟨more, rfl⟩ := List.head?_eq_some_iff.1 member
      cases shown : Digit.ofChar? c with
      | none => rfl
      | some digit =>
        exfalso
        simp only [read?, takeDigits, shown] at none
        split at none
        · next same =>
          obtain rfl := (Prod.mk.inj same).1
          simp [ofParts?] at none
        · next same =>
          obtain rfl := (Prod.mk.inj same).1
          simp [ofParts?] at none
    · rintro more rfl c member
      obtain ⟨rest, rfl⟩ := List.head?_eq_some_iff.1 member
      cases shown : Digit.ofChar? c with
      | none => rfl
      | some digit =>
        exfalso
        have point : takeDigits ('.' :: c :: rest) = ([], '.' :: c :: rest) :=
          takeDigits_eq_nil (by simp; decide)
        rw [read?, point] at none
        simp [takeDigits, shown, ofParts?] at none
  · rintro ⟨front, behind⟩
    have split := takeDigits_eq_nil front
    cases text with
    | nil => rfl
    | cons c text =>
      by_cases point : c = '.'
      · subst point
        simp only [read?, split, takeDigits_eq_nil (behind text rfl)]
        rfl
      · simp only [read?, split]
        split
        · next same => exact absurd (List.cons.inj (Prod.mk.inj same).2).1 point
        · next same =>
          obtain ⟨rfl, rfl⟩ := Prod.mk.inj same
          rfl

theorem read?_append_eq_none {text : List Char} (h : read? text = none) (nonempty : text ≠ [])
    (noPoint : text.getLast? ≠ some '.') (more : List Char) : read? (text ++ more) = none := by
  obtain ⟨c, text, rfl⟩ := List.exists_cons_of_ne_nil nonempty
  obtain ⟨front, behind⟩ := read?_eq_none_iff.1 h
  refine read?_eq_none_iff.2 ⟨front, ?_⟩
  rintro rest same
  obtain ⟨rfl, rfl⟩ := List.cons.inj same
  cases text with
  | nil => exact absurd rfl noPoint
  | cons d text => exact behind (d :: text) rfl

end Literal

namespace Token

/-- What cannot be read is not made readable by what follows, unless it is a sign or point at the
    very end. -/
theorem read_append_error {due : Bool} {position : Nat} {c : Char} {text : List Char}
    {error : EvalError} (h : read due position c text = .error error)
    (noPoint : (c :: text).getLast? ≠ some '.')
    (noSign : text = [] → due = true → ∀ op ∈ Operator.ofChar? c, op.sign? = none)
    (more : List Char) : read due position c (text ++ more) = .error error := by
  unfold read at h ⊢
  split at h
  · cases h
  next notOpen =>
  split at h
  · cases h
  next notClose =>
  rw [if_neg notOpen, if_neg notClose]
  split at h
  · next starts =>
    rw [if_pos starts]
    split at h
    · cases h
    next unread =>
    rw [← List.cons_append, Literal.read?_append_eq_none unread (by simp) noPoint]
    exact h
  next other =>
  rw [if_neg other]
  split at h
  · exact h
  next op found =>
  split at h
  · cases h
  next s signed =>
  have isDue : due = true := by
    cases due with
    | true => rfl
    | false => simp at signed
  rw [if_pos isDue] at signed
  cases text with
  | nil =>
    rw [noSign rfl isDue op found] at signed
    cases signed
  | cons following text =>
    dsimp only [List.cons_append] at h ⊢
    split at h
    · cases h
    next plain =>
    rw [if_neg plain]
    split at h
    · cases h
    next unread =>
    have last : (following :: text).getLast? ≠ some '.' := by
      rwa [List.getLast?_cons_cons] at noPoint
    rw [← List.cons_append, Literal.read?_append_eq_none unread (by simp) last]
    exact h

end Token

/-- Whether an operand is due behind a text: at its start, behind an opening parenthesis, and behind
    an operator that is not a sign. -/
def OperandPosition (text : List Char) : Prop :=
  operandDueAfter text.getLast? = true ∧ isSignAt text (text.length - 1) = false

instance (text : List Char) : Decidable (OperandPosition text) :=
  inferInstanceAs (Decidable (_ ∧ _))

theorem Token.exists_getLast?_chars_number (sign : Option Sign) (literal : Literal) :
    ∃ c ∈ literal.chars, (number sign literal).chars.getLast? = some c := by
  have nonempty := literal.chars_ne_nil
  refine ⟨literal.chars.getLast nonempty, List.getLast_mem nonempty, ?_⟩
  cases sign with
  | none => exact List.getLast?_eq_some_getLast nonempty
  | some s =>
    rw [Token.chars, List.getLast?_cons, List.getLast?_eq_some_getLast nonempty]
    rfl

theorem operandDueAfter_getLast?_chars (token : Token) :
    operandDueAfter token.chars.getLast? = token.operandDue := by
  cases token with
  | openParen | closeParen => rfl
  | operator op => cases op <;> rfl
  | sign s => cases s <;> rfl
  | number sign literal =>
    obtain ⟨c, member, same⟩ := Token.exists_getLast?_chars_number sign literal
    have plain := Token.ne_paren_of_startsWith (Literal.startsWith_of_mem_chars member)
    simp [same, operandDueAfter, Token.operandDue, plain.1, plain.2.2.2]

theorem dueAfter_eq_operandDueAfter (tokens : List Token) :
    Token.dueAfter true tokens = operandDueAfter (tokens.flatMap Token.chars).getLast? := by
  rcases List.eq_nil_or_concat tokens with rfl | ⟨front, last, rfl⟩
  · rfl
  · rw [List.concat_eq_append, Token.dueAfter_append, List.flatMap_append, List.flatMap_singleton,
      List.getLast?_append_of_ne_nil _ last.chars_ne_nil, operandDueAfter_getLast?_chars]
    rfl

theorem isSignAt_append_cons (front : List Char) (c : Char) (rest : List Char) :
    isSignAt (front ++ c :: rest) front.length =
      match Operator.ofChar? c with
      | none => false
      | some op => op.sign?.isSome && operandDueAfter front.getLast? := by
  rcases List.eq_nil_or_concat front with rfl | ⟨front, d, rfl⟩
  · rfl
  · cases found : Operator.ofChar? c with
    | none => simp [isSignAt, found]
    | some op => simp [isSignAt, found]

/-- What stands before an operand is read to its end, or stops the reading for good. -/
theorem readFrom_front {front : List Char} (h : OperandPosition front) :
    (∃ tokens, tokens.flatMap Token.chars = front ∧ Token.dueAfter true tokens = true ∧
      ∀ rest, Token.AllReadable true rest tokens) ∨
    ∃ tokens error, ∀ rest, Scan.ofChars (front ++ rest) = ⟨tokens, some error⟩ := by
  obtain ⟨due, noSign⟩ := h
  obtain ⟨tokens, rest, whole, readable, placed, stops⟩ := Scan.readFrom_spec true 0 front
  cases rest with
  | nil =>
    left
    rw [List.append_nil] at whole
    rw [whole, ← dueAfter_eq_operandDueAfter] at due
    exact ⟨tokens, whole.symm, due, readable.of_dueAfter due⟩
  | cons c text =>
    right
    obtain ⟨error, unread, stopped⟩ := stops
    have last : front.getLast? = (c :: text).getLast? := by
      rw [whole, List.getLast?_append_of_ne_nil _ (by simp)]
    refine ⟨Token.place 0 tokens, error, fun rest => ?_⟩
    have still : Token.read (Token.dueAfter true tokens)
        (0 + (tokens.flatMap Token.chars).length) c (text ++ rest) = .error error := by
      refine Token.read_append_error unread ?_ ?_ rest
      · intro point
        rw [last, point] at due
        cases due
      · rintro rfl isDue op found
        rw [whole, List.length_append, List.length_singleton, Nat.add_sub_cancel,
          isSignAt_append_cons, ← dueAfter_eq_operandDueAfter, isDue, found] at noSign
        simpa using noSign
    have tokensReadable : Token.AllReadable true (c :: (text ++ rest)) tokens :=
      readable.of_head?_eq rfl
    rw [Scan.ofChars, whole, List.append_assoc, List.cons_append,
      Scan.readFrom_append tokensReadable, Scan.readFrom_error still, List.append_nil]

/-! ## What stands behind -/

theorem Token.read_position (due : Bool) (position position' : Nat) (c : Char)
    (text : List Char) :
    (read due position c text).mapError EvalError.kind =
      (read due position' c text).mapError EvalError.kind := by
  unfold read
  split
  · rfl
  split
  · rfl
  split
  · split <;> rfl
  split
  · rfl
  split
  · rfl
  split
  · rfl
  split
  · rfl
  split <;> rfl

theorem Scan.readFrom_position (due : Bool) (position position' : Nat) (text : List Char) :
    (readFrom due position text).tokens.map (·.2) = (readFrom due position' text).tokens.map (·.2) ∧
      (readFrom due position text).stop.map EvalError.kind =
        (readFrom due position' text).stop.map EvalError.kind := by
  fun_induction readFrom due position text generalizing position' with
  | case1 => simp [readFrom]
  | case2 due position c text stop h =>
    have same := Token.read_position due position position' c text
    rw [h] at same
    cases h' : Token.read due position' c text with
    | ok found => rw [h'] at same; cases same
    | error stop' =>
      rw [h'] at same
      rw [readFrom_error h']
      exact ⟨rfl, congrArg some (Except.error.inj same)⟩
  | case3 due position c text token rest h _ scan ih =>
    have same := Token.read_position due position position' c text
    rw [h] at same
    cases h' : Token.read due position' c text with
    | error stop' => rw [h'] at same; cases same
    | ok found =>
      rw [h'] at same
      obtain rfl := Except.ok.inj same
      obtain ⟨tokens, stop⟩ := ih (position' + token.chars.length)
      rw [readFrom_ok h']
      exact ⟨congrArg (token :: ·) tokens, stop⟩

end Reckoner
