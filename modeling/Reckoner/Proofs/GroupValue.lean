import Reckoner.Proofs.SignedOperand

/-! # A group can be replaced by its value

Wherever a text stands between parentheses, it can be replaced there by the plain text of its own
value: the rest of the evaluation sees the same number or fails for the same cause. Nothing is asked
of what stands around the parentheses; it may be no expression at all. The values on the stacks
differ at most in the sign of a zero, which the plain text does not show.
-/

namespace Reckoner

open Evaluation Stacks

variable {precision : Precision}

theorem operandPosition_append_openParen (text : List Char) : OperandPosition (text ++ ['(']) := by
  constructor
  · rw [List.getLast?_append_of_ne_nil _ (by simp)]
    rfl
  · rw [List.length_append, List.length_singleton, Nat.add_sub_cancel, isSignAt_append_cons]
    rfl

/-- What stands before a parenthesis is read up to it, or stops the reading for good. -/
theorem readFrom_before_openParen (front : List Char) :
    (∃ tokens, tokens.flatMap Token.chars = front ∧
      ∀ rest, Token.AllReadable true ('(' :: rest) tokens) ∨
    ∃ tokens error, ∀ rest, Scan.ofChars (front ++ '(' :: rest) = ⟨tokens, some error⟩ := by
  rcases readFrom_front (operandPosition_append_openParen front) with
    ⟨tokens, whole, -, readable⟩ | ⟨tokens, error, stopped⟩
  · left
    obtain ⟨before, rfl, spelled⟩ := Token.exists_eq_append_openParen whole
    exact ⟨before, spelled, fun rest => (Token.allReadable_append.1 (readable rest)).1⟩
  · right
    refine ⟨tokens, error, fun rest => ?_⟩
    have whole := stopped rest
    rwa [List.append_assoc] at whole

theorem Precision.ensures_alike_normalize :
    precision.Ensures fun value => value.Alike value.normalize where
  zero := .refl _
  signed sign literal value h := by
    obtain ⟨magnitude, read, rfl⟩ := ofSigned_eq_ok h
    have normalized := (keeps_of_ofLiteral read).2
    cases sign with
    | none => exact .inl normalized.symm
    | some sign => exact sign.on_alike_normalize normalized
  result operator left right value h := by
    obtain ⟨stored, -, rounded, -⟩ := stored_of_apply h
    exact .inl (keeps_of_round rounded).2.symm

theorem Evaluation.ReadsAsGroup.exists_eq_cons {text : List Char} {tokens : List Token}
    {value : Decimal} (h : ReadsAsGroup precision text tokens value) :
    ∃ rest, text = '(' :: rest :=
  ⟨_, h.spelled.symm⟩

theorem goOn_group {text after : List Char} {tokens : List Token} {value : Decimal}
    (h : ReadsAsGroup precision text tokens value) (due : Bool) (position : Nat) (state : Stacks) :
    goOn precision due position (text ++ after) state =
      goOn precision false (position + text.length) after (state.push value) := by
  have ended : Token.dueAfter due (.openParen :: tokens ++ [.closeParen]) = false := by
    simp [Token.dueAfter, Token.operandDue]
  rw [← h.spelled, goOn_append (h.readable due after), ended, h.yields.acts]
  rfl

/-- Groups whose values differ at most in the sign of zero are seen to come to the same in the same
    surroundings. -/
theorem seen_evaluate_group_congr {before group group' after : List Char} {text text' : String}
    {tokens tokens' : List Token} {value value' : Decimal}
    (written : withoutBlanks text.toList = before ++ (group ++ after))
    (written' : withoutBlanks text'.toList = before ++ (group' ++ after))
    (first : ReadsAsGroup precision group tokens value)
    (second : ReadsAsGroup precision group' tokens' value') (alike : value.Alike value') :
    seen (precision.evaluate text) = seen (precision.evaluate text') := by
  obtain ⟨rest, begins⟩ := first.exists_eq_cons
  obtain ⟨rest', begins'⟩ := second.exists_eq_cons
  rw [evaluate_eq_goOn (by simp [written, begins]), evaluate_eq_goOn (by simp [written', begins']),
    written, written']
  rcases readFrom_before_openParen before with ⟨front, rfl, readable⟩ | ⟨front, error, stopped⟩
  · have reads : Token.AllReadable true (group ++ after) front := by
      rw [begins]
      exact readable _
    have reads' : Token.AllReadable true (group' ++ after) front := by
      rw [begins']
      exact readable _
    rw [goOn_append reads, goOn_append reads']
    refine seen_bind_congr fun state => ?_
    rw [goOn_group first, goOn_group second, seen_goOn_alike (state.push_alike alike)]
    exact seen_goOn_position ..
  · have stops : Scan.readFrom true 0 (before ++ (group ++ after)) = ⟨front, some error⟩ := by
      rw [begins]
      exact stopped _
    have stops' : Scan.readFrom true 0 (before ++ (group' ++ after)) = ⟨front, some error⟩ := by
      rw [begins']
      exact stopped _
    rw [goOn, goOn, stops, stops']

/-- A text between parentheses can be replaced by the plain text of its value, whatever stands
    before and behind. -/
theorem Precision.seen_evaluate_group {text : String} {value : Decimal}
    (h : precision.evaluate text = .ok value) (before after : String) :
    seen (precision.evaluate (before ++ "(" ++ text ++ ")" ++ after)) =
      seen (precision.evaluate (before ++ "(" ++ value.plain ++ ")" ++ after)) := by
  obtain ⟨-, -, accepted⟩ := Precision.exec_tokensOf h
  obtain ⟨tokens, group⟩ := exists_readsAsGroup h
  have plain := readsAsGroup_plain (Precision.ensures_keeps.value accepted)
  have alike := Precision.ensures_alike_normalize.value accepted
  exact seen_evaluate_group_congr (withoutBlanks_append_group before text after)
    (withoutBlanks_append_plain value before after) group plain alike

/-- The sign before the group takes the quotient, and the last parenthesis has no partner. -/
theorem Precision.seen_evaluate_group_unmatched :
    Precision.decimal64.evaluate "10/4 - 3" = .ok ⟨true, 5, 1, by decide, by decide⟩ ∧
      seen (Precision.decimal64.evaluate ("3*-" ++ "(" ++ "10/4 - 3" ++ ")" ++ " / 8) * 2")) =
        seen (Precision.decimal64.evaluate ("3*-" ++ "(" ++
          (⟨true, 5, 1, by decide, by decide⟩ : Decimal).plain ++ ")" ++ " / 8) * 2")) := by
  have alone : Precision.decimal64.evaluate "10/4 - 3" =
      .ok ⟨true, 5, 1, by decide, by decide⟩ := by decide +kernel
  exact ⟨alone, Precision.seen_evaluate_group alone "3*-" " / 8) * 2"⟩

end Reckoner
