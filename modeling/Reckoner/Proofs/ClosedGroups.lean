import Reckoner.Proofs.Isolation
import Reckoner.Proofs.Precedence
import Reckoner.Proofs.Surroundings

/-! # Groups that are closed

A parenthesis that is closed has a partner before it, and everything between the two is closed. What
was pending before the group is pending after it. The values that were there before are there after
it, with one more, exactly if the group is a text that has a value of its own; a group that is
written as the grammar says is one.
-/

namespace Reckoner

open Evaluation Event Stacks

variable {precision : Precision}

/-- Whether some entries are pending below an open parenthesis, with `above` more of them open. -/
def Covers (base : List Pending) (above : Nat) (state : Stacks) : Prop :=
  ∃ front, state.pending = front ++ .openParen :: base ∧ front.count .openParen = above

namespace Covers

variable {base : List Pending} {above : Nat} {state : Stacks}

theorem foldFor {incoming : Operator} {folded : Stacks} (covers : Covers base above state)
    (h : state.foldFor precision incoming = .ok folded) : Covers base above folded := by
  refine foldFor_invariant precision (Covers base above) ?_ h covers
  rintro top values combined pending taken ⟨front, split, same⟩
  cases front with
  | nil => cases split
  | cons entry front =>
    cases split
    exact ⟨front, rfl, by simpa using same⟩

theorem act {token : Token} {tokens : List Token} {acted : Stacks}
    (covers : Covers base above state) (h : Evaluation.act precision state token = .ok acted)
    (balanced : Token.Balanced above (token :: tokens)) :
    ∃ above', Covers base above' acted ∧ Token.Balanced above' tokens := by
  cases token with
  | openParen =>
    cases h
    obtain ⟨front, split, same⟩ := covers
    exact ⟨above + 1, ⟨.openParen :: front, by simp [split], by simp [same]⟩, balanced⟩
  | sign sign =>
    cases h
    obtain ⟨front, split, same⟩ := covers
    refine ⟨above, ⟨.operator sign.operator :: front, by simp [split], by simp [same]⟩, ?_⟩
    simpa [Token.Balanced] using balanced
  | number sign literal =>
    obtain ⟨value, -, pushed⟩ := bind_eq_ok_iff.1 h
    cases pushed
    exact ⟨above, covers, by simpa [Token.Balanced] using balanced⟩
  | operator operator =>
    obtain ⟨folded, unwound, pushed⟩ := bind_eq_ok_iff.1 h
    cases pushed
    obtain ⟨front, split, same⟩ := covers.foldFor unwound
    refine ⟨above, ⟨.operator operator :: front, by simp [split], by simp [same]⟩, ?_⟩
    simpa [Token.Balanced] using balanced
  | closeParen =>
    obtain ⟨settled, unwound, left⟩ := bind_eq_ok_iff.1 h
    obtain ⟨front, split, same⟩ := covers.foldFor unwound
    rw [leave_eq_ok_iff.1 left] at split
    cases front with
    | nil =>
      cases same
      exact balanced.elim
    | cons entry front =>
      obtain ⟨rfl, rest⟩ := List.cons.inj split
      rw [List.count_cons_self] at same
      have fewer : Token.Balanced (front.count .openParen) tokens := by
        rwa [← same] at balanced
      exact ⟨_, ⟨front, rest, rfl⟩, fewer⟩

theorem exec {tokens : List Token} {final : Stacks} (covers : Covers base above state)
    (h : Evaluation.exec precision tokens state = .ok final)
    (balanced : Token.Balanced above tokens) : Covers base 0 final := by
  induction tokens generalizing state above with
  | nil =>
    cases h
    cases balanced
    exact covers
  | cons token tokens ih =>
    rw [exec_cons] at h
    obtain ⟨acted, first, rest⟩ := bind_eq_ok_iff.1 h
    obtain ⟨above', covers', balanced'⟩ := covers.act first balanced
    exact ih covers' rest balanced'

end Covers

theorem pending_of_exec_parens {tokens : List Token} {state closed : Stacks}
    (balanced : Token.Balanced 0 tokens)
    (h : exec precision (.openParen :: tokens ++ [.closeParen]) state = .ok closed) :
    closed.pending = state.pending := by
  rw [exec_parens] at h
  obtain ⟨final, acted, left⟩ := bind_eq_ok_iff.1 h
  obtain ⟨settled, unwound, leaving⟩ := bind_eq_ok_iff.1 left
  have opened : Covers state.pending 0 (above ⟨[], []⟩ state) := ⟨[], rfl, rfl⟩
  obtain ⟨front, split, none⟩ := (opened.exec acted balanced).foldFor unwound
  rw [leave_eq_ok_iff.1 leaving] at split
  cases front with
  | nil => exact (List.cons.inj split).2
  | cons entry front =>
    obtain ⟨rfl, -⟩ := List.cons.inj split
    simp at none

/-- A parenthesis that is open has been opened by a token behind which everything is closed. -/
theorem exists_openParen {tokens : List Token} {state final : Stacks}
    (h : exec precision tokens state = .ok final) (deeper : state.depth < final.depth) :
    ∃ before inner, tokens = before ++ .openParen :: inner ∧ Token.Balanced 0 inner := by
  induction size : tokens.length using Nat.strong_induction_on generalizing tokens final with
  | _ size ih =>
    rcases List.eq_nil_or_concat tokens with rfl | ⟨front, last, rfl⟩
    · cases h
      omega
    rw [List.concat_eq_append] at h size ⊢
    rw [List.length_append, List.length_singleton] at size
    rw [exec_append] at h
    obtain ⟨middle, acted, ends⟩ := bind_eq_ok_iff.1 h
    rw [exec_singleton] at ends
    have changed := depth_of_act ends
    cases last with
    | openParen => exact ⟨front, [], rfl, rfl⟩
    | closeParen =>
      -- The parenthesis that is closed here stands behind the one that is sought.
      obtain ⟨before, inner, rfl, balanced⟩ :=
        ih _ (by omega) acted (by dsimp only at changed; omega) rfl
      rw [exec_append] at acted
      obtain ⟨opened, first, rest⟩ := bind_eq_ok_iff.1 acted
      have inside : exec precision inner ⟨opened.values, .openParen :: opened.pending⟩ =
          .ok middle := rest
      have same := depth_of_exec balanced inside
      have marked : Stacks.depth ⟨opened.values, .openParen :: opened.pending⟩ =
          opened.depth + 1 := List.count_cons_self
      rw [List.length_append] at size
      obtain ⟨before, inner', rfl, balanced'⟩ :=
        ih _ (by omega) first (by dsimp only at changed; omega) rfl
      exact ⟨before, inner' ++ (.openParen :: inner ++ [.closeParen]), by simp,
        balanced'.append balanced.parens⟩
    | operator | sign | number =>
      obtain ⟨before, inner, rfl, balanced⟩ :=
        ih _ (by omega) acted (by dsimp only at changed; omega) rfl
      refine ⟨before, inner ++ [_], List.append_assoc .., ?_⟩
      exact balanced.concat rfl

/-- A group that is closed behind the tokens `front` by a parenthesis at `stop`: what stands in
    front of it and in it, the stacks where it begins, and the events from there on. -/
structure ClosedGroup (precision : Precision) (front : List (Nat × Token)) (stop : Nat)
    (closed : Stacks) where
  before : List (Nat × Token)
  start : Nat
  inner : List (Nat × Token)
  opened : Stacks
  events : List Event
  split : front = before ++ (start, .openParen) :: inner
  balanced : Token.Balanced 0 (inner.map (·.2))
  opens : (before.foldlM (step precision) .empty).outcome = .ok opened
  closes : ((start, Token.openParen) :: inner ++ [(stop, Token.closeParen)]).foldlM
    (step precision) opened = ⟨events, .ok closed⟩

namespace ClosedGroup

/-- The group of some tokens of which the last closes the first. -/
def ofTokens {before inner : List (Nat × Token)} {start stop : Nat} {opened closed : Stacks}
    (balanced : Token.Balanced 0 (inner.map (·.2)))
    (opens : (before.foldlM (step precision) .empty).outcome = .ok opened)
    (closes : (((start, Token.openParen) :: inner ++ [(stop, Token.closeParen)]).foldlM
      (step precision) opened).outcome = .ok closed) :
    ClosedGroup precision (before ++ (start, .openParen) :: inner) stop closed where
  before := before
  start := start
  inner := inner
  opened := opened
  events := (((start, Token.openParen) :: inner ++ [(stop, Token.closeParen)]).foldlM
    (step precision) opened).events
  split := rfl
  balanced := balanced
  opens := opens
  closes := congrArg (Traced.mk _) closes

variable {front : List (Nat × Token)} {stop : Nat} {closed : Stacks}

/-- What stands between the parentheses. -/
def tokens (group : ClosedGroup precision front stop closed) : List Token :=
  group.inner.map (·.2)

/-- The group as a text of its own. -/
def text (group : ClosedGroup precision front stop closed) : String :=
  String.ofList ('(' :: group.tokens.flatMap Token.chars ++ [')'])

/-- The group has put one value on top of those that were there, and its operators have only taken
    values that were put there since. -/
structure AddsOnly (group : ClosedGroup precision front stop closed) (value : Decimal) : Prop where
  values : closed.values = value :: group.opened.values
  replays : replayAll? precision [] group.events = some [value]

variable (group : ClosedGroup precision front stop closed)

theorem outcome_parens (state : Stacks) :
    (((group.start, Token.openParen) :: group.inner ++
        [(stop, Token.closeParen)]).foldlM (step precision) state).outcome =
      exec precision (.openParen :: group.tokens ++ [.closeParen]) state := by
  rw [outcome_foldlM_step]
  simp [tokens]

theorem exec_opened :
    exec precision (.openParen :: group.tokens ++ [.closeParen]) group.opened = .ok closed := by
  rw [← group.outcome_parens, group.closes]

theorem pending_eq : closed.pending = group.opened.pending :=
  pending_of_exec_parens group.balanced group.exec_opened

theorem length_values :
    (closed.values.length : Int) =
      group.opened.values.length + Token.totalWeight group.tokens := by
  have total := excess_of_exec group.exec_opened
  have inside : Token.totalWeight (.openParen :: group.tokens ++ [.closeParen]) =
      Token.totalWeight group.tokens := by
    simp [Token.totalWeight, Token.totalWeight_append, Token.weight]
  rw [inside, excess, excess, group.pending_eq] at total
  omega

/-- On its own, the group puts the values there that it has added to those before, or fails for
    want of the values that it has taken from there. -/
theorem exec_alone :
    (∃ values, exec precision (.openParen :: group.tokens ++ [.closeParen]) .empty =
        .ok ⟨values, []⟩ ∧
      closed.values = values ++ group.opened.values ∧
      replayAll? precision [] group.events = some values) ∨
    exec precision (.openParen :: group.tokens ++ [.closeParen]) .empty =
        .error .malformedExpression ∧
      replayAll? precision [] group.events = none := by
  rcases Splits.group group.balanced group.start stop group.events closed group.closes with
    ⟨⟨values, pending⟩, isolated⟩ | reaches
  · have there := isolated.everywhere group.opened
    have same : Stacks.upon ⟨values, pending⟩ group.opened = closed :=
      Except.ok.inj (congrArg Traced.outcome (there.symm.trans group.closes))
    have alone := group.outcome_parens .empty
    have bottom := congrArg Traced.outcome (isolated.everywhere .empty)
    have shut : pending ++ [] = [] :=
      pending_of_exec_parens group.balanced (alone.symm.trans bottom)
    left
    refine ⟨values, alone.symm.trans (bottom.trans ?_), (congrArg Stacks.values same).symm,
      isolated.replays⟩
    simp [upon, Stacks.empty, List.append_eq_nil_iff.1 shut]
  · exact .inr ⟨(group.outcome_parens .empty).symm.trans (reaches.fails []), reaches.replays⟩

theorem addsOnly_iff (value : Decimal) :
    group.AddsOnly value ↔
      exec precision (.openParen :: group.tokens ++ [.closeParen]) .empty >>=
        conclude precision none = .ok value := by
  rcases group.exec_alone with ⟨values, alone, added, replayed⟩ | ⟨alone, replayed⟩
  · rw [alone, ok_bind, conclude, settle_nil, ok_bind, result_eq_ok_iff]
    constructor
    · intro adds
      rw [Option.some.inj (replayed.symm.trans adds.replays)]
    · intro only
      cases only
      exact ⟨added, replayed⟩
  · rw [alone]
    constructor
    · intro adds
      cases replayed.symm.trans adds.replays
    · intro concluded
      cases concluded

theorem malformed_of_alone {error : EvalError}
    (h : exec precision (.openParen :: group.tokens ++ [.closeParen]) .empty >>=
      conclude precision none = .error error) : error = .malformedExpression := by
  rcases group.exec_alone with ⟨values, alone, -, -⟩ | ⟨alone, -⟩
  · rw [alone, ok_bind, conclude, settle_nil, ok_bind] at h
    match values with
    | [] | _ :: _ :: _ =>
      cases h
      rfl
  · rw [alone] at h
    cases h
    rfl

end ClosedGroup

theorem nonempty_closedGroup {front : List (Nat × Token)} {stop : Nat} {state closed : Stacks}
    (reached : (front.foldlM (step precision) .empty).outcome = .ok state)
    (closes : (step precision state (stop, .closeParen)).outcome = .ok closed) :
    Nonempty (ClosedGroup precision front stop closed) := by
  have acted := (outcome_foldlM_step precision front .empty).symm.trans reached
  have changed := depth_of_act ((outcome_step ..).symm.trans closes)
  have deeper : Stacks.empty.depth < state.depth := by
    have none : Stacks.empty.depth = 0 := rfl
    dsimp only at changed
    omega
  obtain ⟨before, inner, whole, balanced⟩ := exists_openParen acted deeper
  obtain ⟨before, behind, rfl, rfl, opening⟩ := List.map_eq_append_iff.1 whole
  obtain ⟨⟨start, token⟩, inner, rfl, rfl, rfl⟩ := List.map_eq_cons_iff.1 opening
  have joined : (before.foldlM (step precision) .empty >>= fun opened =>
      ((start, Token.openParen) :: inner).foldlM (step precision) opened).outcome = .ok state := by
    rw [← List.foldlM_append]
    exact reached
  rw [Traced.outcome_bind] at joined
  obtain ⟨opened, opens, ran⟩ := bind_eq_ok_iff.1 joined
  have ends : (((start, Token.openParen) :: inner ++
      [(stop, Token.closeParen)]).foldlM (step precision) opened).outcome = .ok closed := by
    rw [List.foldlM_append, Traced.outcome_bind, ran, ok_bind, List.foldlM_cons,
      Traced.outcome_bind, closes]
    rfl
  exact ⟨.ofTokens balanced opens ends⟩

theorem exec_parens_tokens (expression : Expression) (state : Stacks) :
    exec precision (.openParen :: expression.tokens ++ [.closeParen]) state =
      expression.tree.evaluate precision >>= fun value =>
        .ok ⟨value :: state.values, state.pending⟩ := by
  have start : ExpressionMayStart (.openParen :: state.pending) := fun _ _ same => by cases same
  have settles := expression.exec_tokens precision state.values start
  have inside : exec precision expression.tokens (above ⟨[], []⟩ state) >>= settle precision =
      expression.tree.evaluate precision >>= fun value =>
        .ok ⟨value :: state.values, .openParen :: state.pending⟩ := settles
  rw [exec_parens, ← bind_assoc, inside, bind_assoc]
  rfl

theorem Token.AllReadable.eq_of_flatMap_chars {first second : List Token} {behind : List Char}
    (h : AllReadable true (')' :: behind) first) (h' : AllReadable true (')' :: behind) second)
    (same : first.flatMap chars = second.flatMap chars) : first = second := by
  have spelled : (openParen :: first ++ [closeParen]).flatMap chars =
      (openParen :: second ++ [closeParen]).flatMap chars := by
    simp [same]
  have read := Scan.ofChars_flatMap_chars (allReadable_parens h true [])
  rw [spelled, Scan.ofChars_flatMap_chars (allReadable_parens h' true [])] at read
  have placed := congrArg (fun scan => scan.tokens.map (·.2)) read
  simpa using placed.symm

/-- A group of a text is read as the same tokens where it stands alone. -/
theorem ClosedGroup.evaluate_text {front : List (Nat × Token)} {stop : Nat} {closed : Stacks}
    (group : ClosedGroup precision front stop closed) {behind : List Char}
    (readable : Token.AllReadable true (')' :: behind) group.tokens) :
    precision.evaluate group.text =
      exec precision (.openParen :: group.tokens ++ [.closeParen]) .empty >>=
        conclude precision none := by
  have spelled : (Token.openParen :: group.tokens ++ [Token.closeParen]).flatMap Token.chars =
      '(' :: group.tokens.flatMap Token.chars ++ [')'] := by
    simp [Token.chars]
  have scanned := Scan.ofChars_flatMap_chars (Token.allReadable_parens readable true [])
  have written : withoutBlanks group.text.toList =
      '(' :: (group.tokens.flatMap Token.chars ++ [')']) := by
    rw [text, String.toList_ofList, ← spelled, withoutBlanks_flatMap_chars, spelled,
      List.cons_append]
  rw [precision.evaluate_eq_exec written, ← List.cons_append, ← spelled, scanned,
    Token.map_snd_place]

theorem ClosedGroup.exists_allReadable {text : List Char} {front after : List (Nat × Token)}
    {stop : Nat} {closed : Stacks} (group : ClosedGroup precision front stop closed)
    (written : (Scan.ofChars text).tokens = front ++ (stop, .closeParen) :: after) :
    ∃ behind, Token.AllReadable true (')' :: behind) group.tokens := by
  obtain ⟨tokens, rest, -, readable, placed, -⟩ := Scan.readFrom_spec true 0 text
  have whole : tokens = group.before.map (·.2) ++ .openParen :: (group.tokens ++
      .closeParen :: after.map (·.2)) := by
    have before := congrArg (List.map (·.2)) group.split
    rw [← Token.map_snd_place 0 tokens, ← placed, ← Scan.ofChars, written, List.map_append, before]
    simp [ClosedGroup.tokens]
  rw [whole] at readable
  obtain ⟨-, -, behind⟩ := Token.allReadable_append.1 readable
  obtain ⟨inside, -⟩ := Token.allReadable_append.1 behind
  exact ⟨_, inside⟩

theorem ClosedGroup.exists_addsOnly {front : List (Nat × Token)} {stop : Nat} {closed : Stacks}
    (group : ClosedGroup precision front stop closed) {expression : Expression}
    (h : group.tokens = expression.tokens) : ∃ value, group.AddsOnly value := by
  have opened := group.exec_opened
  rw [h, exec_parens_tokens] at opened
  obtain ⟨value, evaluated, -⟩ := bind_eq_ok_iff.1 opened
  refine ⟨value, (group.addsOnly_iff value).2 ?_⟩
  rw [h, exec_parens_tokens, evaluated]
  rfl

/-- Where a parenthesis is closed, what was pending before the matching one is pending again. The
    values from there have got one more, and no operator inside has taken one of them, exactly if
    the group has a value as a text of its own; any other group is malformed as such a text. -/
theorem Precision.closedGroup_addsOnly_iff {text : String} {front after : List (Nat × Token)}
    {stop : Nat} {state closed : Stacks}
    (written : (Scan.ofChars (withoutBlanks text.toList)).tokens =
      front ++ (stop, .closeParen) :: after)
    (reached : (front.foldlM (step precision) .empty).outcome = .ok state)
    (closes : (step precision state (stop, .closeParen)).outcome = .ok closed) :
    Nonempty (ClosedGroup precision front stop closed) ∧
      ∀ group : ClosedGroup precision front stop closed,
        closed.pending = group.opened.pending ∧
        (closed.values.length : Int) =
          group.opened.values.length + Token.totalWeight group.tokens ∧
        (∀ value, group.AddsOnly value ↔ precision.evaluate group.text = .ok value) ∧
        (∀ error, precision.evaluate group.text = .error error → error = .malformedExpression) ∧
        ((∃ expression : Expression, expression.chars = group.tokens.flatMap Token.chars) →
          ∃ value, group.AddsOnly value) := by
  refine ⟨nonempty_closedGroup reached closes, fun group => ?_⟩
  obtain ⟨behind, readable⟩ := group.exists_allReadable written
  have alone := group.evaluate_text readable
  refine ⟨group.pending_eq, group.length_values, ?_, ?_, ?_⟩
  · intro value
    rw [alone]
    exact group.addsOnly_iff value
  · intro error failed
    exact group.malformed_of_alone (alone.symm.trans failed)
  · rintro ⟨expression, spelled⟩
    have expressionReadable : Token.AllReadable true (')' :: behind) expression.tokens :=
      expression.allReadable_tokens (by simp; decide)
    refine group.exists_addsOnly (readable.eq_of_flatMap_chars expressionReadable ?_)
    rw [← spelled, expression.flatMap_chars_tokens]

/-- The group adds the value of its own text, and leaves the value in front of it alone. -/
theorem Precision.product_in_quotient_adds_only :
    ∃ (front : List (Nat × Token)) (closed : Stacks)
      (group : ClosedGroup .decimal64 front 8 closed),
      (Scan.ofChars (withoutBlanks "8 / (2*(3))".toList)).tokens =
          front ++ (8, .closeParen) :: [] ∧
        group.text = "(2*(3))" ∧ group.AddsOnly ⟨false, 6, 0, by decide, by decide⟩ := by
  let number (digit : Digit) : Token := .number none ⟨[digit], none, by simp⟩
  let before : List (Nat × Token) := [(0, number 8), (1, .operator .divide)]
  let inner : List (Nat × Token) := [(3, number 2), (4, .operator .multiply), (5, .openParen),
    (6, number 3), (7, .closeParen)]
  let two : Decimal := ⟨false, 2, 0, by decide, by decide⟩
  let three : Decimal := ⟨false, 3, 0, by decide, by decide⟩
  let eight : Decimal := ⟨false, 8, 0, by decide, by decide⟩
  let closed : Stacks := ⟨[⟨false, 6, 0, by decide, by decide⟩, eight], [.operator .divide]⟩
  have opens : (before.foldlM (step .decimal64) .empty).outcome =
      .ok ⟨[eight], [.operator .divide]⟩ := by decide +kernel
  have closes : (((2, Token.openParen) :: inner ++ [(8, Token.closeParen)]).foldlM
      (step .decimal64) ⟨[eight], [.operator .divide]⟩).outcome = .ok closed := by decide +kernel
  let group : ClosedGroup .decimal64 (before ++ (2, .openParen) :: inner) 8 closed :=
    .ofTokens rfl opens closes
  have written : (Scan.ofChars (withoutBlanks "8 / (2*(3))".toList)).tokens =
      (before ++ (2, .openParen) :: inner) ++ (8, .closeParen) :: [] := by decide +kernel
  have reached : ((before ++ (2, .openParen) :: inner).foldlM (step .decimal64) .empty).outcome =
      .ok ⟨[three, two, eight], [.operator .multiply, .openParen, .operator .divide]⟩ := by
    decide +kernel
  have ends : (step .decimal64 ⟨[three, two, eight],
      [.operator .multiply, .openParen, .operator .divide]⟩ (8, .closeParen)).outcome =
        .ok closed := by decide +kernel
  have spelled : group.text = "(2*(3))" := rfl
  refine ⟨_, _, group, written, spelled,
    (((Precision.closedGroup_addsOnly_iff written reached ends).2 group).2.2.1 _).2 ?_⟩
  rw [spelled]
  decide +kernel

/-- The star of `1(*2)` takes the value in front of its group, and no value is added. -/
theorem Precision.not_forall_exists_values_eq_cons :
    ¬ ∀ (precision : Precision) (text : String) (front after : List (Nat × Token)) (stop : Nat)
      (state closed : Stacks),
      (Scan.ofChars (withoutBlanks text.toList)).tokens = front ++ (stop, .closeParen) :: after →
      (front.foldlM (step precision) .empty).outcome = .ok state →
      (step precision state (stop, .closeParen)).outcome = .ok closed →
        ∀ group : ClosedGroup precision front stop closed,
          ∃ value, closed.values = value :: group.opened.values := by
  intro adds
  let number (digit : Digit) : Token := .number none ⟨[digit], none, by simp⟩
  let one : Decimal := ⟨false, 1, 0, by decide, by decide⟩
  let two : Decimal := ⟨false, 2, 0, by decide, by decide⟩
  let before : List (Nat × Token) := [(0, number 1)]
  let inner : List (Nat × Token) := [(2, .operator .multiply), (3, number 2)]
  have opens : (before.foldlM (step .decimal64) .empty).outcome = .ok ⟨[one], []⟩ := by
    decide +kernel
  have closes : (((1, Token.openParen) :: inner ++ [(4, Token.closeParen)]).foldlM
      (step .decimal64) ⟨[one], []⟩).outcome = .ok ⟨[two], []⟩ := by decide +kernel
  have added := adds .decimal64 "1(*2)" (before ++ (1, .openParen) :: inner) [] 4
    ⟨[two, one], [.operator .multiply, .openParen]⟩ ⟨[two], []⟩ (by decide +kernel)
    (by decide +kernel) (by decide +kernel) (.ofTokens rfl opens closes)
  obtain ⟨value, same⟩ := added
  cases same

end Reckoner
