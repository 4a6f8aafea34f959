import Reckoner.Proofs.Groups
import Reckoner.Proofs.Replay

/-! # What a group takes from outside

The marker of a parenthesis stops every unwinding, so the operators pending outside are left alone.
Nothing stops an operator inside from taking a value that was there before. A group that does so
fails where there is no such value; any other does the same with anything below. Which of the two
it is can be seen from its events: those of a group that needs nothing from outside can be replayed
on no values at all.
-/

namespace Reckoner

open Evaluation Event Stacks

variable {precision : Precision}

/-- A computation that needs nothing from below some stacks, and does the same on top of any. -/
structure Isolated (precision : Precision) (inner : Stacks) (run : Stacks → Traced Stacks)
    (events : List Event) (next : Stacks) : Prop where
  replays : replayAll? precision inner.values events = some next.values
  everywhere : ∀ outer, run (inner.upon outer) = ⟨events, .ok (next.upon outer)⟩

/-- A computation that takes values from below some stacks, and fails where there are none. -/
structure Reaches (precision : Precision) (inner : Stacks) (run : Stacks → Traced Stacks)
    (events : List Event) : Prop where
  replays : replayAll? precision inner.values events = none
  fails : ∀ pending, (run (inner.upon (bare pending))).outcome = .error .malformedExpression

/-- Whether a computation, where it succeeds on top of `outer`, either needs nothing from there or
    fails without its values. -/
def Splits (precision : Precision) (inner outer : Stacks) (run : Stacks → Traced Stacks) : Prop :=
  ∀ events final, run (inner.upon outer) = ⟨events, .ok final⟩ →
    (∃ next, Isolated precision inner run events next) ∨ Reaches precision inner run events

theorem Traced.bind_eq_ok_iff {α β : Type} {first : Traced α} {next : α → Traced β}
    {events : List Event} {value : β} :
    (first >>= next) = ⟨events, .ok value⟩ ↔ ∃ before middle after,
      first = ⟨before, .ok middle⟩ ∧ next middle = ⟨after, .ok value⟩ ∧
        before ++ after = events := by
  obtain ⟨before, outcome⟩ := first
  cases outcome with
  | error error =>
    rw [Traced.bind_of_error rfl]
    simp
  | ok middle =>
    rw [Traced.bind_of_ok rfl]
    constructor
    · intro same
      refine ⟨before, middle, (next middle).events, rfl, ?_, congrArg Traced.events same⟩
      have outcome : (next middle).outcome = .ok value := congrArg Traced.outcome same
      rw [← outcome]
    · rintro ⟨_, _, after, same, run, rfl⟩
      cases same
      rw [run]

theorem Stacks.apply_eq_ok_iff {operator : Operator} {values combined : List Decimal}
    {events : List Event} :
    apply precision operator values = ⟨events, .ok combined⟩ ↔ ∃ right left others result,
      values = right :: left :: others ∧ precision.apply operator left right = .ok result ∧
        [.applied operator left right result] = events ∧ result :: others = combined := by
  match values with
  | [] => simp [apply, Traced.fail]
  | [_] => simp [apply, Traced.fail]
  | right :: left :: others =>
    cases made : precision.apply operator left right with
    | error error => simp [apply, made, Traced.fail]
    | ok result => simp [apply, made]

theorem Stacks.depth_upon (state base : Stacks) :
    (state.upon base).depth = state.depth + base.depth :=
  List.count_append

namespace Splits

variable {inner outer : Stacks} {run first rest : Stacks → Traced Stacks}

theorem of_isolated (events : List Event) (next : Stacks)
    (h : Isolated precision inner run events next) : Splits precision inner outer run := by
  intro events' final succeeds
  cases (h.everywhere outer).symm.trans succeeds
  exact .inl ⟨next, h⟩

theorem congr (h : Splits precision inner outer first)
    (same : ∀ below, first (inner.upon below) = run (inner.upon below)) :
    Splits precision inner outer run := by
  intro events final succeeds
  rw [← same] at succeeds
  rcases h events final succeeds with ⟨next, isolated⟩ | reaches
  · exact .inl ⟨next, isolated.replays, fun below => (same below).symm.trans
      (isolated.everywhere below)⟩
  · exact .inr ⟨reaches.replays, fun pending => by rw [← same, reaches.fails]⟩

theorem bind (h : Splits precision inner outer first)
    (h' : ∀ next, (first (inner.upon outer)).outcome = .ok (next.upon outer) →
      Splits precision next outer rest) :
    Splits precision inner outer fun state => first state >>= rest := by
  intro events final succeeds
  obtain ⟨before, middle, after, ran, continued, rfl⟩ := Traced.bind_eq_ok_iff.1 succeeds
  rcases h before middle ran with ⟨next, isolated⟩ | reaches
  · have here := isolated.everywhere outer
    cases here.symm.trans ran
    rcases h' next (by rw [here]) after final continued with ⟨last, isolated'⟩ | reaches'
    · refine .inl ⟨last, (replayAll?_append isolated.replays).trans isolated'.replays, ?_⟩
      intro below
      exact Traced.bind_eq_ok_iff.2
        ⟨before, _, after, isolated.everywhere below, isolated'.everywhere below, rfl⟩
    · refine .inr ⟨(replayAll?_append isolated.replays).trans reaches'.replays, fun pending => ?_⟩
      rw [Traced.outcome_bind, isolated.everywhere]
      exact reaches'.fails pending
  · refine .inr ⟨?_, fun pending => ?_⟩
    · rw [replayAll?_append_eq_bind, reaches.replays]
      rfl
    · rw [Traced.outcome_bind, reaches.fails]
      rfl

theorem apply (top : Operator) (values : List Decimal) (pending : List Pending) :
    Splits precision ⟨values, .operator top :: pending⟩ outer fun state =>
      Stacks.apply precision top state.values >>= fun combined =>
        pure ⟨combined, state.pending.tail⟩ := by
  intro events final succeeds
  obtain ⟨_, combined, _, applied, rest, rfl⟩ := Traced.bind_eq_ok_iff.1 succeeds
  obtain ⟨right, left, others, result, split, made, rfl, rfl⟩ := apply_eq_ok_iff.1 applied
  cases rest
  match values with
  | [] => exact .inr ⟨rfl, fun _ => rfl⟩
  | [_] => exact .inr ⟨rfl, fun _ => rfl⟩
  | top :: second :: values =>
    cases split
    refine .inl ⟨⟨result :: values, pending⟩, ?_, fun below => ?_⟩
    · simp [replayAll?, replay?, made, Except.toOption]
    · exact Traced.bind_eq_ok_iff.2
        ⟨_, _, [], apply_eq_ok_iff.2 ⟨_, _, _, _, rfl, made, rfl, rfl⟩, rfl, rfl⟩

theorem unwind {top : Operator} {values : List Decimal} {pending : List Pending}
    (h : ∀ combined, Splits precision ⟨combined, pending⟩ outer rest) :
    Splits precision ⟨values, .operator top :: pending⟩ outer fun state =>
      Stacks.apply precision top state.values >>= fun combined =>
        rest ⟨combined, state.pending.tail⟩ := by
  have both : Splits precision ⟨values, .operator top :: pending⟩ outer fun state =>
      (Stacks.apply precision top state.values >>= fun combined =>
        pure ⟨combined, state.pending.tail⟩) >>= rest := by
    refine (apply top values pending).bind fun next taken => ?_
    rw [Traced.outcome_bind] at taken
    obtain ⟨combined, -, same⟩ := Reckoner.bind_eq_ok_iff.1 taken
    have kept : pending ++ outer.pending = next.pending ++ outer.pending :=
      congrArg Stacks.pending (Except.ok.inj same)
    obtain ⟨values, _⟩ := next
    cases List.append_cancel_right kept
    exact h values
  simpa only [bind_assoc, pure_bind] using both

theorem fold (incoming : Operator) (deep : 0 < inner.depth) :
    Splits precision inner outer fun state =>
      Stacks.fold precision incoming state.pending state.values := by
  obtain ⟨values, pending⟩ := inner
  induction pending generalizing values with
  | nil => cases deep
  | cons entry pending ih =>
    cases entry with
    | openParen =>
      exact of_isolated [] ⟨values, .openParen :: pending⟩
        ⟨rfl, fun _ => rfl⟩
    | operator top =>
      by_cases low : top.precedence < incoming.precedence
      · refine of_isolated [] ⟨values, .operator top :: pending⟩
          ⟨rfl, fun below => ?_⟩
        simp only [upon, List.cons_append, Stacks.fold, low, if_true]
        rfl
      · have shut : 0 < Stacks.depth ⟨values, pending⟩ := by
          simpa [Stacks.depth] using deep
        refine (unwind fun combined => ih combined shut).congr fun below => ?_
        simp only [upon, List.cons_append, Stacks.fold, low, if_false, List.tail_cons]

theorem close (deep : 0 < inner.depth) :
    Splits precision inner outer fun state =>
      Stacks.close precision state.pending state.values := by
  obtain ⟨values, pending⟩ := inner
  induction pending generalizing values with
  | nil => cases deep
  | cons entry pending ih =>
    cases entry with
    | openParen =>
      exact of_isolated [] ⟨values, pending⟩ ⟨rfl, fun _ => rfl⟩
    | operator top =>
      have shut : 0 < Stacks.depth ⟨values, pending⟩ := by
        simpa [Stacks.depth] using deep
      refine (unwind fun combined => ih combined shut).congr fun below => ?_
      simp only [upon, List.cons_append, Stacks.close, List.tail_cons]

/-- A token inside of a parenthesis needs nothing from outside or fails without it. -/
theorem step (placed : Nat × Token) (deep : 0 < inner.depth) :
    Splits precision inner outer fun state => Evaluation.step precision state placed := by
  obtain ⟨position, token⟩ := placed
  cases token with
  | openParen =>
    exact of_isolated [.parenOpened position]
      ⟨inner.values, .openParen :: inner.pending⟩ ⟨rfl, fun _ => rfl⟩
  | closeParen =>
    exact (close deep).bind fun next _ =>
      of_isolated [.parenClosed position] next ⟨rfl, fun _ => rfl⟩
  | operator operator =>
    exact (fold operator deep).bind fun next _ =>
      of_isolated [.operatorPushed operator position]
        ⟨next.values, .operator operator :: next.pending⟩ ⟨rfl, fun _ => rfl⟩
  | sign sign =>
    exact of_isolated [.signPushed sign.operator position]
      ⟨.zero :: inner.values, .operator sign.operator :: inner.pending⟩
      ⟨rfl, fun _ => rfl⟩
  | number sign literal =>
    cases read : (precision.ofSigned sign literal).mapError (·.toEvalError) with
    | error error =>
      intro events final succeeds
      simp only [Evaluation.step, read] at succeeds
      cases succeeds
    | ok value =>
      refine of_isolated [.valuePushed value position]
        ⟨value :: inner.values, inner.pending⟩ ⟨rfl, fun below => ?_⟩
      simp only [Evaluation.step, read]
      rfl

theorem foldlM_step {placed : List (Nat × Token)} {below : Nat}
    (balanced : Token.Balanced below (placed.map (·.2))) (deep : inner.depth = below + 1) :
    Splits precision inner outer fun state =>
      placed.foldlM (Evaluation.step precision) state := by
  induction placed generalizing inner below with
  | nil => exact of_isolated [] inner ⟨rfl, fun _ => rfl⟩
  | cons first placed ih =>
    simp only [List.foldlM_cons]
    refine (step first (by omega)).bind fun next acted => ?_
    rw [outcome_step] at acted
    have changed := depth_of_act acted
    simp only [depth_upon] at changed
    obtain ⟨position, token⟩ := first
    cases token with
    | openParen => exact ih balanced (by dsimp only at changed; omega)
    | closeParen =>
      cases below with
      | zero => exact balanced.elim
      | succ below => exact ih balanced (by dsimp only at changed; omega)
    | operator | sign | number =>
      exact ih (by simpa [Token.Balanced] using balanced) (by dsimp only at changed; omega)

theorem group {placed : List (Nat × Token)} (balanced : Token.Balanced 0 (placed.map (·.2)))
    (start stop : Nat) :
    Splits precision .empty outer fun state =>
      ((start, Token.openParen) :: placed ++ [(stop, Token.closeParen)]).foldlM
        (Evaluation.step precision) state := by
  simp only [List.cons_append, List.foldlM_cons, List.foldlM_append, List.foldlM_nil, bind_pure]
  have opens : Splits precision .empty outer fun state =>
      Evaluation.step precision state (start, .openParen) :=
    of_isolated [.parenOpened start] ⟨[], [.openParen]⟩ ⟨rfl, fun _ => rfl⟩
  refine opens.bind fun next marked => ?_
  have opened := depth_of_act ((outcome_step ..).symm.trans marked)
  simp only [depth_upon] at opened
  have deep : next.depth = 1 := by
    have none : Stacks.empty.depth = 0 := rfl
    omega
  refine (foldlM_step balanced deep).bind fun last acted => step (stop, Token.closeParen) ?_
  rw [outcome_foldlM_step] at acted
  have same := depth_of_exec balanced acted
  simp only [depth_upon] at same
  omega

end Splits

end Reckoner
