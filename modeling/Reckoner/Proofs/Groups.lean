import Reckoner.Proofs.Counting
import Reckoner.Proofs.Kept
import Reckoner.Proofs.Reading
import Reckoner.Proofs.Storing

/-! # Groups come to the same value everywhere

What happens between a parenthesis and its partner does not look at what the stacks held before, as
long as no operator misses an operand: the marker stops every unwinding, as the bottom of the stacks
does. So a text that has a value, with or without parentheses around it, puts that value on the
stacks wherever it stands between parentheses.
-/

namespace Reckoner

variable {precision : Precision}

namespace Stacks

/-- These stacks on top of other ones. -/
def upon (state base : Stacks) : Stacks :=
  ⟨state.values ++ base.values, state.pending ++ base.pending⟩

/-- These stacks behind an open parenthesis, with other entries below it. -/
def above (state outer : Stacks) : Stacks :=
  ⟨state.values ++ outer.values, state.pending ++ .openParen :: outer.pending⟩

/-- Stacks that hold no values, so that nothing can be taken from below. -/
def bare (pending : List Pending) : Stacks :=
  ⟨[], pending⟩

/-- Whether unwinding stops at the top of these stacks. -/
def IsFloor (base : Stacks) : Prop :=
  base.pending = [] ∨ ∃ pending, base.pending = .openParen :: pending

theorem isFloor_empty : Stacks.empty.IsFloor :=
  .inl rfl

theorem isFloor_openParen (values : List Decimal) (pending : List Pending) :
    IsFloor ⟨values, .openParen :: pending⟩ :=
  .inr ⟨pending, rfl⟩

theorem IsFloor.foldFor {base : Stacks} (floor : base.IsFloor) (incoming : Operator)
    (values : List Decimal) :
    foldFor precision incoming ⟨values, base.pending⟩ = .ok ⟨values, base.pending⟩ := by
  rcases floor with none | ⟨pending, marked⟩
  · rw [none, foldFor_nil]
  · rw [marked, foldFor_openParen]

theorem combine_append {operator : Operator} {values combined : List Decimal}
    (h : combine precision operator values = .ok combined) (below : List Decimal) :
    combine precision operator (values ++ below) = .ok (combined ++ below) := by
  match values with
  | [] => cases h
  | [_] => cases h
  | right :: left :: values =>
    obtain ⟨value, made, same⟩ := bind_eq_ok_iff.1 h
    cases same
    simp [combine, made]

theorem foldFor_upon {incoming : Operator} {state folded : Stacks} {base : List Pending}
    (floor : (bare base).IsFloor)
    (h : (state.upon (bare base)).foldFor precision incoming = .ok folded) :
    ∃ inner : Stacks, folded = inner.upon (bare base) ∧ inner.depth = state.depth ∧
      ∀ outer : Stacks, outer.IsFloor →
        (state.upon outer).foldFor precision incoming = .ok (inner.upon outer) := by
  obtain ⟨values, pending⟩ := state
  induction pending generalizing values with
  | nil =>
    have stays : ∀ outer : Stacks, outer.IsFloor →
        (upon ⟨values, []⟩ outer).foldFor precision incoming = .ok (upon ⟨values, []⟩ outer) :=
      fun outer floor => floor.foldFor incoming (values ++ outer.values)
    rw [stays _ floor] at h
    cases h
    exact ⟨⟨values, []⟩, rfl, rfl, stays⟩
  | cons entry pending ih =>
    cases entry with
    | openParen =>
      cases h
      exact ⟨⟨values, .openParen :: pending⟩, rfl, rfl, fun _ _ => rfl⟩
    | operator top =>
      by_cases low : top.precedence < incoming.precedence
      · have kept : ∀ outer : Stacks,
            (upon ⟨values, .operator top :: pending⟩ outer).foldFor precision incoming =
              .ok (upon ⟨values, .operator top :: pending⟩ outer) :=
          fun outer => foldFor_of_lt precision low _ _
        rw [kept] at h
        cases h
        exact ⟨_, rfl, rfl, fun outer _ => kept outer⟩
      · have unwound : ∀ outer : Stacks,
            (upon ⟨values, .operator top :: pending⟩ outer).foldFor precision incoming =
              combine precision top (values ++ outer.values) >>= fun combined =>
                foldFor precision incoming ⟨combined, pending ++ outer.pending⟩ :=
          fun outer => foldFor_of_le precision (by omega) _ _
        rw [unwound] at h
        obtain ⟨combined, taken, rest⟩ := bind_eq_ok_iff.1 h
        rw [bare, List.append_nil] at taken
        have here : (upon ⟨combined, pending⟩ (bare base)).foldFor precision incoming =
            .ok folded := by
          rw [upon, bare, List.append_nil]
          exact rest
        obtain ⟨inner, same, depth, everywhere⟩ := ih combined here
        refine ⟨inner, same, depth, fun outer floor => ?_⟩
        rw [unwound, combine_append taken outer.values]
        exact everywhere outer floor

theorem settle_upon {state settled : Stacks} {base : List Pending} (floor : (bare base).IsFloor)
    (h : (state.upon (bare base)).settle precision = .ok settled) (shut : state.depth = 0) :
    ∃ values, settled = ⟨values, base⟩ ∧ ∀ outer : Stacks, outer.IsFloor →
      (state.upon outer).settle precision = .ok ⟨values ++ outer.values, outer.pending⟩ := by
  obtain ⟨⟨values, pending⟩, same, depth, everywhere⟩ := foldFor_upon floor h
  have top := settle_top h
  rw [same] at top
  rw [shut] at depth
  cases pending with
  | nil => exact ⟨values, by simp [same, upon, bare], everywhere⟩
  | cons entry pending =>
    cases entry with
    | openParen => simp [Stacks.depth] at depth
    | operator operator => simp [upon] at top

end Stacks

namespace Evaluation

open Stacks

/-- A token that succeeds with no values below, and does not close what was open before, does the
    same with anything below. -/
theorem act_upon {token : Token} {tokens : List Token} {state acted : Stacks}
    {base : List Pending} (floor : (bare base).IsFloor)
    (h : act precision (state.upon (bare base)) token = .ok acted)
    (balanced : Token.Balanced state.depth (token :: tokens)) :
    ∃ next : Stacks, acted = next.upon (bare base) ∧ Token.Balanced next.depth tokens ∧
      ∀ outer : Stacks, outer.IsFloor →
        act precision (state.upon outer) token = .ok (next.upon outer) := by
  cases token with
  | openParen =>
    cases h
    refine ⟨⟨state.values, .openParen :: state.pending⟩, rfl, ?_, fun _ _ => rfl⟩
    simpa [Token.Balanced, Stacks.depth] using balanced
  | sign sign =>
    cases h
    refine ⟨⟨.zero :: state.values, .operator sign.operator :: state.pending⟩, rfl, ?_,
      fun _ _ => rfl⟩
    simpa [Token.Balanced, Stacks.depth] using balanced
  | number sign literal =>
    obtain ⟨value, read, pushed⟩ := bind_eq_ok_iff.1 h
    cases pushed
    refine ⟨⟨value :: state.values, state.pending⟩, rfl, balanced, fun outer _ => ?_⟩
    simp [act, read, upon]
  | operator operator =>
    obtain ⟨folded, unwound, pushed⟩ := bind_eq_ok_iff.1 h
    obtain ⟨inner, rfl, depth, everywhere⟩ := foldFor_upon floor unwound
    cases pushed
    refine ⟨⟨inner.values, .operator operator :: inner.pending⟩, rfl, ?_, fun outer floor => ?_⟩
    · have same : Stacks.depth ⟨inner.values, .operator operator :: inner.pending⟩ =
          state.depth := by
        rw [← depth]
        simp [Stacks.depth]
      rw [same]
      exact balanced
    · simp only [act, everywhere outer floor, ok_bind]
      rfl
  | closeParen =>
    obtain ⟨settled, unwound, left⟩ := bind_eq_ok_iff.1 h
    obtain ⟨⟨values, pending⟩, rfl, depth, everywhere⟩ := foldFor_upon floor unwound
    have top := settle_top unwound
    rw [← depth] at balanced
    cases pending with
    | nil => exact balanced.elim
    | cons entry pending =>
      cases entry with
      | operator operator => simp [upon] at top
      | openParen =>
        cases left
        refine ⟨⟨values, pending⟩, rfl, ?_, fun outer floor => ?_⟩
        · simpa [Token.Balanced, Stacks.depth] using balanced
        · show Stacks.foldFor precision .add (state.upon outer) >>= leave = _
          rw [everywhere outer floor]
          rfl

theorem exec_upon {tokens : List Token} {state final : Stacks} {base : List Pending}
    (floor : (bare base).IsFloor)
    (h : exec precision tokens (state.upon (bare base)) = .ok final)
    (balanced : Token.Balanced state.depth tokens) :
    ∃ inner : Stacks, inner.depth = 0 ∧ final = inner.upon (bare base) ∧
      ∀ outer : Stacks, outer.IsFloor →
        exec precision tokens (state.upon outer) = .ok (inner.upon outer) := by
  induction tokens generalizing state with
  | nil =>
    cases h
    exact ⟨state, balanced, rfl, fun _ _ => rfl⟩
  | cons token tokens ih =>
    rw [exec_cons] at h
    obtain ⟨acted, first, rest⟩ := bind_eq_ok_iff.1 h
    obtain ⟨next, rfl, remains, everywhere⟩ := act_upon floor first balanced
    obtain ⟨inner, shut, ends, after⟩ := ih rest remains
    refine ⟨inner, shut, ends, fun outer floor => ?_⟩
    rw [exec_cons, everywhere outer floor, ok_bind, after outer floor]

theorem exec_parens (tokens : List Token) (state : Stacks) :
    exec precision (.openParen :: tokens ++ [.closeParen]) state =
      exec precision tokens (above ⟨[], []⟩ state) >>= fun final =>
        final.settle precision >>= leave := by
  rw [List.cons_append, exec_cons, act, ok_bind, exec_append]
  exact bind_congr fun final => exec_singleton precision .closeParen final

theorem exec_parens_of_settle {tokens : List Token} {value : Decimal} {base : List Pending}
    (floor : (bare base).IsFloor) (balanced : Token.Balanced 0 tokens)
    (h : exec precision tokens (bare base) >>= settle precision = .ok ⟨[value], base⟩)
    (state : Stacks) :
    exec precision (.openParen :: tokens ++ [.closeParen]) state =
      .ok ⟨value :: state.values, state.pending⟩ := by
  obtain ⟨final, acted, unwound⟩ := bind_eq_ok_iff.1 h
  have started : exec precision tokens (upon ⟨[], []⟩ (bare base)) = .ok final := acted
  obtain ⟨inner, shut, rfl, everywhere⟩ := exec_upon floor started balanced
  obtain ⟨values, same, settles⟩ := settle_upon floor unwound shut
  cases same
  have marked := isFloor_openParen state.values state.pending
  have inside : exec precision tokens (above ⟨[], []⟩ state) =
      .ok (inner.upon ⟨state.values, .openParen :: state.pending⟩) := everywhere _ marked
  rw [exec_parens, inside, ok_bind, settles _ marked]
  rfl

theorem exec_group {tokens : List Token} {value : Decimal} (balanced : Token.Balanced 0 tokens)
    (h : exec precision (.openParen :: tokens ++ [.closeParen]) .empty >>=
      conclude precision none = .ok value) (state : Stacks) :
    exec precision (.openParen :: tokens ++ [.closeParen]) state =
      .ok ⟨value :: state.values, state.pending⟩ := by
  rw [exec_parens] at h
  obtain ⟨closed, inside, concluded⟩ := bind_eq_ok_iff.1 h
  obtain ⟨final, acted, left⟩ := bind_eq_ok_iff.1 inside
  obtain ⟨settled, unwound, leaving⟩ := bind_eq_ok_iff.1 left
  -- The marker is a floor: nothing but it is below the tokens in between.
  have floor := isFloor_openParen [] []
  have started : exec precision tokens (upon ⟨[], []⟩ (bare [.openParen])) = .ok final := acted
  obtain ⟨inner, shut, rfl, -⟩ := exec_upon floor started balanced
  obtain ⟨values, rfl, -⟩ := settle_upon floor unwound shut
  cases leaving
  obtain ⟨alone, stays, only⟩ := bind_eq_ok_iff.1 concluded
  cases stays
  obtain rfl : values = [value] := congrArg Stacks.values (result_eq_ok_iff.1 only)
  exact exec_parens_of_settle floor balanced (bind_eq_ok_iff.2 ⟨_, acted, unwound⟩) state

/-- A text that has a value puts it on any stacks when parentheses stand around it. -/
theorem exec_parens_of_conclude {tokens : List Token} {value : Decimal}
    (h : exec precision tokens .empty >>= conclude precision none = .ok value) (state : Stacks) :
    exec precision (.openParen :: tokens ++ [.closeParen]) state =
      .ok ⟨value :: state.values, state.pending⟩ := by
  have balanced : Token.Balanced 0 tokens := balanced_of_conclude h
  obtain ⟨final, acted, concluded⟩ := bind_eq_ok_iff.1 h
  obtain ⟨settled, unwound, only⟩ := bind_eq_ok_iff.1 concluded
  refine exec_parens_of_settle isFloor_empty balanced ?_ state
  rw [result_eq_ok_iff.1 only] at unwound
  exact bind_eq_ok_iff.2 ⟨final, acted, unwound⟩

/-! ## Values on the stacks -/

theorem keeps_of_ofLiteral {literal : Literal} {value : Decimal}
    (h : precision.ofLiteral literal = .ok value) :
    precision.Keeps value ∧ value.normalize = value := by
  unfold Precision.ofLiteral at h
  split at h
  · cases h
  split at h
  · exact Precision.keeps_of_round h
  · cases h

theorem ofSigned_eq_ok {sign : Option Sign} {literal : Literal} {value : Decimal}
    (h : precision.ofSigned sign literal = .ok value) :
    ∃ magnitude, precision.ofLiteral literal = .ok magnitude ∧
      value = sign.elim magnitude (·.on magnitude) := by
  cases sign with
  | none =>
    rw [Precision.ofSigned_none] at h
    exact ⟨value, h, rfl⟩
  | some sign =>
    cases read : precision.ofLiteral literal with
    | error cause =>
      simp only [Precision.ofSigned, read] at h
      cases h
    | ok magnitude =>
      rw [Precision.ofSigned_some read] at h
      cases h
      exact ⟨magnitude, rfl, rfl⟩

end Evaluation

/-- What a working precision ensures of all values it makes: of the zero before a sign, of literals
    and of results. -/
structure Precision.Ensures (precision : Precision) (P : Decimal → Prop) : Prop where
  zero : P .zero
  signed : ∀ sign literal value, precision.ofSigned sign literal = .ok value → P value
  result : ∀ operator left right value, precision.apply operator left right = .ok value → P value

namespace Precision.Ensures

open Evaluation Stacks

variable {P : Decimal → Prop}

theorem combine (ensures : precision.Ensures P) {operator : Operator}
    {values combined : List Decimal} (h : combine precision operator values = .ok combined)
    (all : ∀ value ∈ values, P value) : ∀ value ∈ combined, P value := by
  match values with
  | [] => cases h
  | [_] => cases h
  | right :: left :: values =>
    obtain ⟨result, made, same⟩ := bind_eq_ok_iff.1 h
    cases same
    have first : P result := ensures.result operator left right result (mapError_eq_ok_iff.1 made)
    intro value member
    rcases List.mem_cons.1 member with rfl | member
    · exact first
    · exact all value (by simp [member])

theorem foldFor (ensures : precision.Ensures P) {incoming : Operator} {state folded : Stacks}
    (h : state.foldFor precision incoming = .ok folded) (all : ∀ value ∈ state.values, P value) :
    ∀ value ∈ folded.values, P value :=
  foldFor_invariant precision (fun state => ∀ value ∈ state.values, P value)
    (fun _ _ _ _ taken all => ensures.combine taken all) h all

theorem act (ensures : precision.Ensures P) {token : Token} {state acted : Stacks}
    (h : act precision state token = .ok acted) (all : ∀ value ∈ state.values, P value) :
    ∀ value ∈ acted.values, P value := by
  cases token with
  | openParen => cases h; exact all
  | closeParen =>
    obtain ⟨settled, unwound, left⟩ := bind_eq_ok_iff.1 h
    have after := ensures.foldFor unwound all
    rwa [leave_eq_ok_iff.1 left] at after
  | operator operator =>
    obtain ⟨folded, unwound, pushed⟩ := bind_eq_ok_iff.1 h
    have after := ensures.foldFor unwound all
    cases pushed
    exact after
  | sign sign =>
    cases h
    exact List.forall_mem_cons.2 ⟨ensures.zero, all⟩
  | number sign literal =>
    obtain ⟨value, made, pushed⟩ := bind_eq_ok_iff.1 h
    cases pushed
    have signed := ensures.signed sign literal value (mapError_eq_ok_iff.1 made)
    exact List.forall_mem_cons.2 ⟨signed, all⟩

theorem exec (ensures : precision.Ensures P) {tokens : List Token} {state final : Stacks}
    (h : exec precision tokens state = .ok final) (all : ∀ value ∈ state.values, P value) :
    ∀ value ∈ final.values, P value :=
  exec_invariant precision (fun state => ∀ value ∈ state.values, P value)
    (fun _ _ _ acts all => ensures.act acts all) h all

theorem value (ensures : precision.Ensures P) {tokens : List Token} {value : Decimal}
    (h : Evaluation.exec precision tokens .empty >>= conclude precision none = .ok value) :
    P value := by
  obtain ⟨final, acted, concluded⟩ := bind_eq_ok_iff.1 h
  obtain ⟨settled, unwound, only⟩ := bind_eq_ok_iff.1 concluded
  have all := ensures.exec acted (by simp [Stacks.empty])
  have last := ensures.foldFor unwound all
  rw [result_eq_ok_iff.1 only] at last
  exact last value (List.mem_singleton.2 rfl)

end Precision.Ensures

theorem Precision.ensures_keeps : precision.Ensures precision.Keeps where
  zero := Precision.keeps_zero
  signed sign literal value h := by
    obtain ⟨magnitude, read, rfl⟩ := Evaluation.ofSigned_eq_ok h
    have kept := (Evaluation.keeps_of_ofLiteral read).1
    cases sign with
    | none => exact kept
    | some sign => exact kept.on sign
  result operator left right value h := by
    obtain ⟨stored, -, rounded, -⟩ := Precision.stored_of_apply h
    exact (Precision.keeps_of_round rounded).1

end Reckoner
