import Reckoner.Proofs.Acting

/-! # Counting operands, operators and parentheses

Applying an operator takes one value and one operator off the stacks. So the values exceed the
pending operators by what the tokens have put there, however the operators were unwound, and the
markers on the stack count the parentheses that are open. An evaluation that ends with one value has
met as many operands as it needed, but nothing says that it met them where they were due.
-/

namespace Reckoner

open Evaluation

variable {precision : Precision}

namespace Stacks

def pendingOperators (pending : List Pending) : Nat :=
  pending.countP fun entry => entry != .openParen

@[simp]
theorem pendingOperators_operator (operator : Operator) (pending : List Pending) :
    pendingOperators (.operator operator :: pending) = pendingOperators pending + 1 :=
  List.countP_cons_of_pos rfl

@[simp]
theorem pendingOperators_openParen (pending : List Pending) :
    pendingOperators (.openParen :: pending) = pendingOperators pending :=
  List.countP_cons_of_neg (by decide)

/-- How many more values than pending operators there are. -/
def excess (state : Stacks) : Int :=
  state.values.length - pendingOperators state.pending

/-- How many parentheses are open. -/
def depth (state : Stacks) : Nat :=
  state.pending.count .openParen

theorem length_of_combine {operator : Operator} {values combined : List Decimal}
    (h : combine precision operator values = .ok combined) :
    values.length = combined.length + 1 := by
  match values with
  | [] => cases h
  | [_] => cases h
  | right :: left :: values =>
    obtain ⟨value, _, same⟩ := bind_eq_ok_iff.1 h
    cases same
    rfl

theorem foldFor_keeps {incoming : Operator} {state folded : Stacks}
    (h : state.foldFor precision incoming = .ok folded) :
    folded.excess = state.excess ∧ folded.depth = state.depth := by
  refine foldFor_invariant precision
    (fun folded => folded.excess = state.excess ∧ folded.depth = state.depth) ?_ h ⟨rfl, rfl⟩
  rintro top values combined pending taken ⟨excess, depth⟩
  have shorter := length_of_combine taken
  rw [← excess, ← depth]
  constructor
  · simp only [Stacks.excess, pendingOperators_operator]
    omega
  · simp [Stacks.depth]

theorem settle_top {state settled : Stacks} (h : state.settle precision = .ok settled) :
    settled.pending = [] ∨ ∃ pending, settled.pending = .openParen :: pending := by
  obtain ⟨values, pending⟩ := state
  induction pending generalizing values with
  | nil => cases h; exact .inl rfl
  | cons entry pending ih =>
    cases entry with
    | openParen => cases h; exact .inr ⟨pending, rfl⟩
    | operator top =>
      rw [settle_operator] at h
      obtain ⟨combined, _, rest⟩ := bind_eq_ok_iff.1 h
      exact ih combined rest

theorem leave_eq_ok_iff {state left : Stacks} :
    state.leave = .ok left ↔ state = ⟨left.values, .openParen :: left.pending⟩ := by
  obtain ⟨values, pending⟩ := state
  obtain ⟨leftValues, leftPending⟩ := left
  match pending with
  | [] => simp [leave]
  | .openParen :: pending => simp [leave]
  | .operator _ :: pending => simp [leave]

theorem result_eq_ok_iff {state : Stacks} {value : Decimal} :
    state.result = .ok value ↔ state = ⟨[value], []⟩ := by
  obtain ⟨values, pending⟩ := state
  match pending, values with
  | [], [] => simp [result]
  | [], [_] => simp [result]
  | [], _ :: _ :: _ => simp [result]
  | _ :: _, _ => simp [result]

end Stacks

namespace Token

/-- What a token adds to the excess of values over pending operators. -/
def weight : Token → Int
  | number .. => 1
  | operator _ => -1
  | openParen | closeParen | sign _ => 0

/-- What tokens add to it together. -/
def totalWeight : List Token → Int
  | [] => 0
  | token :: tokens => token.weight + totalWeight tokens

/-- Whether every parenthesis in some tokens has its partner, when `depth` are open before them. -/
def Balanced : (depth : Nat) → List Token → Prop
  | depth, [] => depth = 0
  | depth, openParen :: tokens => Balanced (depth + 1) tokens
  | 0, closeParen :: _ => False
  | depth + 1, closeParen :: tokens => Balanced depth tokens
  | depth, _ :: tokens => Balanced depth tokens

theorem totalWeight_append (first second : List Token) :
    totalWeight (first ++ second) = totalWeight first + totalWeight second := by
  induction first with
  | nil => exact (Int.zero_add _).symm
  | cons token first ih => rw [List.cons_append, totalWeight, totalWeight, ih, Int.add_assoc]

theorem Balanced.append {depth below : Nat} {first second : List Token} (h : Balanced depth first)
    (h' : Balanced below second) : Balanced (depth + below) (first ++ second) := by
  induction first generalizing depth with
  | nil =>
    cases h
    rwa [Nat.zero_add]
  | cons token first ih =>
    cases token with
    | openParen =>
      have more := ih h
      rwa [Nat.succ_add] at more
    | closeParen =>
      cases depth with
      | zero => exact h.elim
      | succ depth =>
        rw [Nat.succ_add]
        exact ih h
    | operator | sign | number =>
      exact ih (by simpa [Balanced] using h)

theorem Balanced.concat {tokens : List Token} {token : Token} (h : Balanced 0 tokens)
    (h' : Balanced 0 [token]) : Balanced 0 (tokens ++ [token]) :=
  h.append h'

theorem Balanced.parens {tokens : List Token} (h : Balanced 0 tokens) :
    Balanced 0 (openParen :: tokens ++ [closeParen]) := by
  have last : Balanced 1 [closeParen] := rfl
  exact h.append last

end Token

namespace Evaluation

open Stacks

theorem excess_of_act {state acted : Stacks} {token : Token}
    (h : act precision state token = .ok acted) : acted.excess = state.excess + token.weight := by
  cases token with
  | openParen =>
    cases h
    simp only [excess, pendingOperators_openParen, Token.weight]
    omega
  | closeParen =>
    obtain ⟨settled, unwound, left⟩ := bind_eq_ok_iff.1 h
    rw [← (foldFor_keeps unwound).1, leave_eq_ok_iff.1 left]
    simp only [excess, pendingOperators_openParen, Token.weight]
    omega
  | operator operator =>
    obtain ⟨folded, unwound, pushed⟩ := bind_eq_ok_iff.1 h
    cases pushed
    rw [← (foldFor_keeps unwound).1]
    simp only [excess, pendingOperators_operator, Token.weight]
    omega
  | sign sign =>
    cases h
    simp only [excess, pendingOperators_operator, List.length_cons, Token.weight]
    omega
  | number sign literal =>
    obtain ⟨value, _, pushed⟩ := bind_eq_ok_iff.1 h
    cases pushed
    simp only [excess, List.length_cons, Token.weight]
    omega

theorem excess_of_exec {state final : Stacks} {tokens : List Token}
    (h : exec precision tokens state = .ok final) :
    final.excess = state.excess + Token.totalWeight tokens := by
  induction tokens generalizing state with
  | nil => cases h; exact (Int.add_zero _).symm
  | cons token tokens ih =>
    rw [exec_cons] at h
    obtain ⟨acted, first, rest⟩ := bind_eq_ok_iff.1 h
    rw [ih rest, excess_of_act first, Token.totalWeight, Int.add_assoc]

/-- Where an evaluation succeeds, its tokens put one value more than operators on the stacks. -/
theorem totalWeight_of_conclude {tokens : List Token} {value : Decimal}
    (h : exec precision tokens .empty >>= conclude precision none = .ok value) :
    Token.totalWeight tokens = 1 := by
  obtain ⟨final, acted, ended⟩ := bind_eq_ok_iff.1 h
  obtain ⟨settled, unwound, only⟩ := bind_eq_ok_iff.1 ended
  have total := excess_of_exec acted
  rw [← (foldFor_keeps unwound).1, result_eq_ok_iff.1 only] at total
  simpa [excess, pendingOperators, Stacks.empty] using total.symm

theorem depth_of_act {state acted : Stacks} {token : Token}
    (h : act precision state token = .ok acted) :
    match token with
    | .openParen => acted.depth = state.depth + 1
    | .closeParen => state.depth = acted.depth + 1
    | _ => state.depth = acted.depth := by
  cases token with
  | openParen =>
    cases h
    simp [Stacks.depth]
  | closeParen =>
    obtain ⟨settled, unwound, left⟩ := bind_eq_ok_iff.1 h
    dsimp only
    rw [← (foldFor_keeps unwound).2, leave_eq_ok_iff.1 left]
    simp [Stacks.depth]
  | operator operator =>
    obtain ⟨folded, unwound, pushed⟩ := bind_eq_ok_iff.1 h
    cases pushed
    dsimp only
    rw [← (foldFor_keeps unwound).2]
    simp [Stacks.depth]
  | sign sign =>
    cases h
    simp [Stacks.depth]
  | number sign literal =>
    obtain ⟨value, _, pushed⟩ := bind_eq_ok_iff.1 h
    cases pushed
    rfl

/-- Tokens that close what is open at `depth` leave the others open. -/
theorem depth_of_exec {tokens : List Token} {depth : Nat} {state final : Stacks}
    (balanced : Token.Balanced depth tokens) (h : exec precision tokens state = .ok final) :
    state.depth = final.depth + depth := by
  induction tokens generalizing depth state with
  | nil =>
    cases h
    cases balanced
    rfl
  | cons token tokens ih =>
    rw [exec_cons] at h
    obtain ⟨acted, first, rest⟩ := bind_eq_ok_iff.1 h
    have changed := depth_of_act first
    cases token with
    | openParen =>
      have := ih balanced rest
      dsimp only at changed
      omega
    | closeParen =>
      cases depth with
      | zero => exact balanced.elim
      | succ depth =>
        have := ih balanced rest
        dsimp only at changed
        omega
    | operator | sign | number =>
      have := ih (by simpa [Token.Balanced] using balanced) rest
      dsimp only at changed
      omega

theorem balanced_of_act {state acted : Stacks} {token : Token} {tokens : List Token}
    (h : act precision state token = .ok acted) (after : Token.Balanced acted.depth tokens) :
    Token.Balanced state.depth (token :: tokens) := by
  have depth := depth_of_act h
  cases token with
  | openParen =>
    rw [depth] at after
    exact after
  | closeParen =>
    rw [depth]
    exact after
  | operator | sign | number =>
    rw [depth]
    simpa [Token.Balanced] using after

theorem balanced_of_conclude {tokens : List Token} {state : Stacks} {value : Decimal}
    (h : exec precision tokens state >>= conclude precision none = .ok value) :
    Token.Balanced state.depth tokens := by
  induction tokens generalizing state with
  | nil =>
    rw [exec_nil, ok_bind] at h
    obtain ⟨settled, unwound, only⟩ := bind_eq_ok_iff.1 h
    rw [Token.Balanced, ← (foldFor_keeps unwound).2, result_eq_ok_iff.1 only]
    rfl
  | cons token tokens ih =>
    rw [exec_cons, bind_assoc] at h
    obtain ⟨acted, first, rest⟩ := bind_eq_ok_iff.1 h
    exact balanced_of_act first (ih rest)

end Evaluation

end Reckoner
