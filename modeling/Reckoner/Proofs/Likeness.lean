import Mathlib.Data.List.Forall2
import Reckoner.Proofs.Acting
import Reckoner.Proofs.Kept

/-! # Zeros with and without a sign

A zero that has been given a minus sign stays different from other zeros as long as nothing is done
to it. No operation tells them apart: it fails alike or has the very same result. So two evaluations
that go on from stacks which differ in the signs of zeros only end with the same number or the same
error.
-/

namespace Reckoner

/-- Whether two decimals are the same but for the sign of a zero. -/
def Decimal.Alike (first second : Decimal) : Prop :=
  first = second ∨ first.isZero = true ∧ second.isZero = true

namespace Decimal.Alike

variable {first second : Decimal}

theorem refl (value : Decimal) : value.Alike value :=
  .inl rfl

theorem neg (h : first.Alike second) : first.neg.Alike second.neg := by
  rcases h with rfl | zeros
  · exact .refl _
  · exact .inr zeros

theorem isZero_eq (h : first.Alike second) : first.isZero = second.isZero := by
  rcases h with rfl | zeros
  · rfl
  · rw [zeros.1, zeros.2]

theorem normalize_eq (h : first.Alike second) : first.normalize = second.normalize := by
  rcases h with rfl | zeros
  · rfl
  · rw [normalize_of_isZero zeros.1, normalize_of_isZero zeros.2]

theorem toRat_eq (h : first.Alike second) : first.toRat = second.toRat := by
  rw [← toRat_normalize first, ← toRat_normalize second, h.normalize_eq]

theorem eq_of_isZero_eq_false (h : first.Alike second) (nonzero : first.isZero = false) :
    first = second := by
  rcases h with same | zeros
  · exact same
  · rw [zeros.1] at nonzero
    cases nonzero

end Decimal.Alike

namespace Precision

variable (precision : Precision) {left left' right right' : Decimal}

theorem round_congr {first second : Decimal} (h : first.normalize = second.normalize) :
    precision.round first = precision.round second := by
  rw [round, round, h]

theorem add_congr (lefts : left.Alike left') (rights : right.Alike right') :
    precision.add left right = precision.add left' right' := by
  have sameLeft := lefts.isZero_eq
  have sameRight := rights.isZero_eq
  cases leftZero : left.isZero with
  | true =>
    rw [leftZero] at sameLeft
    simp only [add, Decimal.add?, leftZero, ← sameLeft, if_true]
    exact precision.round_congr rights.normalize_eq
  | false =>
    obtain rfl := lefts.eq_of_isZero_eq_false leftZero
    cases rightZero : right.isZero with
    | true =>
      rw [rightZero] at sameRight
      simp only [add, Decimal.add?, leftZero, rightZero, ← sameRight, if_true, Bool.false_eq_true,
        if_false]
    | false =>
      obtain rfl := rights.eq_of_isZero_eq_false rightZero
      rfl

theorem mul_of_isZero (h : left.isZero = true ∨ right.isZero = true) :
    precision.mul left right = .ok .zero := by
  have none : left.mul? right = some .zero := by
    rw [Decimal.mul?, if_pos (Bool.or_eq_true _ _ ▸ h)]
  have nonzero : (Decimal.zero.isZero && !left.isZero && !right.isZero) = false := by
    rcases h with zero | zero <;> simp [zero]
  simp only [mul, none, nonzero, Bool.false_eq_true, if_false]
  exact round_of_keeps keeps_zero

theorem div_of_isZero (dividend : left.isZero = true) (divisor : right.isZero = false) :
    precision.div left right = .ok .zero := by
  have none : left.div? right = some .zero := by
    rw [Decimal.div?, if_pos dividend]
  simp only [div, none, divisor, dividend, Bool.not_true, Bool.and_false, Bool.false_eq_true,
    if_false]
  exact round_of_keeps keeps_zero

/-- Operations take zeros with and without a sign for the same. -/
theorem apply_congr (operator : Operator) (lefts : left.Alike left') (rights : right.Alike right') :
    precision.apply operator left right = precision.apply operator left' right' := by
  have sameLeft := lefts.isZero_eq
  have sameRight := rights.isZero_eq
  cases operator with
  | add => exact precision.add_congr lefts rights
  | subtract => exact precision.add_congr lefts rights.neg
  | multiply =>
    show precision.mul left right = precision.mul left' right'
    by_cases zero : left.isZero = true ∨ right.isZero = true
    · rw [precision.mul_of_isZero zero, precision.mul_of_isZero (sameLeft ▸ sameRight ▸ zero)]
    · simp only [not_or, Bool.not_eq_true] at zero
      obtain rfl := lefts.eq_of_isZero_eq_false zero.1
      obtain rfl := rights.eq_of_isZero_eq_false zero.2
      rfl
  | divide =>
    show precision.div left right = precision.div left' right'
    cases rightZero : right.isZero with
    | true => rw [div, div, if_pos rightZero, if_pos (sameRight ▸ rightZero)]
    | false =>
      obtain rfl := rights.eq_of_isZero_eq_false rightZero
      cases leftZero : left.isZero with
      | true =>
        rw [precision.div_of_isZero leftZero rightZero,
          precision.div_of_isZero (sameLeft ▸ leftZero) rightZero]
      | false =>
        obtain rfl := lefts.eq_of_isZero_eq_false leftZero
        rfl

end Precision

/-- Two computations that fail with the same error or come to related results. -/
inductive Follows {α β : Type} (R : α → β → Prop) : Except EvalError α → Except EvalError β → Prop
  | ok {first second} (related : R first second) : Follows R (.ok first) (.ok second)
  | error (cause) : Follows R (.error cause) (.error cause)

theorem Follows.bind {α β γ δ : Type} {R : α → β → Prop} {S : γ → δ → Prop}
    {first : Except EvalError α} {second : Except EvalError β} (h : Follows R first second)
    {thenFirst : α → Except EvalError γ} {thenSecond : β → Except EvalError δ}
    (after : ∀ value value', R value value' → Follows S (thenFirst value) (thenSecond value')) :
    Follows S (first >>= thenFirst) (second >>= thenSecond) := by
  cases h with
  | ok related => exact after _ _ related
  | error cause => exact .error cause

namespace Stacks

variable (precision : Precision)

/-- Whether two stacks are the same but for the signs of zeros. -/
def Alike (first second : Stacks) : Prop :=
  List.Forall₂ Decimal.Alike first.values second.values ∧ first.pending = second.pending

theorem Alike.refl (state : Stacks) : state.Alike state :=
  ⟨List.forall₂_same.2 fun value _ => .refl value, rfl⟩

theorem combine_alike (operator : Operator) {first second : List Decimal}
    (h : List.Forall₂ Decimal.Alike first second) :
    Follows (List.Forall₂ Decimal.Alike) (combine precision operator first)
      (combine precision operator second) := by
  cases h with
  | nil => exact .error _
  | cons rights h =>
    cases h with
    | nil => exact .error _
    | cons lefts others =>
      simp only [combine, Precision.operate, precision.apply_congr operator lefts rights]
      cases precision.apply operator _ _ with
      | error cause => exact .error _
      | ok value => exact .ok (.cons (.refl value) others)

theorem foldFor_alike (incoming : Operator) {first second : Stacks} (h : first.Alike second) :
    Follows Alike (first.foldFor precision incoming) (second.foldFor precision incoming) := by
  obtain ⟨values, pending⟩ := first
  obtain ⟨values', pending'⟩ := second
  obtain ⟨alike, same⟩ := h
  obtain rfl : pending = pending' := same
  induction pending generalizing values values' with
  | nil => exact .ok ⟨alike, rfl⟩
  | cons entry pending ih =>
    cases entry with
    | openParen => exact .ok ⟨alike, rfl⟩
    | operator top =>
      by_cases low : top.precedence < incoming.precedence
      · rw [foldFor_of_lt precision low, foldFor_of_lt precision low]
        exact .ok ⟨alike, rfl⟩
      · rw [foldFor_of_le precision (by omega), foldFor_of_le precision (by omega)]
        exact (combine_alike precision top alike).bind fun combined combined' alike =>
          ih combined combined' alike

theorem leave_alike {first second : Stacks} (h : first.Alike second) :
    Follows Alike first.leave second.leave := by
  obtain ⟨values, pending⟩ := first
  obtain ⟨values', pending'⟩ := second
  obtain ⟨alike, same⟩ := h
  obtain rfl : pending = pending' := same
  match pending with
  | [] => exact .error _
  | .openParen :: pending => exact .ok ⟨alike, rfl⟩
  | .operator _ :: pending => exact .error _

theorem result_alike {first second : Stacks} (h : first.Alike second) :
    Follows Decimal.Alike first.result second.result := by
  obtain ⟨values, pending⟩ := first
  obtain ⟨values', pending'⟩ := second
  obtain ⟨alike, same⟩ := h
  obtain rfl : pending = pending' := same
  cases pending with
  | cons entry pending => exact .error _
  | nil =>
    cases alike with
    | nil => exact .error _
    | cons only others =>
      cases others with
      | nil => exact .ok only
      | cons => exact .error _

end Stacks

namespace Evaluation

variable (precision : Precision)

theorem act_alike (token : Token) {first second : Stacks} (h : first.Alike second) :
    Follows Stacks.Alike (act precision first token) (act precision second token) := by
  cases token with
  | openParen => exact .ok ⟨h.1, congrArg (Pending.openParen :: ·) h.2⟩
  | closeParen =>
    exact (Stacks.foldFor_alike precision .add h).bind fun _ _ alike => Stacks.leave_alike alike
  | operator operator =>
    exact (Stacks.foldFor_alike precision operator h).bind fun _ _ alike =>
      .ok ⟨alike.1, congrArg (Pending.operator operator :: ·) alike.2⟩
  | sign sign =>
    exact .ok ⟨.cons (.refl _) h.1, congrArg (Pending.operator sign.operator :: ·) h.2⟩
  | number sign literal =>
    simp only [act]
    cases (precision.ofSigned sign literal).mapError (·.toEvalError) with
    | error cause => exact .error cause
    | ok value => exact .ok ⟨.cons (.refl value) h.1, h.2⟩

theorem exec_alike (tokens : List Token) {first second : Stacks} (h : first.Alike second) :
    Follows Stacks.Alike (exec precision tokens first) (exec precision tokens second) := by
  induction tokens generalizing first second with
  | nil => exact .ok h
  | cons token tokens ih => exact (act_alike precision token h).bind fun _ _ alike => ih alike

theorem conclude_alike (stop : Option EvalError) {first second : Stacks} (h : first.Alike second) :
    Follows Decimal.Alike (conclude precision stop first) (conclude precision stop second) := by
  cases stop with
  | some error => exact .error error
  | none =>
    exact (Stacks.foldFor_alike precision .add h).bind fun _ _ alike => Stacks.result_alike alike

end Evaluation

end Reckoner
