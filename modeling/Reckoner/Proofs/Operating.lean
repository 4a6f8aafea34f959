import Mathlib.Logic.Basic
import Reckoner.Evaluation.Basic

/-! # What an operation does

All four operations go the same way: a zero divisor is refused, the exact result is stored in a
decimal, which may have no room for it, what is too small to be kept is refused, and the stored
decimal is rounded. So they are refused for three causes only, and literals for two of them.
Everything else that an evaluation reports is found while the text is read or when its operands are
counted.
-/

namespace Reckoner

namespace Operator

/-- The decimal that an operation makes before it is rounded. -/
def stored? : Operator → Decimal → Decimal → Option Decimal
  | .add => Decimal.add?
  | .subtract => Decimal.sub?
  | .multiply => Decimal.mul?
  | .divide => Decimal.div?

/-- Whether a stored decimal does not have enough of the result. Of a sum nothing is asked. -/
def isTooSmall (precision : Precision) (left right stored : Decimal) : Operator → Bool
  | .add | .subtract => false
  | .multiply => stored.isZero && !left.isZero && !right.isZero ||
      precision.isShort stored && !left.isExactProduct right
  | .divide => stored.isZero && !left.isZero ||
      precision.isShort stored && !left.isExactQuotient right stored

end Operator

/-- The causes that only arithmetic has. -/
def EvalError.IsArithmetic (error : EvalError) : Prop :=
  error = .divisionByZero ∨ error = .overflow ∨ error = .underflow

namespace Precision

variable {precision : Precision}

/-- The way that all operations go. -/
theorem apply_eq (operator : Operator) (left right : Decimal) :
    precision.apply operator left right =
      if operator = .divide ∧ right.isZero = true then .error .divisionByZero
      else
        match operator.stored? left right with
        | none => .error .overflow
        | some stored =>
          if operator.isTooSmall precision left right stored = true then .error .underflow
          else precision.round stored := by
  cases operator with
  | add =>
    simp only [apply, add, Operator.stored?, Operator.isTooSmall]
    cases left.add? right <;> simp
  | subtract =>
    simp only [apply, sub, Operator.stored?, Operator.isTooSmall]
    cases left.sub? right <;> simp
  | multiply =>
    simp only [apply, mul, Operator.stored?, Operator.isTooSmall, Bool.or_eq_true, ite_or]
    cases left.mul? right <;> simp
  | divide =>
    simp only [apply, div, Operator.stored?, Operator.isTooSmall, Bool.or_eq_true, ite_or]
    cases left.div? right <;> simp

theorem apply_eq_ok_iff {operator : Operator} {left right result : Decimal} :
    precision.apply operator left right = .ok result ↔
      ¬ (operator = .divide ∧ right.isZero = true) ∧ ∃ stored,
        operator.stored? left right = some stored ∧
        operator.isTooSmall precision left right stored = false ∧
        precision.round stored = .ok result := by
  rw [apply_eq]
  split
  · next refused => simp [refused]
  next accepted =>
  cases made : operator.stored? left right with
  | none => simp
  | some stored =>
    cases small : operator.isTooSmall precision left right stored <;> simp [small, accepted]

theorem error_of_round {value : Decimal} {error : ArithmeticError}
    (h : precision.round value = .error error) : error = .overflow := by
  simp only [round] at h
  split at h
  · cases h
  split at h
  · cases h
  · cases h; rfl

theorem apply_eq_underflow_iff {operator : Operator} {left right : Decimal} :
    precision.apply operator left right = .error .underflow ↔
      ¬ (operator = .divide ∧ right.isZero = true) ∧ ∃ stored,
        operator.stored? left right = some stored ∧
        operator.isTooSmall precision left right stored = true := by
  rw [apply_eq]
  split
  · next refused => simp [refused]
  next accepted =>
  cases made : operator.stored? left right with
  | none => simp
  | some stored =>
    cases small : operator.isTooSmall precision left right stored with
    | true => simp [small, accepted]
    | false =>
      have rounds : precision.round stored ≠ .error .underflow := fun refused => by
        cases error_of_round refused
      simp [small, rounds]

theorem apply_eq_divisionByZero_iff {operator : Operator} {left right : Decimal} :
    precision.apply operator left right = .error .divisionByZero ↔
      operator = .divide ∧ right.isZero = true := by
  rw [apply_eq]
  split
  · next refused => simp [refused]
  next accepted =>
  refine iff_of_false (fun same => ?_) accepted
  split at same
  · cases same
  split at same
  · cases same
  · cases error_of_round same

theorem error_of_apply {operator : Operator} {left right : Decimal} {error : ArithmeticError}
    (h : precision.apply operator left right = .error error) :
    error = .divisionByZero ∨ error = .overflow ∨ error = .underflow := by
  rw [apply_eq] at h
  split at h
  · cases h; simp
  split at h
  · cases h; simp
  split at h
  · cases h; simp
  · exact .inr (.inl (error_of_round h))

theorem error_of_ofSigned {sign : Option Sign} {literal : Literal} {error : ArithmeticError}
    (h : precision.ofSigned sign literal = .error error) :
    error = .overflow ∨ error = .underflow := by
  have plain : precision.ofLiteral literal = .error error := by
    simp only [ofSigned] at h
    split at h
    · cases h
    · exact h
  simp only [ofLiteral] at plain
  split at plain
  · cases plain; simp
  split at plain
  · exact .inl (error_of_round plain)
  · cases plain; simp

end Precision

theorem mapError_eq_divisionByZero_iff {outcome : Except ArithmeticError Decimal} :
    outcome.mapError (·.toEvalError) = .error .divisionByZero ↔
      outcome = .error .divisionByZero := by
  cases outcome with
  | ok value => exact iff_of_false nofun nofun
  | error cause => cases cause <;> constructor <;> intro same <;> cases same <;> rfl

theorem isArithmetic_of_mapError {outcome : Except ArithmeticError Decimal} {error : EvalError}
    (h : outcome.mapError (·.toEvalError) = .error error)
    (causes : ∀ cause, outcome = .error cause →
      cause = .divisionByZero ∨ cause = .overflow ∨ cause = .underflow) :
    error.IsArithmetic := by
  cases outcome with
  | ok value => cases h
  | error cause =>
    cases h
    rcases causes cause rfl with rfl | rfl | rfl
    · exact .inl rfl
    · exact .inr (.inl rfl)
    · exact .inr (.inr rfl)

end Reckoner
