import Reckoner.Rounding
import Reckoner.Decimal.Basic

/-! # Sums, products and quotients

A sum, product or quotient of two decimals need not be a decimal again. `Decimal.nearest?` chooses
the decimal that stands for an exact quotient of natural numbers: it keeps as many places as the
mantissa has room for and rounds once, a tie going to the even neighbour. The exact result is known
before anything is rounded.
-/

namespace Reckoner

namespace Decimal

/-- The decimal nearest to `dividend / divisor` with the most places that fit, at most `places`.
    There is none if even the whole part is too large. -/
def nearest? (negative : Bool) (dividend divisor : Nat) : (places : Nat) → Option Decimal
  | 0 => ofParts? negative (RoundingMode.halfEven.divide negative dividend divisor) 0
  | places + 1 =>
    let scaled := dividend * tenPow (places + 1)
    match ofParts? negative (RoundingMode.halfEven.divide negative scaled divisor) (places + 1) with
    | some value => some value
    | none => nearest? negative dividend divisor places

/-- The mantissa, with its sign, that a decimal has at a scale not below its own. -/
def signedAt (value : Decimal) (scale : Nat) : Int :=
  value.signed * tenPow (scale - value.scale)

/-- The sum. Adding zero leaves the other operand as it is written. -/
def add? (left right : Decimal) : Option Decimal :=
  if left.isZero then some right
  else if right.isZero then some left
  else
    let scale := max left.scale right.scale
    let sum := left.signedAt scale + right.signedAt scale
    nearest? (sum < 0) sum.natAbs (tenPow scale) scale

/-- The difference, which is the sum with the second operand negated. -/
def sub? (left right : Decimal) : Option Decimal :=
  left.add? right.neg

/-- The product, with all places of both factors as far as they fit. -/
def mul? (left right : Decimal) : Option Decimal :=
  if left.isZero || right.isZero then some zero
  else
    let scale := left.scale + right.scale
    nearest? (left.negative != right.negative) (left.mantissa * right.mantissa) (tenPow scale) scale

/-- The quotient by a decimal that is not zero. A quotient of the mantissas that comes out even
    keeps the difference of the scales as its scale; any other is shown with as many places as fit
    and loses the zeros at its end. -/
def div? (left right : Decimal) : Option Decimal :=
  let negative := left.negative != right.negative
  if left.isZero then some zero
  else if left.mantissa % right.mantissa = 0 ∧ right.scale ≤ left.scale then
    ofParts? negative (left.mantissa / right.mantissa) (left.scale - right.scale)
  else
    (nearest? negative (left.mantissa * tenPow right.scale) (right.mantissa * tenPow left.scale)
      maxScale).map normalize

/-- How often a factor of at least two divides a number; zero counts as not divided. -/
def multiplicity (factor number : Nat) : Nat :=
  if h : 2 ≤ factor ∧ 0 < number ∧ number % factor = 0 then
    multiplicity factor (number / factor) + 1
  else
    0
termination_by number
decreasing_by exact Nat.div_lt_self h.2.1 (by omega)

/-- The least scale at which the exact product can be written. Each zero at the end of the product
    of the mantissas is a pair of the factors two and five, so the zeros are known without forming
    that product. -/
def productScale (left right : Decimal) : Nat :=
  let twos := multiplicity 2 left.mantissa + multiplicity 2 right.mantissa
  let fives := multiplicity 5 left.mantissa + multiplicity 5 right.mantissa
  left.scale + right.scale - min twos fives

/-- Whether the exact product has places enough. -/
def isExactProduct (left right : Decimal) : Bool :=
  productScale left right ≤ maxScale

/-- Whether `quotient` is `left / right` without any rounding. -/
def isExactQuotient (left right quotient : Decimal) : Bool :=
  quotient.isExactProduct right &&
    match quotient.mul? right with
    | some product => decide (product.toRat = left.toRat)
    | none => false

theorem nearest?_eq_some {negative : Bool} {dividend divisor places : Nat} {value : Decimal}
    (h : nearest? negative dividend divisor places = some value) :
    value.negative = negative ∧ value.scale ≤ places ∧
      value.mantissa =
        RoundingMode.halfEven.divide negative (dividend * tenPow value.scale) divisor := by
  induction places with
  | zero =>
    obtain ⟨sign, mantissa, scale⟩ := ofParts?_eq_some_iff.1 h
    simp [sign, mantissa, scale]
  | succ places ih =>
    rw [nearest?] at h
    split at h
    · next made =>
      obtain rfl := Option.some.inj h
      obtain ⟨sign, mantissa, scale⟩ := ofParts?_eq_some_iff.1 made
      simp [sign, mantissa, scale]
    · obtain ⟨sign, scale, mantissa⟩ := ih h
      exact ⟨sign, by omega, mantissa⟩

end Decimal

end Reckoner
