import Reckoner.Rounding
import Reckoner.Decimal.Basic

/-! # Working precision

A working precision is a number of significant digits, from one to 28, and a rounding mode. It
rounds a decimal that has more digits and normalizes every other one. Rounding fails only where a
carry leaves the range of decimals.
-/

namespace Reckoner

/-- Why a number could not be computed, read or rounded. -/
inductive ArithmeticError where
  /-- The magnitude has no room in a mantissa. -/
  | overflow
  /-- The number is so small that fewer digits than the working precision are left of it. -/
  | underflow
  | divisionByZero
  /-- The text is not a number or not the name of a rounding mode. -/
  | invalidInput
  /-- The number of significant digits is not supported. -/
  | invalidPrecision
  deriving Repr, DecidableEq, Inhabited

/-- The most significant digits that a working precision may ask for. -/
def maxDigits : Nat := 28

def ArithmeticError.message : ArithmeticError → String
  | overflow => "arithmetic overflow: result exceeds the representable range"
  | underflow => "arithmetic underflow: result too small to keep the working precision"
  | divisionByZero => "division by zero"
  | invalidInput => "invalid input: could not parse value"
  | invalidPrecision =>
    s!"invalid precision: significant digits must be between 1 and {maxDigits}"

/-- How many significant digits every number keeps, and how it is rounded to them. -/
structure Precision where
  digits : Nat
  rounding : RoundingMode
  digits_pos : 0 < digits
  digits_le : digits ≤ maxDigits
  deriving Repr, DecidableEq

namespace Precision

/-- A working precision with the number of digits checked. -/
def make (digits : Nat) (rounding : RoundingMode) : Except ArithmeticError Precision :=
  if h : 0 < digits ∧ digits ≤ maxDigits then .ok ⟨digits, rounding, h.1, h.2⟩
  else .error .invalidPrecision

/-- Seven digits, ties to even. -/
def decimal32 : Precision := ⟨7, .halfEven, by decide, by decide⟩

/-- Sixteen digits, ties to even. -/
def decimal64 : Precision := ⟨16, .halfEven, by decide, by decide⟩

/-- As many digits as there can be, ties to even. -/
def extended : Precision := ⟨maxDigits, .halfEven, by decide, by decide⟩

instance : Inhabited Precision := ⟨decimal64⟩

/-- The text that shows a working precision. -/
def text (precision : Precision) : String :=
  s!"{precision.digits} digits, {precision.rounding.name}"

/-- Round to the working precision. A number that has no more digits is only normalized; of any
    other the lowest digits are cut off by the mode in one step, and zeros take the place of those
    that stood before the point. -/
def round (precision : Precision) (value : Decimal) : Except ArithmeticError Decimal :=
  let value := value.normalize
  if value.digitCount ≤ precision.digits then .ok value
  else
    let dropped := value.digitCount - precision.digits
    let kept := precision.rounding.divide value.negative value.mantissa (tenPow dropped)
    match Decimal.ofParts? value.negative (kept * tenPow (dropped - value.scale))
        (value.scale - dropped) with
    | some rounded => .ok rounded.normalize
    | none => .error .overflow

end Precision

instance : ToString Precision := ⟨Precision.text⟩

end Reckoner
