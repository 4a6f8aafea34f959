import Reckoner.Decimal.Arithmetic
import Reckoner.Literal.Stored
import Reckoner.Operator
import Reckoner.Precision.Basic

/-! # Arithmetic at a working precision

Each operation takes the decimal that stands for the exact result and rounds it to the working
precision. A product or quotient that has used up all places, without being exact and without
having the digits that the precision asks for, is refused: it would pass for a number with more
correct digits than it has.
-/

namespace Reckoner

namespace Precision

/-- Whether a decimal has no further places to show digits and fewer digits than are asked for. -/
def isShort (precision : Precision) (value : Decimal) : Bool :=
  maxScale ≤ value.scale && value.normalize.digitCount < precision.digits

def add (precision : Precision) (left right : Decimal) : Except ArithmeticError Decimal :=
  match left.add? right with
  | some sum => precision.round sum
  | none => .error .overflow

def sub (precision : Precision) (left right : Decimal) : Except ArithmeticError Decimal :=
  match left.sub? right with
  | some difference => precision.round difference
  | none => .error .overflow

/-- The product; it underflows where a product of nonzero factors has become zero, or is short of
    digits and not exact. -/
def mul (precision : Precision) (left right : Decimal) : Except ArithmeticError Decimal :=
  match left.mul? right with
  | some product =>
    if product.isZero && !left.isZero && !right.isZero then .error .underflow
    else if precision.isShort product && !left.isExactProduct right then .error .underflow
    else precision.round product
  | none => .error .overflow

/-- The quotient; it underflows where the quotient of a nonzero dividend has become zero, or is
    short of digits and not exact. -/
def div (precision : Precision) (left right : Decimal) : Except ArithmeticError Decimal :=
  if right.isZero then .error .divisionByZero
  else
    match left.div? right with
    | some quotient =>
      if quotient.isZero && !left.isZero then .error .underflow
      else if precision.isShort quotient && !left.isExactQuotient right quotient then
        .error .underflow
      else precision.round quotient
    | none => .error .overflow

/-- The operation that an operator stands for. -/
def apply (precision : Precision) : Operator → Decimal → Decimal → Except ArithmeticError Decimal
  | .add => precision.add
  | .subtract => precision.sub
  | .multiply => precision.mul
  | .divide => precision.div

/-- The value of a literal. That it is too small is found out from its digits, before it is
    stored. -/
def ofLiteral (precision : Precision) (literal : Literal) : Except ArithmeticError Decimal :=
  if literal.isTooSmall precision.digits then .error .underflow
  else
    match literal.stored? with
    | some value => precision.round value
    | none => .error .overflow

/-- The value of a text that is one literal. -/
def parse (precision : Precision) (text : String) : Except ArithmeticError Decimal :=
  match Literal.ofChars? text.toList with
  | some literal => precision.ofLiteral literal
  | none => .error .invalidInput

end Precision

end Reckoner
