import Reckoner.Precision.Basic

/-! # Why an evaluation fails

An evaluation stops at the first of these causes. A position is an offset into the expression
without its blanks and counts characters.
-/

namespace Reckoner

/-- What stopped an evaluation. -/
inductive EvalError where
  /-- Nothing but blanks was given. -/
  | emptyExpression
  /-- A character that is no digit, point, operator or parenthesis. -/
  | illegalCharacter (found : Char) (position : Nat)
  /-- A number has to stand here and there is no digit. -/
  | numberParseFailure (position : Nat)
  /-- The expression ends with this sign. -/
  | missingUnaryOperand (position : Nat)
  /-- A parenthesis without its partner. -/
  | unmatchedParenthesis
  | divisionByZero
  /-- Operands and operators do not come out as one value. -/
  | malformedExpression
  /-- A literal or a result is outside the range of decimals. -/
  | overflow
  /-- A literal or a result is too small to keep the working precision. -/
  | underflow
  deriving Repr, DecidableEq, Inhabited

namespace EvalError

/-- The word by which a session names the cause. -/
def kind : EvalError → String
  | emptyExpression => "EmptyExpression"
  | illegalCharacter .. => "IllegalCharacter"
  | numberParseFailure _ => "NumberParseFailure"
  | missingUnaryOperand _ => "MissingUnaryOperand"
  | unmatchedParenthesis => "UnmatchedParenthesis"
  | divisionByZero => "DivisionByZero"
  | malformedExpression => "MalformedExpression"
  | overflow => "Overflow"
  | underflow => "Underflow"

def message : EvalError → String
  | emptyExpression => "expression is empty"
  | illegalCharacter found position => s!"illegal character '{found}' at position {position}"
  | numberParseFailure position => s!"could not parse a number at position {position}"
  | missingUnaryOperand position =>
    s!"sign at position {position} must be followed by a number or parenthesis"
  | unmatchedParenthesis => "unmatched parenthesis"
  | divisionByZero => "division by zero"
  | malformedExpression => "malformed expression"
  | overflow => "arithmetic overflow: value exceeds the representable range"
  | underflow => "arithmetic underflow: value too small to keep the working precision"

/-- The position that the cause is reported with, where it has one. -/
def position? : EvalError → Option Nat
  | illegalCharacter _ position => some position
  | numberParseFailure position => some position
  | missingUnaryOperand position => some position
  | _ => none

end EvalError

/-- How a failed operation stops the evaluation it belongs to. Texts and precisions are checked
    before an evaluation starts to compute, so their two causes only say that something is wrong
    with the expression. -/
def ArithmeticError.toEvalError : ArithmeticError → EvalError
  | overflow => .overflow
  | underflow => .underflow
  | divisionByZero => .divisionByZero
  | invalidInput => .malformedExpression
  | invalidPrecision => .malformedExpression

end Reckoner
