import Reckoner.Evaluation.Stacks
import Reckoner.Token

/-! # Evaluation of an expression

The tokens of an expression act on the stacks one after the other. What stops the reading counts
only after all tokens before it have acted, so the leftmost cause of failure is the one that is
reported. An evaluation keeps nothing: each starts from empty stacks.
-/

namespace Reckoner

/-- The value of a literal with the sign directly before it. The literal is rounded first, so the
    sign does not change its digits in any rounding mode. -/
def Precision.ofSigned (precision : Precision) (sign : Option Sign) (literal : Literal) :
    Except ArithmeticError Decimal :=
  match precision.ofLiteral literal, sign with
  | .ok value, some .minus => .ok (-value)
  | outcome, _ => outcome

/-- Read the literal at an offset of a text. It gives the value and the offset behind the
    literal. -/
def Precision.readNumber (precision : Precision) (text : List Char) (start : Nat) :
    Except EvalError (Decimal × Nat) :=
  match Literal.read? (text.drop start) with
  | none => .error (.numberParseFailure start)
  | some (literal, _) =>
    match precision.ofLiteral literal with
    | .ok value => .ok (value, start + literal.chars.length)
    | .error error => .error error.toEvalError

namespace Evaluation

/-- What one token does to the stacks. -/
def step (precision : Precision) (state : Stacks) : Nat × Token → Traced Stacks
  | (position, .openParen) => state.pushParen position
  | (position, .closeParen) => do
    let state ← Stacks.close precision state.pending state.values
    Traced.emit (.parenClosed position)
    pure state
  | (position, .operator operator) => do
    let state ← Stacks.fold precision operator state.pending state.values
    state.pushOperator position operator
  | (position, .sign sign) => state.pushSign position sign
  | (position, .number sign literal) => do
    let value ← Traced.lift ((precision.ofSigned sign literal).mapError (·.toEvalError))
    state.pushValue position value

/-- Run all tokens of a text without blanks, and finish. -/
def runScan (precision : Precision) (scan : Scan) : Traced Decimal := do
  let state ← scan.tokens.foldlM (step precision) Stacks.empty
  match scan.stop with
  | some error => Traced.fail error
  | none => Stacks.finish precision state.pending state.values

/-- Run an expression without its last event. -/
def run (precision : Precision) (expression : List Char) : Traced Decimal :=
  match withoutBlanks expression with
  | [] => Traced.fail .emptyExpression
  | c :: text => do
    Traced.emit (.normalized (String.ofList (c :: text)))
    runScan precision (Scan.ofChars (c :: text))

/-- The event that tells how an evaluation ended. -/
def lastEvent : Except EvalError Decimal → Event
  | .ok result => .completed result
  | .error error => .failed error

end Evaluation

/-- Evaluate an expression at a working precision, and report every step. -/
def Precision.trace (precision : Precision) (expression : String) : Traced Decimal :=
  let run := Evaluation.run precision expression.toList
  { run with events := run.events ++ [Evaluation.lastEvent run.outcome] }

/-- Evaluate an expression at a working precision. -/
def Precision.evaluate (precision : Precision) (expression : String) : Except EvalError Decimal :=
  (precision.trace expression).outcome

/-- Evaluate an expression with sixteen digits, ties to even. -/
def evaluate (expression : String) : Except EvalError Decimal :=
  Precision.decimal64.evaluate expression

end Reckoner
