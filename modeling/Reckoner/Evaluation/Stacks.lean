import Reckoner.Evaluation.Traced
import Reckoner.Precision.Arithmetic

/-! # Values and pending operators

While an expression is read, its operands wait on a stack of values and its operators on a stack of
pending entries, where a marker stands for each open parenthesis. An operator is applied to the two
topmost values as soon as the next operator, a closing parenthesis or the end shows that it binds
its right operand. Only the entry on top decides what happens next, so each way of unwinding is a
recursion on the pending entries.
-/

namespace Reckoner

/-- What waits for its right operand or for its partner. -/
inductive Pending where
  | operator (operator : Operator)
  | openParen
  deriving Repr, DecidableEq

/-- The two stacks, topmost entries first. -/
structure Stacks where
  values : List Decimal
  pending : List Pending
  deriving Repr, DecidableEq

namespace Stacks

/-- Nothing has been read yet. -/
def empty : Stacks := ⟨[], []⟩

/-- Apply an operator to the two topmost values and put the result in their place. -/
def apply (precision : Precision) (operator : Operator) : List Decimal → Traced (List Decimal)
  | right :: left :: values =>
    match precision.apply operator left right with
    | .ok result => ⟨[.applied operator left right result], .ok (result :: values)⟩
    | .error error => Traced.fail error.toEvalError
  | _ => Traced.fail .malformedExpression

/-- Apply the pending operators that bind at least as tightly as the incoming one. Those of equal
    precedence are among them, which makes every operator associate to the left. -/
def fold (precision : Precision) (incoming : Operator) :
    List Pending → List Decimal → Traced Stacks
  | .operator top :: pending, values =>
    if top.precedence < incoming.precedence then pure ⟨values, .operator top :: pending⟩
    else do
      let values ← apply precision top values
      fold precision incoming pending values
  | pending, values => pure ⟨values, pending⟩

/-- Apply the pending operators down to the marker of the open parenthesis, and remove it. -/
def close (precision : Precision) : List Pending → List Decimal → Traced Stacks
  | [], _ => Traced.fail .unmatchedParenthesis
  | .openParen :: pending, values => pure ⟨values, pending⟩
  | .operator top :: pending, values => do
    let values ← apply precision top values
    close precision pending values

/-- Apply all pending operators. One value has to be left and no parenthesis open. -/
def finish (precision : Precision) : List Pending → List Decimal → Traced Decimal
  | [], [value] => pure value
  | [], _ => Traced.fail .malformedExpression
  | .openParen :: _, _ => Traced.fail .unmatchedParenthesis
  | .operator top :: pending, values => do
    let values ← apply precision top values
    finish precision pending values

/-- Put an operand on its stack. -/
def pushValue (state : Stacks) (position : Nat) (value : Decimal) : Traced Stacks :=
  ⟨[.valuePushed value position], .ok { state with values := value :: state.values }⟩

/-- Let an operator wait on its stack. -/
def pushOperator (state : Stacks) (position : Nat) (operator : Operator) : Traced Stacks :=
  ⟨[.operatorPushed operator position],
    .ok { state with pending := .operator operator :: state.pending }⟩

/-- Take a sign as an operator after a zero. Nothing is applied first, so the sign waits for
    whatever the group or sign behind it comes to. -/
def pushSign (state : Stacks) (position : Nat) (sign : Sign) : Traced Stacks :=
  ⟨[.signPushed sign.operator position],
    .ok ⟨.zero :: state.values, .operator sign.operator :: state.pending⟩⟩

/-- Let a parenthesis wait for its partner. -/
def pushParen (state : Stacks) (position : Nat) : Traced Stacks :=
  ⟨[.parenOpened position], .ok { state with pending := .openParen :: state.pending }⟩

end Stacks

end Reckoner
