import Reckoner.Decimal.Text
import Reckoner.EvalError
import Reckoner.Operator

/-! # Events of an evaluation

An evaluation reports each step it takes. The events are enough to follow the values through it:
`valuePushed` and `signPushed` put a value on the stack of values, `applied` takes two off and
puts their result there, and the last event tells how the evaluation ended.
-/

namespace Reckoner

/-- One step of an evaluation. -/
inductive Event where
  /-- The blanks are gone and reading starts. -/
  | normalized (expression : String)
  | valuePushed (value : Decimal) (position : Nat)
  | operatorPushed (operator : Operator) (position : Nat)
  /-- A sign in front of a group or of another sign is taken as an operator after a zero. -/
  | signPushed (sign : Operator) (position : Nat)
  | parenOpened (position : Nat)
  /-- A closing parenthesis has found its partner. -/
  | parenClosed (position : Nat)
  | applied (operator : Operator) (left right result : Decimal)
  | completed (result : Decimal)
  | failed (error : EvalError)
  deriving Repr, DecidableEq

namespace Event

/-- The line that shows an event. -/
def text : Event → String
  | normalized expression => s!"normalized: {expression}"
  | valuePushed value position => s!"[{position}] push value {value}"
  | operatorPushed operator position => s!"[{position}] push operator {operator}"
  | signPushed sign position => s!"[{position}] rewrite sign as 0 {sign} ..."
  | parenOpened position => s!"[{position}] open ("
  | parenClosed position => s!"[{position}] close )"
  | applied operator left right result => s!"apply {left} {operator} {right} = {result}"
  | completed result => s!"result {result}"
  | failed error => s!"failed: {error.message}"

/-- The offset of the token that an event is about. -/
def position? : Event → Option Nat
  | valuePushed _ position => some position
  | operatorPushed _ position => some position
  | signPushed _ position => some position
  | parenOpened position => some position
  | parenClosed position => some position
  | _ => none

end Event

instance : ToString Event := ⟨Event.text⟩

end Reckoner
