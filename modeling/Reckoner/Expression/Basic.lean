import Reckoner.Literal.Basic
import Reckoner.Operator

/-! # Expressions as they are written

The grammar of the calculator, with one constructor for each way of writing something. Operands are
joined by `*` and `/` to chains and chains by `+` and `-` to expressions, so that the layers show
what binds more tightly. An operand may have any number of signs in front.
-/

namespace Reckoner

/-- The two operators that join the operands of a chain. -/
inductive Scaling where
  | times
  | dividedBy
  deriving Repr, DecidableEq, Inhabited

def Scaling.operator : Scaling → Operator
  | times => .multiply
  | dividedBy => .divide

mutual

/-- What an operator joins. -/
inductive Operand where
  | literal (literal : Literal)
  | group (inner : Expression)
  | signed (sign : Sign) (operand : Operand)

/-- Operands joined by `*` and `/`. -/
inductive Chain where
  | last (operand : Operand)
  | more (operand : Operand) (scaling : Scaling) (rest : Chain)

/-- Chains joined by `+` and `-`. -/
inductive Expression where
  | chain (chain : Chain)
  | more (before : Expression) (sign : Sign) (chain : Chain)

end

mutual

def Operand.chars : Operand → List Char
  | .literal literal => literal.chars
  | .group inner => '(' :: inner.chars ++ [')']
  | .signed sign operand => sign.symbol :: operand.chars

def Chain.chars : Chain → List Char
  | .last operand => operand.chars
  | .more operand scaling rest => operand.chars ++ scaling.operator.symbol :: rest.chars

/-- The characters of an expression, without blanks. -/
def Expression.chars : Expression → List Char
  | .chain chain => chain.chars
  | .more before sign chain => before.chars ++ sign.symbol :: chain.chars

end

end Reckoner
