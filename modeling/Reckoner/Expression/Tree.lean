import Reckoner.Evaluation.Basic
import Reckoner.Expression.Basic

/-! # What an expression means

An expression stands for a tree of operations, which is evaluated from the leaves: the left side
first, then the right side, then the operation between them. Operators of one layer associate to
the left. A sign directly before a literal is applied to the literal's rounded value; a sign before
a group or another sign is an operation on zero and on all that is left of its chain.
-/

namespace Reckoner

/-- Operations on the values of literals. -/
inductive Tree where
  /-- The zero that a sign is applied to. -/
  | zero
  | number (sign : Option Sign) (literal : Literal)
  | apply (operator : Operator) (left right : Tree)
  deriving Repr, DecidableEq

namespace Tree

/-- The value of a tree at a working precision, or the first error on the way to it. -/
def evaluate (precision : Precision) : Tree → Except EvalError Decimal
  | zero => .ok .zero
  | number sign literal => (precision.ofSigned sign literal).mapError (·.toEvalError)
  | apply operator left right => do
    let left ← left.evaluate precision
    let right ← right.evaluate precision
    (precision.apply operator left right).mapError (·.toEvalError)

/-- Join the left part of a chain, where there is one, with what comes next. -/
def joined : Option (Tree × Operator) → Tree → Tree
  | none, next => next
  | some (left, operator), next => apply operator left next

end Tree

mutual

/-- The tree of a chain from an operand on. `left` is the part of the chain before the operand, and
    `finish` makes the tree of the whole chain out of its part up to and including the operand. -/
def Operand.treeOfChain (left : Option (Tree × Operator)) (finish : Tree → Tree) : Operand → Tree
  | .literal literal => finish (Tree.joined left (.number none literal))
  | .group inner => finish (Tree.joined left inner.tree)
  | .signed sign operand =>
    match operand with
    | .literal literal => finish (Tree.joined left (.number (some sign) literal))
    | operand =>
      Tree.joined left (.apply sign.operator .zero (operand.treeOfChain none finish))

/-- The tree of a chain whose operands before this one make up `left`. -/
def Chain.treeAfter (left : Option (Tree × Operator)) : Chain → Tree
  | .last operand => operand.treeOfChain left id
  | .more operand scaling rest =>
    operand.treeOfChain left fun before => rest.treeAfter (some (before, scaling.operator))

/-- The tree of an expression. -/
def Expression.tree : Expression → Tree
  | .chain chain => chain.treeAfter none
  | .more before sign chain => .apply sign.operator before.tree (chain.treeAfter none)

end

end Reckoner
