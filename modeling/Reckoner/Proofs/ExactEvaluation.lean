import Reckoner.Proofs.ExactLiterals
import Reckoner.Proofs.ExactOperations
import Reckoner.Proofs.Precedence

/-! # Evaluations without rounding

An expression whose signs all stand directly before literals is read in the usual way: `*` and `/`
before `+` and `-`, and each from the left. If its literals and the results of its operations are
held by the working precision, then none of them is rounded or refused, and the evaluation comes to
the number that the expression denotes.
-/

namespace Reckoner

variable {precision : Precision}

/-! ## The usual reading -/

mutual

/-- The usual tree of an operand, where a sign takes the operand behind it and nothing more. -/
def Operand.standard : Operand → Tree
  | .literal literal => .number none literal
  | .group inner => inner.standard
  | .signed sign operand =>
    match operand with
    | .literal literal => .number (some sign) literal
    | operand => .apply sign.operator .zero operand.standard

/-- The usual tree of a chain whose operands before this one make up `left`. -/
def Chain.standardAfter (left : Option (Tree × Operator)) : Chain → Tree
  | .last operand => Tree.joined left operand.standard
  | .more operand scaling rest =>
    rest.standardAfter (some (Tree.joined left operand.standard, scaling.operator))

/-- The usual tree of an expression. -/
def Expression.standard : Expression → Tree
  | .chain chain => chain.standardAfter none
  | .more before sign chain => .apply sign.operator before.standard (chain.standardAfter none)

end

mutual

/-- Whether each sign stands directly before a literal. -/
def Operand.SignsOnLiterals : Operand → Prop
  | .literal _ => True
  | .group inner => inner.SignsOnLiterals
  | .signed _ operand => ∃ literal, operand = .literal literal

def Chain.SignsOnLiterals : Chain → Prop
  | .last operand => operand.SignsOnLiterals
  | .more operand _ rest => operand.SignsOnLiterals ∧ rest.SignsOnLiterals

def Expression.SignsOnLiterals : Expression → Prop
  | .chain chain => chain.SignsOnLiterals
  | .more before _ chain => before.SignsOnLiterals ∧ chain.SignsOnLiterals

end

mutual

theorem Operand.treeOfChain_eq {operand : Operand} (h : operand.SignsOnLiterals)
    (left : Option (Tree × Operator)) (finish : Tree → Tree) :
    operand.treeOfChain left finish = finish (Tree.joined left operand.standard) := by
  cases operand with
  | literal literal => rfl
  | group inner =>
    rw [Operand.treeOfChain, Operand.standard, Expression.tree_eq_standard h]
  | signed sign operand =>
    obtain ⟨literal, rfl⟩ := h
    rfl

theorem Chain.treeAfter_eq {chain : Chain} (h : chain.SignsOnLiterals)
    (left : Option (Tree × Operator)) : chain.treeAfter left = chain.standardAfter left := by
  cases chain with
  | last operand => exact operand.treeOfChain_eq h left id
  | more operand scaling rest =>
    rw [Chain.treeAfter, Operand.treeOfChain_eq h.1, Chain.treeAfter_eq h.2, Chain.standardAfter]

theorem Expression.tree_eq_standard {expression : Expression} (h : expression.SignsOnLiterals) :
    expression.tree = expression.standard := by
  cases expression with
  | chain chain => exact Chain.treeAfter_eq h none
  | more before sign chain =>
    rw [Expression.tree, Expression.tree_eq_standard h.1, Chain.treeAfter_eq h.2,
      Expression.standard]

end

/-! ## The number of a tree -/

/-- A sign applied to a number. -/
def Sign.exact : Sign → ℚ → ℚ
  | .plus, x => x
  | .minus, x => -x

theorem Sign.toRat_on (sign : Sign) (value : Decimal) :
    (sign.on value).toRat = sign.exact value.toRat := by
  cases sign with
  | plus => rfl
  | minus => exact value.toRat_neg

namespace Tree

/-- The number that a tree denotes. -/
def exact : Tree → ℚ
  | zero => 0
  | number sign literal => sign.elim literal.toRat (·.exact literal.toRat)
  | apply operator left right => operator.exact left.exact right.exact

/-- Whether every literal of a tree and every result of an operation is held, and nothing is divided
    by zero. -/
def Held (precision : Precision) : Tree → Prop
  | zero => True
  | number _ literal => precision.Holds literal.toRat
  | apply operator left right =>
    left.Held precision ∧ right.Held precision ∧ (operator = .divide → right.exact ≠ 0) ∧
      precision.Holds (operator.exact left.exact right.exact)

/-- A tree of numbers that are held comes to the number that it denotes. -/
theorem exists_evaluate_of_held {tree : Tree} (h : tree.Held precision) :
    ∃ value, tree.evaluate precision = .ok value ∧ value.toRat = tree.exact := by
  induction tree with
  | zero => exact ⟨.zero, rfl, Decimal.toRat_zero⟩
  | number sign literal =>
    obtain ⟨magnitude, read, same⟩ := Precision.exists_ofLiteral_of_holds h
    cases sign with
    | none => exact ⟨magnitude, by rw [evaluate, Precision.ofSigned_none, read]; rfl, same⟩
    | some sign =>
      refine ⟨sign.on magnitude, by rw [evaluate, Precision.ofSigned_some read]; rfl, ?_⟩
      rw [sign.toRat_on, same]
      rfl
  | apply operator left right ihLeft ihRight =>
    obtain ⟨heldLeft, heldRight, divisor, held⟩ := h
    obtain ⟨leftValue, leftDone, leftSame⟩ := ihLeft heldLeft
    obtain ⟨rightValue, rightDone, rightSame⟩ := ihRight heldRight
    rw [← leftSame, ← rightSame] at held
    rw [← rightSame] at divisor
    obtain ⟨result, done, same⟩ := Precision.exists_apply_of_holds operator divisor held
    refine ⟨result, ?_, ?_⟩
    · rw [evaluate_apply, leftDone, ok_bind, rightDone, ok_bind, Precision.operate, done]
      rfl
    · rw [same, leftSame, rightSame]
      rfl

end Tree

/-! ## The value of a text -/

/-- If all signs of an expression stand directly before literals, and all literals and all results
    of the usual reading are held by the working precision, then the expression comes to the exact
    number that it denotes, in every rounding mode. -/
theorem Precision.exists_evaluate_exact {expression : Expression} {text : String}
    (written : withoutBlanks text.toList = expression.chars)
    (signs : expression.SignsOnLiterals) (held : expression.standard.Held precision) :
    ∃ value, precision.evaluate text = .ok value ∧ value.toRat = expression.standard.exact := by
  obtain ⟨value, done, same⟩ := Tree.exists_evaluate_of_held held
  rw [← Expression.tree_eq_standard signs] at done
  exact ⟨value, (Precision.evaluate_of_spelled precision written).trans done, same⟩

/-- The sign belongs to its literal, and neither the zero at its end nor the mode counts. -/
theorem Precision.exists_evaluate_exact_quotient :
    ∃ quotient : Expression, withoutBlanks "(6 - 2) / -1.60".toList = quotient.chars ∧
      quotient.SignsOnLiterals ∧
      quotient.standard.Held ⟨2, .ceiling, by decide, by decide⟩ ∧
      quotient.standard.exact = -5 / 2 ∧
      ∃ value, (⟨2, .ceiling, by decide, by decide⟩ : Precision).evaluate "(6 - 2) / -1.60" =
        .ok value ∧ value.toRat = quotient.standard.exact := by
  let precision : Precision := ⟨2, .ceiling, by decide, by decide⟩
  let six : Literal := ⟨[6], none, by decide⟩
  let two : Literal := ⟨[2], none, by decide⟩
  let divisor : Literal := ⟨[1], some [6, 0], by decide⟩
  let difference : Expression := .more (.chain (.last (.literal six))) .minus (.last (.literal two))
  let quotient : Expression := .chain (.more (.group difference) .dividedBy
    (.last (.signed .minus (.literal divisor))))
  have written : withoutBlanks "(6 - 2) / -1.60".toList = quotient.chars := by decide
  have signs : quotient.SignsOnLiterals := ⟨⟨trivial, trivial⟩, ⟨divisor, rfl⟩⟩
  have holds {x : ℚ} (value : Decimal) (same : value.toRat = x)
      (few : value.normalize.mantissa < tenPow 2) : precision.Holds x := by
    rw [← same]
    exact Precision.holds_toRat_iff.2 ⟨_, 0, (Nat.mul_one _).symm, few⟩
  have held : quotient.standard.Held precision := by
    refine ⟨⟨?_, ?_, nofun, ?_⟩, ?_, fun _ => by decide +kernel, ?_⟩
    · exact holds ⟨false, 6, 0, by decide, by decide⟩ (by decide +kernel) (by decide)
    · exact holds ⟨false, 2, 0, by decide, by decide⟩ (by decide +kernel) (by decide)
    · exact holds ⟨false, 4, 0, by decide, by decide⟩ (by decide +kernel) (by decide)
    · exact holds ⟨false, 16, 1, by decide, by decide⟩ (by decide +kernel) (by decide)
    · exact holds ⟨true, 25, 1, by decide, by decide⟩ (by decide +kernel) (by decide)
  have exact : quotient.standard.exact = -5 / 2 := by decide +kernel
  exact ⟨quotient, written, signs, held, exact,
    precision.exists_evaluate_exact written signs held⟩

end Reckoner
