import Mathlib.Control.Monad.Basic
import Reckoner.Expression.Tree
import Reckoner.Proofs.Operating
import Reckoner.Proofs.Spelling

/-! # One pass over an expression evaluates its tree

The stacks hold the left parts of the trees that are not complete yet. A chain starts where no `*`
or `/` is on top, so the next `*` or `/` stops in front of what was pending before the chain, and
settling at its end applies exactly the operators of the chain before the older ones. A sign that
waits for a group or for another sign starts a chain of its own on top of its zero: it is why the
precedences need not increase towards the top, and why the rest of the chain belongs to the sign.
-/

namespace Reckoner

open Evaluation

variable (precision : Precision)

namespace Stacks

/-- Whether a chain may start on these pending entries. -/
def ChainMayStart (pending : List Pending) : Prop :=
  ∀ operator rest, pending = .operator operator :: rest → operator.precedence = 1

/-- Whether an expression may start on these pending entries. -/
def ExpressionMayStart (pending : List Pending) : Prop :=
  ∀ operator rest, pending ≠ .operator operator :: rest

theorem chainMayStart_sign (sign : Sign) (pending : List Pending) :
    ChainMayStart (.operator sign.operator :: pending) := by
  rintro operator rest same
  cases sign <;> cases same <;> rfl

theorem ExpressionMayStart.chain {pending : List Pending} (h : ExpressionMayStart pending) :
    ChainMayStart pending :=
  fun operator rest same => absurd same (h operator rest)

theorem ExpressionMayStart.settle {pending : List Pending} (h : ExpressionMayStart pending)
    (values : List Decimal) : settle precision ⟨values, pending⟩ = .ok ⟨values, pending⟩ := by
  match pending, h with
  | [], _ => exact settle_nil precision values
  | .openParen :: pending, _ => exact settle_openParen precision values pending
  | .operator operator :: pending, h => exact absurd rfl (h operator pending)

theorem ChainMayStart.foldFor {pending : List Pending} (h : ChainMayStart pending)
    (scaling : Scaling) (values : List Decimal) :
    foldFor precision scaling.operator ⟨values, pending⟩ = .ok ⟨values, pending⟩ := by
  match pending, h with
  | [], _ => exact foldFor_nil precision _ values
  | .openParen :: pending, _ => exact foldFor_openParen precision _ values pending
  | .operator operator :: pending, h =>
    refine foldFor_of_lt precision ?_ values pending
    rw [h operator pending rfl]
    cases scaling <;> decide

theorem combine_pair (operator : Operator) (left right : Decimal) (values : List Decimal) :
    combine precision operator (right :: left :: values) =
      precision.operate operator left right >>= fun value => .ok (value :: values) := rfl

theorem settle_pair (operator : Operator) (left right : Decimal) (values : List Decimal)
    (pending : List Pending) :
    settle precision ⟨right :: left :: values, .operator operator :: pending⟩ =
      precision.operate operator left right >>= fun value =>
        settle precision ⟨value :: values, pending⟩ := by
  rw [settle_operator, combine_pair, bind_assoc]
  rfl

theorem foldFor_pair {operator : Operator} (h : operator.precedence = 2) (scaling : Scaling)
    (left right : Decimal) (values : List Decimal) (pending : List Pending) :
    foldFor precision scaling.operator
        ⟨right :: left :: values, .operator operator :: pending⟩ =
      precision.operate operator left right >>= fun value =>
        foldFor precision scaling.operator ⟨value :: values, pending⟩ := by
  rw [foldFor_of_le precision (by rw [h]; cases scaling <;> decide), combine_pair, bind_assoc]
  rfl

/-- Push the value of the left part of a chain, where there is one, and its operator. -/
def loadLeft (left : Option (Tree × Operator)) (state : Stacks) : Except EvalError Stacks :=
  match left with
  | none => .ok state
  | some (tree, operator) => do
    let value ← tree.evaluate precision
    .ok ⟨value :: state.values, .operator operator :: state.pending⟩

end Stacks

open Stacks

/-- The left part of a chain is joined by `*` or `/`. -/
def Tree.LeftOfChain (left : Option (Tree × Operator)) : Prop :=
  ∀ joined ∈ left, joined.2.precedence = 2

theorem Tree.leftOfChain_none : Tree.LeftOfChain none := by
  simp [Tree.LeftOfChain]

/-- Whether acting on `others`, behind an operand of a chain, completes the chain to the tree that
    `finish` makes of the part before. -/
def Completes (others : List Token) (finish : Tree → Tree) : Prop :=
  ∀ left tree values pending, Tree.LeftOfChain left → ChainMayStart pending →
    (loadLeft precision left ⟨values, pending⟩ >>= fun state =>
      tree.evaluate precision >>= fun value =>
        exec precision others ⟨value :: state.values, state.pending⟩ >>= settle precision) =
      (finish (Tree.joined left tree)).evaluate precision >>= fun value =>
        settle precision ⟨value :: values, pending⟩

theorem Tree.evaluate_apply (operator : Operator) (left right : Tree) :
    (Tree.apply operator left right).evaluate precision =
      left.evaluate precision >>= fun left => right.evaluate precision >>= fun right =>
        precision.operate operator left right := rfl

theorem completes_nil : Completes precision [] id := by
  intro left tree values pending leftOfChain _
  cases left with
  | none => rfl
  | some joined =>
    simp only [loadLeft, exec_nil, Tree.joined, id, Tree.evaluate_apply, bind_assoc, ok_bind]
    refine bind_congr fun left => bind_congr fun right => ?_
    exact settle_pair precision joined.2 left right values pending

theorem completes_scaling (scaling : Scaling) (rest : Chain)
    (h : ∀ left values pending, Tree.LeftOfChain left → ChainMayStart pending →
      (loadLeft precision left ⟨values, pending⟩ >>= fun state =>
        exec precision rest.tokens state >>= settle precision) =
      (rest.treeAfter left).evaluate precision >>= fun value =>
        settle precision ⟨value :: values, pending⟩) :
    Completes precision (.operator scaling.operator :: rest.tokens)
      fun before => rest.treeAfter (some (before, scaling.operator)) := by
  intro left tree values pending leftOfChain start
  have scales : Tree.LeftOfChain (some (Tree.joined left tree, scaling.operator)) := by
    rintro joined ⟨⟩
    cases scaling <;> rfl
  rw [← h (some (Tree.joined left tree, scaling.operator)) values pending scales start]
  cases left with
  | none =>
    simp only [loadLeft, Tree.joined, exec_cons, act, bind_assoc, ok_bind, start.foldFor]
  | some joined =>
    simp only [loadLeft, Tree.joined, Tree.evaluate_apply, exec_cons, act, bind_assoc, ok_bind,
      foldFor_pair precision (leftOfChain joined rfl), start.foldFor]

/-- An operand that comes to the value of a tree on its own does so within its chain. -/
theorem exec_append_of_completes {tokens others : List Token} {tree : Tree} {finish : Tree → Tree}
    {left : Option (Tree × Operator)} {values : List Decimal} {pending : List Pending}
    (h : ∀ state, exec precision tokens state = tree.evaluate precision >>= fun value =>
      .ok ⟨value :: state.values, state.pending⟩)
    (completes : Completes precision others finish) (leftOfChain : Tree.LeftOfChain left)
    (start : ChainMayStart pending) :
    (loadLeft precision left ⟨values, pending⟩ >>= fun state =>
        exec precision (tokens ++ others) state >>= settle precision) =
      (finish (Tree.joined left tree)).evaluate precision >>= fun value =>
        settle precision ⟨value :: values, pending⟩ := by
  rw [← completes left tree values pending leftOfChain start]
  simp only [exec_append, h, bind_assoc, ok_bind]

theorem exec_number (sign : Option Sign) (literal : Literal) (state : Stacks) :
    exec precision [.number sign literal] state =
      (Tree.number sign literal).evaluate precision >>= fun value =>
        .ok ⟨value :: state.values, state.pending⟩ :=
  exec_singleton precision _ state

mutual

theorem Operand.exec_tokens_append (operand : Operand) (values : List Decimal)
    {others : List Token} {finish : Tree → Tree} {left : Option (Tree × Operator)}
    {pending : List Pending} (completes : Completes precision others finish)
    (leftOfChain : Tree.LeftOfChain left) (start : ChainMayStart pending) :
    (loadLeft precision left ⟨values, pending⟩ >>= fun state =>
        exec precision (operand.tokens ++ others) state >>= settle precision) =
      (operand.treeOfChain left finish).evaluate precision >>= fun value =>
        settle precision ⟨value :: values, pending⟩ := by
  cases operand with
  | literal literal =>
    exact exec_append_of_completes precision (exec_number precision none literal) completes
      leftOfChain start
  | group inner =>
    refine exec_append_of_completes precision (fun state => ?_) completes leftOfChain start
    have inside : ExpressionMayStart (.openParen :: state.pending) := fun _ _ same => by cases same
    have whole := inner.exec_tokens state.values inside
    have closing : exec precision [.closeParen] = fun state => state.settle precision >>= leave :=
      funext fun state => exec_singleton precision .closeParen state
    simp only [Operand.tokens, exec_cons, exec_append, closing, act, ok_bind]
    rw [← bind_assoc, whole, bind_assoc]
    exact bind_congr fun value => rfl
  | signed sign operand =>
    have waiting : ∀ state : Stacks,
        exec precision (operand.tokens ++ others)
            ⟨.zero :: state.values, .operator sign.operator :: state.pending⟩ >>=
          settle precision =
        (Tree.apply sign.operator .zero (operand.treeOfChain none finish)).evaluate precision >>=
          fun value => settle precision ⟨value :: state.values, state.pending⟩ := by
      intro state
      have rest := operand.exec_tokens_append (.zero :: state.values) completes
        Tree.leftOfChain_none (chainMayStart_sign sign state.pending)
      simp only [loadLeft, ok_bind] at rest
      simp only [rest, Tree.evaluate, ok_bind, bind_assoc]
      exact bind_congr fun value => settle_pair precision ..
    cases operand with
    | literal literal =>
      exact exec_append_of_completes precision (exec_number precision (some sign) literal)
        completes leftOfChain start
    | group | signed =>
      refine Eq.trans (bind_congr fun state => waiting state) ?_
      exact completes_nil precision left _ values pending leftOfChain start

theorem Chain.exec_tokens (chain : Chain) (values : List Decimal)
    {left : Option (Tree × Operator)} {pending : List Pending}
    (leftOfChain : Tree.LeftOfChain left) (start : ChainMayStart pending) :
    (loadLeft precision left ⟨values, pending⟩ >>= fun state =>
        exec precision chain.tokens state >>= settle precision) =
      (chain.treeAfter left).evaluate precision >>= fun value =>
        settle precision ⟨value :: values, pending⟩ := by
  cases chain with
  | last operand =>
    have whole := operand.exec_tokens_append values (completes_nil precision) leftOfChain start
    rwa [List.append_nil] at whole
  | more operand scaling rest =>
    refine operand.exec_tokens_append values (completes_scaling precision scaling rest ?_)
      leftOfChain start
    intro left values pending leftOfChain start
    exact rest.exec_tokens values leftOfChain start

/-- Tokens of an expression put the value of its tree on top, after settling. -/
theorem Expression.exec_tokens (expression : Expression) (values : List Decimal)
    {pending : List Pending} (start : ExpressionMayStart pending) :
    exec precision expression.tokens ⟨values, pending⟩ >>= settle precision =
      expression.tree.evaluate precision >>= fun value => .ok ⟨value :: values, pending⟩ := by
  cases expression with
  | chain chain =>
    have whole := chain.exec_tokens values Tree.leftOfChain_none start.chain
    simpa only [Expression.tokens, Expression.tree, loadLeft, ok_bind, start.settle] using whole
  | more before sign chain =>
    have front := before.exec_tokens values start
    have back := fun value => chain.exec_tokens (value :: values) Tree.leftOfChain_none
      (chainMayStart_sign sign pending)
    simp only [loadLeft, ok_bind] at back
    have same : ∀ state : Stacks, state.foldFor precision sign.operator = state.settle precision :=
      foldFor_congr precision (by cases sign <;> rfl)
    simp only [Expression.tokens, exec_append, exec_cons, act, same, bind_assoc, ok_bind]
    rw [← bind_assoc, front]
    simp only [bind_assoc, ok_bind, back, Expression.tree, Tree.evaluate_apply, settle_pair,
      start.settle]

end

theorem Tree.isArithmetic_of_evaluate {precision : Precision} {tree : Tree} {error : EvalError}
    (h : tree.evaluate precision = .error error) : error.IsArithmetic := by
  induction tree with
  | zero => cases h
  | number sign literal =>
    exact isArithmetic_of_mapError h fun cause refused => .inr (Precision.error_of_ofSigned refused)
  | apply operator left right ihLeft ihRight =>
    rw [evaluate_apply] at h
    cases first : left.evaluate precision with
    | error cause =>
      rw [first] at h
      cases h
      exact ihLeft first
    | ok leftValue =>
      cases second : right.evaluate precision with
      | error cause =>
        rw [first, second] at h
        cases h
        exact ihRight second
      | ok rightValue =>
        rw [first, second] at h
        exact isArithmetic_of_mapError h fun cause refused => Precision.error_of_apply refused

theorem Precision.evaluate_of_spelled {expression : Expression} {text : String}
    (h : withoutBlanks text.toList = expression.chars) :
    precision.evaluate text = expression.tree.evaluate precision := by
  obtain ⟨c, chars, written⟩ := List.exists_cons_of_ne_nil expression.chars_ne_nil
  have start : ExpressionMayStart [] := fun _ _ same => by cases same
  have whole := expression.exec_tokens precision [] start
  rw [precision.evaluate_eq_exec (h.trans written), ← written, expression.scan_chars,
    Token.map_snd_place]
  show exec precision expression.tokens ⟨[], []⟩ >>=
    (fun state => settle precision state >>= result) = _
  rw [← bind_assoc, whole, bind_assoc]
  exact bind_pure _

/-- A text that spells an expression comes to what the expression's tree comes to, the first error
    included, and then the error is one of arithmetic. -/
theorem Precision.evaluate_eq_tree_evaluate {expression : Expression} {text : String}
    (h : withoutBlanks text.toList = expression.chars) :
    precision.evaluate text = expression.tree.evaluate precision ∧
      ∀ error, precision.evaluate text = .error error → error.IsArithmetic := by
  have same := precision.evaluate_of_spelled h
  exact ⟨same, fun error failed => Tree.isArithmetic_of_evaluate (same.symm.trans failed)⟩

/-- The sign takes the quotient behind it, and blanks do not count. -/
theorem Precision.evaluate_signed_quotient :
    Precision.decimal64.evaluate " 2 * -(3)/4" = .ok ⟨true, 15, 1, by decide, by decide⟩ := by
  let quotient : Chain := .more (.signed .minus (.group (.chain (.last (.literal
    ⟨[3], none, by decide⟩))))) .dividedBy (.last (.literal ⟨[4], none, by decide⟩))
  let product : Expression := .chain (.more (.literal ⟨[2], none, by decide⟩) .times quotient)
  have spelled : withoutBlanks " 2 * -(3)/4".toList = product.chars := by decide
  rw [(Precision.evaluate_eq_tree_evaluate Precision.decimal64 spelled).1]
  decide +kernel

end Reckoner
