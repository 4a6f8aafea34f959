import Reckoner.Evaluation.Basic

/-! # What tokens do to the stacks

The events of an evaluation and the places of its tokens have no influence on its outcome. Here an
evaluation is followed without them: `Evaluation.act` is one token, `Evaluation.exec` a run of
tokens. All unwinding is expressed by `Stacks.settle`, which applies the pending operators down to
the nearest open parenthesis; a closing parenthesis and the end of the text only look at what is
left after it.
-/

namespace Reckoner

section Except

variable {ε α β : Type}

@[simp]
theorem ok_bind (value : α) (next : α → Except ε β) : (Except.ok value >>= next) = next value := rfl

@[simp]
theorem error_bind (error : ε) (next : α → Except ε β) :
    (Except.error error >>= next) = .error error := rfl

theorem bind_eq_ok_iff {first : Except ε α} {next : α → Except ε β} {value : β} :
    (first >>= next) = .ok value ↔ ∃ middle, first = .ok middle ∧ next middle = .ok value := by
  cases first <;> simp

theorem bind_eq_error_iff {first : Except ε α} {next : α → Except ε β} {error : ε} :
    (first >>= next) = .error error ↔
      first = .error error ∨ ∃ middle, first = .ok middle ∧ next middle = .error error := by
  cases first <;> simp

@[simp]
theorem mapError_ok {ε' : Type} (value : α) (change : ε → ε') :
    (Except.ok value).mapError change = .ok value := rfl

theorem mapError_eq_ok_iff {ε' : Type} {outcome : Except ε α} {change : ε → ε'} {value : α} :
    outcome.mapError change = .ok value ↔ outcome = .ok value := by
  cases outcome <;> constructor <;> intro same <;> cases same <;> rfl

end Except

theorem Traced.outcome_bind {α β : Type} (first : Traced α) (next : α → Traced β) :
    (first >>= next).outcome = first.outcome >>= fun value => (next value).outcome := by
  obtain ⟨events, outcome⟩ := first
  cases outcome <;> rfl

/-- The result of an operator, with the errors of an evaluation. -/
def Precision.operate (precision : Precision) (operator : Operator) (left right : Decimal) :
    Except EvalError Decimal :=
  (precision.apply operator left right).mapError (·.toEvalError)

namespace Stacks

variable (precision : Precision)

/-- Apply the pending operators that an incoming one does not wait for. -/
def foldFor (incoming : Operator) (state : Stacks) : Except EvalError Stacks :=
  (fold precision incoming state.pending state.values).outcome

/-- Apply the pending operators down to the nearest open parenthesis. -/
def settle (state : Stacks) : Except EvalError Stacks :=
  state.foldFor precision .add

/-- Remove the marker of the open parenthesis from the top. -/
def leave : Stacks → Except EvalError Stacks
  | ⟨values, .openParen :: pending⟩ => .ok ⟨values, pending⟩
  | _ => .error .unmatchedParenthesis

/-- The value of the whole text, once nothing is pending. -/
def result (state : Stacks) : Except EvalError Decimal :=
  match state.pending, state.values with
  | [], [value] => .ok value
  | [], _ => .error .malformedExpression
  | _ :: _, _ => .error .unmatchedParenthesis

/-- Combine the two topmost values. -/
def combine (operator : Operator) : List Decimal → Except EvalError (List Decimal)
  | right :: left :: values => do
    let value ← precision.operate operator left right
    .ok (value :: values)
  | _ => .error .malformedExpression

theorem outcome_apply (operator : Operator) (values : List Decimal) :
    (apply precision operator values).outcome = combine precision operator values := by
  match values with
  | [] => rfl
  | [_] => rfl
  | right :: left :: values =>
    simp only [apply, combine, Precision.operate]
    cases precision.apply operator left right <;> rfl

@[simp]
theorem foldFor_nil (incoming : Operator) (values : List Decimal) :
    foldFor precision incoming ⟨values, []⟩ = .ok ⟨values, []⟩ := rfl

@[simp]
theorem foldFor_openParen (incoming : Operator) (values : List Decimal) (pending : List Pending) :
    foldFor precision incoming ⟨values, .openParen :: pending⟩ =
      .ok ⟨values, .openParen :: pending⟩ := rfl

theorem foldFor_of_lt {incoming top : Operator} (h : top.precedence < incoming.precedence)
    (values : List Decimal) (pending : List Pending) :
    foldFor precision incoming ⟨values, .operator top :: pending⟩ =
      .ok ⟨values, .operator top :: pending⟩ := by
  simp [foldFor, fold, h]

theorem foldFor_of_le {incoming top : Operator} (h : incoming.precedence ≤ top.precedence)
    (values : List Decimal) (pending : List Pending) :
    foldFor precision incoming ⟨values, .operator top :: pending⟩ =
      combine precision top values >>= fun values =>
        foldFor precision incoming ⟨values, pending⟩ := by
  simp only [foldFor, fold, Nat.not_lt.2 h, if_false, Traced.outcome_bind, outcome_apply]

theorem foldFor_invariant (Inv : Stacks → Prop)
    (step : ∀ top values combined pending, combine precision top values = .ok combined →
      Inv ⟨values, .operator top :: pending⟩ → Inv ⟨combined, pending⟩)
    {incoming : Operator} {state folded : Stacks}
    (h : state.foldFor precision incoming = .ok folded) (start : Inv state) : Inv folded := by
  obtain ⟨values, pending⟩ := state
  induction pending generalizing values with
  | nil => cases h; exact start
  | cons entry pending ih =>
    cases entry with
    | openParen => cases h; exact start
    | operator top =>
      by_cases low : top.precedence < incoming.precedence
      · rw [foldFor_of_lt precision low] at h
        cases h
        exact start
      · rw [foldFor_of_le precision (by omega)] at h
        obtain ⟨combined, taken, rest⟩ := bind_eq_ok_iff.1 h
        exact ih combined rest (step top values combined pending taken start)

theorem foldFor_congr {first second : Operator} (h : first.precedence = second.precedence)
    (state : Stacks) : state.foldFor precision first = state.foldFor precision second := by
  obtain ⟨values, pending⟩ := state
  induction pending generalizing values with
  | nil => rfl
  | cons entry pending ih =>
    cases entry with
    | openParen => rfl
    | operator top =>
      by_cases low : top.precedence < first.precedence
      · rw [foldFor_of_lt precision low, foldFor_of_lt precision (h ▸ low)]
      · rw [foldFor_of_le precision (by omega), foldFor_of_le precision (by omega)]
        exact bind_congr fun values => ih values

@[simp]
theorem settle_nil (values : List Decimal) : settle precision ⟨values, []⟩ = .ok ⟨values, []⟩ := rfl

@[simp]
theorem settle_openParen (values : List Decimal) (pending : List Pending) :
    settle precision ⟨values, .openParen :: pending⟩ = .ok ⟨values, .openParen :: pending⟩ := rfl

theorem settle_operator (top : Operator) (values : List Decimal) (pending : List Pending) :
    settle precision ⟨values, .operator top :: pending⟩ =
      combine precision top values >>= fun values => settle precision ⟨values, pending⟩ :=
  foldFor_of_le precision (by cases top <;> decide) values pending

theorem outcome_close (pending : List Pending) (values : List Decimal) :
    (close precision pending values).outcome = settle precision ⟨values, pending⟩ >>= leave := by
  induction pending generalizing values with
  | nil => rfl
  | cons entry pending ih =>
    cases entry with
    | openParen => rfl
    | operator top =>
      simp only [close, Traced.outcome_bind, outcome_apply, settle_operator, bind_assoc, ih]

theorem outcome_finish (pending : List Pending) (values : List Decimal) :
    (finish precision pending values).outcome = settle precision ⟨values, pending⟩ >>= result := by
  induction pending generalizing values with
  | nil =>
    match values with
    | [] => rfl
    | [_] => rfl
    | _ :: _ :: _ => rfl
  | cons entry pending ih =>
    cases entry with
    | openParen => simp only [finish]; rfl
    | operator top =>
      simp only [finish, Traced.outcome_bind, outcome_apply, settle_operator, bind_assoc, ih]

end Stacks

namespace Evaluation

variable (precision : Precision)

/-- What one token does to the stacks, wherever it stands. -/
def act (state : Stacks) : Token → Except EvalError Stacks
  | .openParen => .ok { state with pending := .openParen :: state.pending }
  | .closeParen => state.settle precision >>= Stacks.leave
  | .operator operator => do
    let state ← state.foldFor precision operator
    .ok { state with pending := .operator operator :: state.pending }
  | .sign sign => .ok ⟨.zero :: state.values, .operator sign.operator :: state.pending⟩
  | .number sign literal => do
    let value ← (precision.ofSigned sign literal).mapError (·.toEvalError)
    .ok { state with values := value :: state.values }

/-- What tokens do to the stacks, one after the other. -/
def exec (tokens : List Token) (state : Stacks) : Except EvalError Stacks :=
  tokens.foldlM (act precision) state

/-- How an evaluation ends that has acted on all tokens before `stop`. -/
def conclude (stop : Option EvalError) (state : Stacks) : Except EvalError Decimal :=
  match stop with
  | some error => .error error
  | none => state.settle precision >>= Stacks.result

theorem stop_eq_none_of_conclude {stop : Option EvalError} {state : Stacks} {value : Decimal}
    (h : conclude precision stop state = .ok value) : stop = none := by
  cases stop with
  | none => rfl
  | some error => cases h

theorem outcome_step (state : Stacks) (placed : Nat × Token) :
    (step precision state placed).outcome = act precision state placed.2 := by
  obtain ⟨position, token⟩ := placed
  cases token with
  | openParen | sign => rfl
  | closeParen =>
    simp only [step, act, Traced.outcome_bind, Stacks.outcome_close]
    exact bind_pure _
  | operator operator => simp only [step, act, Traced.outcome_bind]; rfl
  | number sign literal => simp only [step, act, Traced.outcome_bind]; rfl

theorem outcome_foldlM_step (tokens : List (Nat × Token)) (state : Stacks) :
    (tokens.foldlM (step precision) state).outcome =
      exec precision (tokens.map (·.2)) state := by
  induction tokens generalizing state with
  | nil => rfl
  | cons placed tokens ih =>
    simp only [exec, List.foldlM_cons, List.map_cons, Traced.outcome_bind, outcome_step]
    exact bind_congr fun state => ih state

theorem outcome_runScan (scan : Scan) :
    (runScan precision scan).outcome =
      exec precision (scan.tokens.map (·.2)) .empty >>= conclude precision scan.stop := by
  rw [runScan, Traced.outcome_bind, outcome_foldlM_step]
  refine bind_congr fun state => ?_
  cases scan.stop with
  | none => exact Stacks.outcome_finish precision ..
  | some error => rfl

@[simp]
theorem exec_nil (state : Stacks) : exec precision [] state = .ok state := rfl

theorem exec_cons (token : Token) (tokens : List Token) (state : Stacks) :
    exec precision (token :: tokens) state = act precision state token >>= exec precision tokens :=
  rfl

theorem exec_singleton (token : Token) (state : Stacks) :
    exec precision [token] state = act precision state token :=
  bind_pure _

theorem exec_append (first second : List Token) (state : Stacks) :
    exec precision (first ++ second) state =
      exec precision first state >>= exec precision second := by
  simp only [exec, List.foldlM_append]
  rfl

theorem exec_invariant (Inv : Stacks → Prop)
    (step : ∀ token state acted, act precision state token = .ok acted → Inv state → Inv acted)
    {tokens : List Token} {state final : Stacks} (h : exec precision tokens state = .ok final)
    (start : Inv state) : Inv final := by
  induction tokens generalizing state with
  | nil => cases h; exact start
  | cons token tokens ih =>
    rw [exec_cons] at h
    obtain ⟨acted, first, rest⟩ := bind_eq_ok_iff.1 h
    exact ih rest (step token state acted first start)

end Evaluation

/-- An evaluation sees only what is left of a text without its blanks. -/
theorem Precision.evaluate_eq_exec (precision : Precision) {text : String} {c : Char}
    {chars : List Char} (h : withoutBlanks text.toList = c :: chars) :
    precision.evaluate text =
      Evaluation.exec precision ((Scan.ofChars (c :: chars)).tokens.map (·.2)) .empty >>=
        Evaluation.conclude precision (Scan.ofChars (c :: chars)).stop := by
  simp only [Precision.evaluate, Precision.trace, Evaluation.run, h, Traced.outcome_bind,
    Evaluation.outcome_runScan]
  rfl

end Reckoner
