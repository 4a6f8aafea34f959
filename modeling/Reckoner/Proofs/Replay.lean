import Reckoner.Proofs.Counting
import Reckoner.Proofs.Reporting

/-! # Replaying the events of an evaluation

The events that an evaluation reports are enough to check it without reading its text: they are
replayed on a stack of values, where an operation has to find its operands on top and to come to the
result that it was reported with. All unwinding keeps the same books: an operator leaves the pending
entries where its operation is reported, and a marker where its parenthesis is.
-/

namespace Reckoner

variable {precision : Precision}

namespace Event

/-- How many of some events are of one kind. -/
def tally (kind : Kind) (events : List Event) : Nat :=
  (events.map Event.kind).count kind

@[simp]
theorem tally_nil (kind : Kind) : tally kind [] = 0 := rfl

@[simp]
theorem tally_cons (kind : Kind) (event : Event) (events : List Event) :
    tally kind (event :: events) = tally kind events + if event.kind = kind then 1 else 0 := by
  simp [tally, List.count_cons]

@[simp]
theorem tally_append (kind : Kind) (first second : List Event) :
    tally kind (first ++ second) = tally kind first + tally kind second := by
  simp [tally]

theorem tally_of_not_isStep {kind : Kind} (step : kind.isStep = true) {event : Event}
    (silent : event.kind.isStep = false) : tally kind [event] = 0 := by
  have apart : event.kind ≠ kind := by
    intro same
    rw [same, step] at silent
    cases silent
  simp [apart]

/-- What an event does to a stack of values. An operation has to find its right operand on top and
    its left operand below it, and to come to its result. -/
def replay? (precision : Precision) (values : List Decimal) : Event → Option (List Decimal)
  | valuePushed value _ => some (value :: values)
  | signPushed .. => some (.zero :: values)
  | applied operator left right result =>
    match values with
    | top :: second :: others =>
      if top = right ∧ second = left ∧
          (precision.apply operator left right).toOption = some result then
        some (result :: others)
      else none
    | _ => none
  | _ => some values

/-- Replay some events on a stack of values, one after the other. -/
def replayAll? (precision : Precision) (values : List Decimal) (events : List Event) :
    Option (List Decimal) :=
  events.foldlM (replay? precision) values

theorem replayAll?_append_eq_bind (values : List Decimal) (first second : List Event) :
    replayAll? precision values (first ++ second) =
      replayAll? precision values first >>= fun middle => replayAll? precision middle second :=
  List.foldlM_append

theorem replayAll?_append {first second : List Event} {values middle : List Decimal}
    (h : replayAll? precision values first = some middle) :
    replayAll? precision values (first ++ second) = replayAll? precision middle second := by
  rw [replayAll?_append_eq_bind, h]
  rfl

theorem replayAll?_of_not_isStep {event : Event} (h : event.kind.isStep = false)
    (values : List Decimal) : replayAll? precision values [event] = some values := by
  cases event with
  | normalized | completed | failed => rfl
  | valuePushed | operatorPushed | signPushed | parenOpened | parenClosed | applied => cases h

theorem replay?_applied {operator : Operator} {left right result : Decimal}
    {stack next : List Decimal}
    (h : replay? precision stack (.applied operator left right result) = some next) :
    ∃ others, stack = right :: left :: others ∧ next = result :: others ∧
      precision.apply operator left right = .ok result := by
  match stack with
  | [] => cases h
  | [_] => cases h
  | top :: second :: others =>
    simp only [replay?] at h
    split at h
    · next found =>
      obtain ⟨rfl, rfl, made⟩ := found
      cases h
      refine ⟨others, rfl, rfl, ?_⟩
      cases outcome : precision.apply operator second top with
      | error error =>
        rw [outcome] at made
        cases made
      | ok value =>
        rw [outcome] at made
        exact congrArg Except.ok (Option.some.inj made)
    · cases h

/-- Every value that is pushed is taken by an operation or left at the end. -/
theorem length_of_replayAll? {events : List Event} {values final : List Decimal}
    (h : replayAll? precision values events = some final) :
    final.length + tally .applied events =
      values.length + tally .valuePushed events + tally .signPushed events := by
  induction events generalizing values with
  | nil =>
    cases h
    simp
  | cons event events ih =>
    obtain ⟨next, replayed, rest⟩ := Option.bind_eq_some_iff.1 h
    have total := ih rest
    have single : next.length + (if event.kind = .applied then 1 else 0) =
        values.length + (if event.kind = .valuePushed then 1 else 0) +
          (if event.kind = .signPushed then 1 else 0) := by
      cases event with
      | valuePushed | signPushed =>
        cases replayed
        simp [kind]
      | applied operator left right result =>
        obtain ⟨others, rfl, rfl, -⟩ := replay?_applied replayed
        simp [kind]
      | normalized | operatorPushed | parenOpened | parenClosed | completed | failed =>
        cases replayed
        simp [kind]
    simp only [tally_cons]
    omega

end Event

open Event Stacks

/-- Events that account for the way from some stacks to others. -/
structure Accounts (precision : Precision) (before : Stacks) (events : List Event)
    (after : Stacks) : Prop where
  values : replayAll? precision before.values events = some after.values
  operators : pendingOperators after.pending + tally .applied events =
    pendingOperators before.pending + tally .operatorPushed events + tally .signPushed events
  parens : after.depth + tally .parenClosed events = before.depth + tally .parenOpened events

namespace Accounts

theorem refl (state : Stacks) : Accounts precision state [] state :=
  ⟨rfl, rfl, rfl⟩

theorem trans {before middle after : Stacks} {first second : List Event}
    (h : Accounts precision before first middle) (h' : Accounts precision middle second after) :
    Accounts precision before (first ++ second) after := by
  refine ⟨(replayAll?_append h.values).trans h'.values, ?_, ?_⟩
  · have := h.operators
    have := h'.operators
    simp only [tally_append]
    omega
  · have := h.parens
    have := h'.parens
    simp only [tally_append]
    omega

end Accounts

/-- A computation on stacks whose events can be replayed, also where it fails, and account for what
    it has done where it succeeds. `after` are the stacks that go with a result. -/
structure Faithful {α : Type} (precision : Precision) (before : Stacks) (after : α → Stacks)
    (run : Traced α) : Prop where
  replays : ∃ values, replayAll? precision before.values run.events = some values
  accounts : ∀ result, run.outcome = .ok result →
    Accounts precision before run.events (after result)

namespace Faithful

variable {α β : Type}

theorem pure {before : Stacks} {after : α → Stacks} {result : α} (h : after result = before) :
    Faithful precision before after (pure result : Traced α) where
  replays := ⟨before.values, rfl⟩
  accounts := by
    rintro _ ⟨⟩
    rw [h]
    exact .refl before

theorem fail (before : Stacks) (after : α → Stacks) (error : EvalError) :
    Faithful precision before after (Traced.fail error) where
  replays := ⟨before.values, rfl⟩
  accounts result same := by cases same

theorem lift (before : Stacks) (outcome : Except EvalError α) :
    Faithful precision before (fun _ => before) (Traced.lift outcome) where
  replays := ⟨before.values, rfl⟩
  accounts _ _ := .refl before

theorem single {before : Stacks} {after : α → Stacks} {event : Event} {result : α}
    (h : Accounts precision before [event] (after result)) :
    Faithful precision before after ⟨[event], .ok result⟩ where
  replays := ⟨(after result).values, h.values⟩
  accounts := by
    rintro _ ⟨⟩
    exact h

theorem bind {before : Stacks} {middle : α → Stacks} {after : β → Stacks} {first : Traced α}
    {next : α → Traced β} (h : Faithful precision before middle first)
    (h' : ∀ result, first.outcome = .ok result →
      Faithful precision (middle result) after (next result)) :
    Faithful precision before after (first >>= next) := by
  cases outcome : first.outcome with
  | error error =>
    rw [Traced.bind_of_error outcome]
    exact ⟨h.replays, fun result same => by cases same⟩
  | ok result =>
    rw [Traced.bind_of_ok outcome]
    have account := h.accounts result outcome
    have rest := h' result outcome
    obtain ⟨values, replayed⟩ := rest.replays
    refine ⟨⟨values, (replayAll?_append account.values).trans replayed⟩, fun final same => ?_⟩
    exact account.trans (rest.accounts final same)

end Faithful

namespace Stacks

theorem faithful_apply (operator : Operator) (values : List Decimal) (pending : List Pending) :
    Faithful precision ⟨values, .operator operator :: pending⟩ (fun combined => ⟨combined, pending⟩)
      (apply precision operator values) := by
  match values with
  | [] => exact .fail ..
  | [_] => exact .fail ..
  | right :: left :: values =>
    cases made : precision.apply operator left right with
    | error error =>
      simp only [apply, made]
      exact .fail ..
    | ok result =>
      simp only [apply, made]
      refine .single ⟨?_, ?_, ?_⟩
      · simp [replayAll?, replay?, made, Except.toOption]
      · simp [kind]
      · simp [kind, Stacks.depth]

theorem faithful_fold (incoming : Operator) (pending : List Pending) (values : List Decimal) :
    Faithful precision ⟨values, pending⟩ id (fold precision incoming pending values) := by
  induction pending generalizing values with
  | nil => exact .pure rfl
  | cons entry pending ih =>
    cases entry with
    | openParen => exact .pure rfl
    | operator top =>
      simp only [fold]
      split
      · exact .pure rfl
      · exact (faithful_apply top values pending).bind fun combined _ => ih combined

/-- Closing leaves the marker to the event that is reported after it. -/
theorem faithful_close (pending : List Pending) (values : List Decimal) :
    Faithful precision ⟨values, pending⟩
      (fun left => ⟨left.values, .openParen :: left.pending⟩) (close precision pending values) := by
  induction pending generalizing values with
  | nil => exact .fail ..
  | cons entry pending ih =>
    cases entry with
    | openParen => exact .pure rfl
    | operator top =>
      exact (faithful_apply top values pending).bind fun combined _ => ih combined

theorem faithful_finish (pending : List Pending) (values : List Decimal) :
    Faithful precision ⟨values, pending⟩ (fun value => ⟨[value], []⟩)
      (finish precision pending values) := by
  induction pending generalizing values with
  | nil =>
    match values with
    | [] => exact .fail ..
    | [_] => exact .pure rfl
    | _ :: _ :: _ => exact .fail ..
  | cons entry pending ih =>
    cases entry with
    | openParen => exact .fail ..
    | operator top =>
      exact (faithful_apply top values pending).bind fun combined _ => ih combined

end Stacks

namespace Evaluation

/-- Every token reports what it does to the stacks. -/
theorem faithful_step (state : Stacks) (placed : Nat × Token) :
    Faithful precision state id (step precision state placed) := by
  obtain ⟨position, token⟩ := placed
  cases token with
  | openParen =>
    refine .single ⟨rfl, ?_, ?_⟩ <;> simp [kind, Stacks.depth]
  | closeParen =>
    refine (faithful_close state.pending state.values).bind fun left _ => ?_
    refine .single ⟨rfl, ?_, ?_⟩ <;> simp [kind, Stacks.depth]
  | operator operator =>
    refine (faithful_fold operator state.pending state.values).bind fun folded _ => ?_
    refine .single ⟨rfl, ?_, ?_⟩ <;> simp [kind, Stacks.depth]
  | sign sign =>
    refine .single ⟨rfl, ?_, ?_⟩ <;> simp [kind, Stacks.depth]
  | number sign literal =>
    refine (Faithful.lift state _).bind fun value _ => ?_
    refine .single ⟨rfl, ?_, ?_⟩ <;> simp [kind, Stacks.depth]

theorem faithful_foldlM_step (tokens : List (Nat × Token)) (state : Stacks) :
    Faithful precision state id (tokens.foldlM (step precision) state) := by
  induction tokens generalizing state with
  | nil => exact .pure rfl
  | cons placed tokens ih =>
    rw [List.foldlM_cons]
    exact (faithful_step state placed).bind fun acted _ => ih acted

theorem faithful_runScan (scan : Scan) :
    Faithful precision .empty (fun value => ⟨[value], []⟩) (runScan precision scan) := by
  refine (faithful_foldlM_step scan.tokens .empty).bind fun state _ => ?_
  cases scan.stop with
  | some error => exact .fail ..
  | none => exact faithful_finish state.pending state.values

end Evaluation

open Evaluation

theorem Faithful.replayAll?_between {run : Traced Decimal} {after : Decimal → Stacks}
    (h : Faithful precision .empty after run) {first last : Event}
    (silent : first.kind.isStep = false) (silent' : last.kind.isStep = false) :
    ∃ values, replayAll? precision [] (first :: run.events ++ [last]) = some values ∧
      ∀ result, run.outcome = .ok result → values = (after result).values := by
  obtain ⟨values, replayed⟩ := h.replays
  have front : replayAll? precision [] (first :: run.events) = some values :=
    (replayAll?_append (replayAll?_of_not_isStep silent [])).trans replayed
  have whole := (replayAll?_append front).trans (replayAll?_of_not_isStep silent' values)
  refine ⟨values, whole, fun result same => ?_⟩
  have account := (h.accounts result same).values
  exact Option.some.inj (replayed.symm.trans account)

theorem tally_between {kind : Kind} (step : kind.isStep = true) {first last : Event}
    (silent : first.kind.isStep = false) (silent' : last.kind.isStep = false)
    (events : List Event) : tally kind (first :: events ++ [last]) = tally kind events := by
  have one := tally_of_not_isStep step silent
  have other := tally_of_not_isStep step silent'
  rw [← List.singleton_append, List.append_assoc, tally_append, tally_append, one, other]
  omega

/-- From empty stacks to a single value everything that was pushed or opened is taken off again. -/
theorem Accounts.counts {events : List Event} {value : Decimal}
    (h : Accounts precision .empty events ⟨[value], []⟩) :
    tally .parenOpened events = tally .parenClosed events ∧
      tally .applied events = tally .operatorPushed events + tally .signPushed events ∧
      tally .applied events + 1 = tally .valuePushed events + tally .signPushed events := by
  have values := length_of_replayAll? h.values
  have operators := h.operators
  have parens := h.parens
  simp only [Stacks.empty, Stacks.depth, pendingOperators, List.length_nil, List.length_singleton,
    List.countP_nil, List.count_nil] at values operators parens
  omega

/-- The events of an evaluation prove its outcome. They can be replayed, and come to the value that
    is returned and nothing else. Only the last event tells how the evaluation ended. Where it
    succeeds, every parenthesis that was opened has been closed, every operator or sign that was
    pushed has been applied, and each operation has made one value out of two. -/
theorem Precision.replayAll?_trace (precision : Precision) (text : String) :
    let events := (precision.trace text).events
    let outcome := precision.evaluate text
    (∃ values, replayAll? precision [] events = some values ∧
      ∀ result, outcome = .ok result → values = [result]) ∧
    (∃ front, events = front ++ [lastEvent outcome] ∧
      ∀ event ∈ front, event.kind.isLast = false) ∧
    (∀ result, outcome = .ok result →
      tally .parenOpened events = tally .parenClosed events ∧
      tally .applied events = tally .operatorPushed events + tally .signPushed events ∧
      tally .applied events + 1 = tally .valuePushed events + tally .signPushed events) ∧
    (if withoutBlanks text.toList = [] then events = [.failed .emptyExpression]
      else ∃ rest, events = .normalized (String.ofList (withoutBlanks text.toList)) :: rest ∧
        ∀ event ∈ rest, event.kind ≠ .normalized) := by
  simp only [evaluate]
  rcases precision.trace_eq text with ⟨empty, whole⟩ | ⟨nonempty, whole⟩
  · rw [whole, if_pos empty]
    refine ⟨⟨[], rfl, ?_⟩, ⟨[], rfl, ?_⟩, ?_, rfl⟩
    · intro result same
      cases same
    · intro event member
      cases member
    · intro result same
      cases same
  · rw [whole, if_neg nonempty]
    have faithful : Faithful precision .empty _
        (runScan precision (Scan.ofChars (withoutBlanks text.toList))) := faithful_runScan _
    have reports : Reports precision _
        (runScan precision (Scan.ofChars (withoutBlanks text.toList))) := reports_runScan _
    generalize runScan precision (Scan.ofChars (withoutBlanks text.toList)) = run
      at faithful reports ⊢
    obtain ⟨_, _, _, told⟩ := reports.told
    have inner : ∀ event ∈ run.events, event.kind.isLast = false ∧ event.kind ≠ .normalized :=
      fun event member => Kind.isStep_iff.1 (told.steps event member)
    have first : (normalized (String.ofList (withoutBlanks text.toList))).kind.isStep = false := rfl
    have last := isStep_lastEvent run.outcome
    refine ⟨faithful.replayAll?_between first last, ⟨_, rfl, ?_⟩, ?_, ⟨_, rfl, ?_⟩⟩
    · intro event member
      rcases List.mem_cons.1 member with rfl | member
      · rfl
      · exact (inner event member).1
    · intro result succeeded
      have between : ∀ kind : Kind, kind.isStep = true → tally kind (_ :: run.events ++ [_]) = _ :=
        fun kind step => tally_between step first last run.events
      rw [between .parenOpened rfl, between .parenClosed rfl, between .applied rfl,
        between .operatorPushed rfl, between .signPushed rfl, between .valuePushed rfl]
      exact (faithful.accounts result succeeded).counts
    · intro event member
      rcases List.mem_append.1 member with member | member
      · exact (inner event member).2
      · obtain rfl := List.mem_singleton.1 member
        cases run.outcome <;> simp [lastEvent, kind]

end Reckoner
