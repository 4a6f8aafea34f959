import Mathlib.Data.List.Forall2
import Reckoner.Proofs.Acting

/-! # What an evaluation reports

Each token of a text is reported by one event with the token's position, behind the operations that
it has caused. A token that cannot be acted on is not reported, and no token after it is. Around
these events stand one that tells what is read and one that tells how the evaluation has ended.
-/

namespace Reckoner

variable {precision : Precision}

namespace Event

/-- What an event tells, without the data that it carries. -/
inductive Kind where
  | normalized
  | valuePushed
  | operatorPushed
  | signPushed
  | parenOpened
  | parenClosed
  | applied
  | completed
  | failed
  deriving Repr, DecidableEq

/-- Whether an event tells how an evaluation has ended. -/
def Kind.isLast : Kind → Bool
  | completed | failed => true
  | _ => false

/-- Whether an event tells of something between the start of the reading and the end. -/
def Kind.isStep : Kind → Bool
  | normalized | completed | failed => false
  | _ => true

theorem Kind.isStep_iff {kind : Kind} :
    kind.isStep = true ↔ kind.isLast = false ∧ kind ≠ .normalized := by
  cases kind <;> simp [isStep, isLast]

def kind : Event → Kind
  | normalized _ => .normalized
  | valuePushed .. => .valuePushed
  | operatorPushed .. => .operatorPushed
  | signPushed .. => .signPushed
  | parenOpened _ => .parenOpened
  | parenClosed _ => .parenClosed
  | applied .. => .applied
  | completed _ => .completed
  | failed _ => .failed

/-- Whether an event is about a token, at the token's position. -/
def isPlaced (event : Event) : Bool :=
  event.position?.isSome

theorem isPlaced_of_not_isStep {event : Event} (h : event.kind.isStep = false) :
    event.isPlaced = false := by
  cases event with
  | normalized | completed | failed => rfl
  | valuePushed | operatorPushed | signPushed | parenOpened | parenClosed | applied => cases h

/-- Whether an event reports a token that has been acted on. -/
inductive Tells (precision : Precision) (position : Nat) : Token → Event → Prop
  | openParen : Tells precision position .openParen (.parenOpened position)
  | closeParen : Tells precision position .closeParen (.parenClosed position)
  | operator (operator) :
    Tells precision position (.operator operator) (.operatorPushed operator position)
  | sign (sign : Sign) :
    Tells precision position (.sign sign) (.signPushed sign.operator position)
  | number {sign literal value} (made : precision.ofSigned sign literal = .ok value) :
    Tells precision position (.number sign literal) (.valuePushed value position)

theorem Tells.position? {position : Nat} {token : Token} {event : Event}
    (h : Tells precision position token event) : event.position? = some position := by
  cases h <;> rfl

theorem Tells.isPlaced {position : Nat} {token : Token} {event : Event}
    (h : Tells precision position token event) : event.isPlaced = true := by
  cases h <;> rfl

theorem Tells.isStep {position : Nat} {token : Token} {event : Event}
    (h : Tells precision position token event) : event.kind.isStep = true := by
  cases h <;> rfl

end Event

open Event

/-- Events of which those about tokens tell, one after the other, of the given ones. -/
structure TellOf (precision : Precision) (placed : List (Nat × Token)) (events : List Event) :
    Prop where
  steps : ∀ event ∈ events, event.kind.isStep = true
  tells : List.Forall₂ (fun placed event => Tells precision placed.1 placed.2 event) placed
    (events.filter isPlaced)

namespace TellOf

theorem nil : TellOf precision [] [] where
  steps event member := by cases member
  tells := .nil

theorem append {first second : List (Nat × Token)} {events events' : List Event}
    (h : TellOf precision first events) (h' : TellOf precision second events') :
    TellOf precision (first ++ second) (events ++ events') where
  steps event member := (List.mem_append.1 member).elim (h.steps event) (h'.steps event)
  tells := by
    rw [List.filter_append]
    exact List.rel_append h.tells h'.tells

theorem single {position : Nat} {token : Token} {event : Event}
    (h : Tells precision position token event) :
    TellOf precision [(position, token)] [event] where
  steps other member := by
    obtain rfl := List.mem_singleton.1 member
    exact h.isStep
  tells := by
    rw [List.filter_cons_of_pos h.isPlaced]
    exact .cons h .nil

end TellOf

/-- A computation whose events tell of the first of some tokens, and of all where it succeeds. -/
structure Reports {α : Type} (precision : Precision) (placed : List (Nat × Token))
    (run : Traced α) : Prop where
  told : ∃ front back, placed = front ++ back ∧ TellOf precision front run.events
  whole : ∀ result, run.outcome = .ok result → TellOf precision placed run.events

namespace Reports

variable {α β : Type}

theorem of_tellOf {placed : List (Nat × Token)} {run : Traced α}
    (h : TellOf precision placed run.events) : Reports precision placed run :=
  ⟨⟨placed, [], by simp, h⟩, fun _ _ => h⟩

theorem pure (result : α) : Reports precision [] (pure result : Traced α) :=
  of_tellOf .nil

theorem lift (outcome : Except EvalError α) : Reports precision [] (Traced.lift outcome) :=
  of_tellOf .nil

theorem fail (placed : List (Nat × Token)) (error : EvalError) :
    Reports precision placed (Traced.fail error : Traced α) where
  told := ⟨[], placed, rfl, .nil⟩
  whole result same := by cases same

theorem bind {first second : List (Nat × Token)} {run : Traced α} {next : α → Traced β}
    (h : Reports precision first run)
    (h' : ∀ result, run.outcome = .ok result → Reports precision second (next result)) :
    Reports precision (first ++ second) (run >>= next) := by
  cases outcome : run.outcome with
  | error error =>
    obtain ⟨front, back, rfl, told⟩ := h.told
    rw [Traced.bind_of_error outcome]
    exact ⟨⟨front, back ++ second, by simp, told⟩, fun result same => by cases same⟩
  | ok result =>
    have before := h.whole result outcome
    have after := h' result outcome
    obtain ⟨front, back, same, told⟩ := after.told
    rw [Traced.bind_of_ok outcome]
    refine ⟨⟨first ++ front, back, by simp [same], before.append told⟩, fun final ended => ?_⟩
    exact before.append (after.whole final ended)

end Reports

namespace Stacks

theorem reports_apply (operator : Operator) (values : List Decimal) :
    Reports precision [] (apply precision operator values) := by
  match values with
  | [] => exact .fail ..
  | [_] => exact .fail ..
  | right :: left :: values =>
    simp only [apply]
    split
    · refine .of_tellOf ⟨?_, .nil⟩
      intro event member
      obtain rfl := List.mem_singleton.1 member
      rfl
    · exact .fail ..

theorem reports_fold (incoming : Operator) (pending : List Pending) (values : List Decimal) :
    Reports precision [] (fold precision incoming pending values) := by
  induction pending generalizing values with
  | nil => exact .pure _
  | cons entry pending ih =>
    cases entry with
    | openParen => exact .pure _
    | operator top =>
      simp only [fold]
      split
      · exact .pure _
      · exact (reports_apply top values).bind fun combined _ => ih combined

theorem reports_close (pending : List Pending) (values : List Decimal) :
    Reports precision [] (close precision pending values) := by
  induction pending generalizing values with
  | nil => exact .fail ..
  | cons entry pending ih =>
    cases entry with
    | openParen => exact .pure _
    | operator top => exact (reports_apply top values).bind fun combined _ => ih combined

theorem reports_finish (pending : List Pending) (values : List Decimal) :
    Reports precision [] (finish precision pending values) := by
  induction pending generalizing values with
  | nil =>
    match values with
    | [] => exact .fail ..
    | [_] => exact .pure _
    | _ :: _ :: _ => exact .fail ..
  | cons entry pending ih =>
    cases entry with
    | openParen => exact .fail ..
    | operator top => exact (reports_apply top values).bind fun combined _ => ih combined

end Stacks

namespace Evaluation

open Stacks

/-- A token is reported behind the operations that it causes, and only if it is acted on. -/
theorem reports_step (state : Stacks) (placed : Nat × Token) :
    Reports precision [placed] (step precision state placed) := by
  obtain ⟨position, token⟩ := placed
  cases token with
  | openParen => exact .of_tellOf (.single .openParen)
  | closeParen =>
    exact (reports_close state.pending state.values).bind fun _ _ =>
      .of_tellOf (.single .closeParen)
  | operator operator =>
    exact (reports_fold operator state.pending state.values).bind fun _ _ =>
      .of_tellOf (.single (.operator operator))
  | sign sign => exact .of_tellOf (.single (.sign sign))
  | number sign literal =>
    exact (Reports.lift _).bind fun _ made =>
      .of_tellOf (.single (.number (mapError_eq_ok_iff.1 made)))

theorem reports_foldlM_step (placed : List (Nat × Token)) (state : Stacks) :
    Reports precision placed (placed.foldlM (step precision) state) := by
  induction placed generalizing state with
  | nil => exact .pure _
  | cons first others ih =>
    rw [List.foldlM_cons]
    exact (reports_step state first).bind fun acted _ => ih acted

theorem reports_runScan (scan : Scan) : Reports precision scan.tokens (runScan precision scan) := by
  have whole : Reports precision (scan.tokens ++ []) (runScan precision scan) := by
    refine (reports_foldlM_step scan.tokens .empty).bind fun state _ => ?_
    cases scan.stop with
    | some error => exact .fail ..
    | none => exact reports_finish ..
  rwa [List.append_nil] at whole

end Evaluation

open Evaluation

theorem Evaluation.isStep_lastEvent (outcome : Except EvalError Decimal) :
    (lastEvent outcome).kind.isStep = false := by
  cases outcome <;> rfl

/-- Of an empty text an evaluation reports only that it fails. Of any other text it reports first
    what is read, then what its tokens do, and last how it has ended. -/
theorem Precision.trace_eq (precision : Precision) (text : String) :
    (withoutBlanks text.toList = [] ∧
      precision.trace text = ⟨[.failed .emptyExpression], .error .emptyExpression⟩) ∨
    (withoutBlanks text.toList ≠ [] ∧
      let run := runScan precision (Scan.ofChars (withoutBlanks text.toList))
      precision.trace text = ⟨.normalized (String.ofList (withoutBlanks text.toList)) ::
        run.events ++ [lastEvent run.outcome], run.outcome⟩) := by
  cases written : withoutBlanks text.toList with
  | nil =>
    left
    simp only [trace, run, written]
    exact ⟨trivial, rfl⟩
  | cons c chars =>
    right
    refine ⟨by simp, ?_⟩
    simp only [trace, run, written]
    rfl

end Reckoner
