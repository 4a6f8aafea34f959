import Reckoner.Evaluation.Basic
import Reckoner.Recorder
import Reckoner.Session.Lines
import Reckoner.Settings

/-! # Sessions

A session answers lines. From line to line it keeps the counts of its answers and, where the events
of evaluations are to be shown, one recorder that all its evaluations report to. The recorder is
emptied after every line, whatever the line was. A turn says what is written after the prompt and
whether another prompt follows.
-/

namespace Reckoner

/-- Settings in use, with the working precision that they describe. -/
structure Session where
  settings : Settings
  precision : Precision
  accepted : settings.check = .ok precision

/-- What a line amounts to. -/
inductive Reply where
  /-- The line was the exit keyword. -/
  | leave
  /-- The line was blank. -/
  | skip
  | answer (result : Traced Decimal)

/-- How many lines were answered with a value and with an error. -/
structure Summary where
  evaluated : Nat
  failed : Nat
  deriving Repr, DecidableEq, Inhabited

/-- Why a session ended before its input did. -/
inductive SessionError where
  /-- A line was no text. -/
  | invalidText
  /-- The output took no more. -/
  | outputFull
  deriving Repr, DecidableEq

/-- What a session keeps from line to line. -/
structure Progress where
  summary : Summary
  /-- Where evaluations are reported to, if they are reported at all. -/
  recorder : Option Recorder
  deriving Repr, DecidableEq

/-- What follows a prompt. -/
inductive Turn where
  /-- These texts are written, and the next line is asked for. -/
  | goOn (writes : List String) (progress : Progress)
  /-- These texts are written, and the session is over. -/
  | stop (writes : List String) (ending : Except SessionError Summary)

namespace SessionError

def kind : SessionError → String
  | invalidText => "InvalidData"
  | outputFull => "WriteZero"

def message : SessionError → String
  | invalidText => "stream did not contain valid UTF-8"
  | outputFull => "failed to write whole buffer"

end SessionError

namespace Summary

def empty : Summary := ⟨0, 0⟩

/-- Count one more answer. -/
def count (summary : Summary) : Except EvalError Decimal → Summary
  | .ok _ => { summary with evaluated := summary.evaluated + 1 }
  | .error _ => { summary with failed := summary.failed + 1 }

end Summary

/-- The line that shows an event. -/
def Event.line (event : Event) : String :=
  s!"  {event.text}\n"

namespace Progress

/-- Report events to the recorder, if there is one. -/
def report (progress : Progress) (events : List Event) : Progress :=
  { progress with recorder := progress.recorder.map (·.record events) }

/-- Take the events out of the recorder, if there is one, and give the lines that show them. -/
def showEvents (progress : Progress) : List String × Progress :=
  match progress.recorder with
  | none => ([], progress)
  | some recorder =>
    let (events, recorder) := recorder.take
    (events.map Event.line, { progress with recorder := some recorder })

/-- Count one more answer. -/
def count (progress : Progress) (outcome : Except EvalError Decimal) : Progress :=
  { progress with summary := progress.summary.count outcome }

end Progress

namespace Session

/-- Take settings into use, if nothing is wrong with them. -/
def start (settings : Settings) : Except SettingsError Session :=
  match h : settings.check with
  | .ok precision => .ok ⟨settings, precision, h⟩
  | .error fault => .error fault

/-- Answer a line. The blanks around it and around the exit keyword do not count, nor does the case
    of ASCII letters when the two are compared; the exit keyword wins over everything else. -/
def respond (session : Session) (line : String) : Reply :=
  let text := trimBlanks line.toList
  if sameIgnoringCase text (trimBlanks session.settings.exitKeyword.toList) then .leave
  else if text.isEmpty then .skip
  else .answer (session.precision.trace (String.ofList text))

/-- The line that shows how an evaluation came out. -/
def outcomeLine : Except EvalError Decimal → String
  | .ok value => s!"= {value.plain}\n"
  | .error error => s!"error[{error.kind}]: {error.message}\n"

/-- The lines that open a session. -/
def banner (session : Session) : List String :=
  [s!"Decimal calculator ({session.precision.text})\n",
    "Supports + - * / and parentheses\n",
    s!"Type {session.settings.exitKeyword} to quit\n"]

/-- What is written where the input has ended after a prompt. -/
def farewell : List String :=
  ["\n"]

/-- What there is before the first line. -/
def initial (session : Session) : Progress :=
  ⟨.empty, if session.settings.trace then some .empty else none⟩

/-- Answer a line, and report its evaluation if there is one. -/
def handle (session : Session) (progress : Progress) (line : String) : Reply × Progress :=
  match session.respond line with
  | .answer result => (.answer result, progress.report result.events)
  | reply => (reply, progress)

/-- What follows a prompt after which this line has been read. -/
def turn (session : Session) (progress : Progress) (line : List UInt8) : Turn :=
  match Lines.decode? line with
  | none => .stop [] (.error .invalidText)
  | some text =>
    let (reply, progress) := session.handle progress text
    let (shown, progress) := progress.showEvents
    match reply with
    | .leave => .stop (shown ++ ["Bye!\n"]) (.ok progress.summary)
    | .skip => .goOn shown progress
    | .answer result =>
      .goOn (shown ++ [outcomeLine result.outcome]) (progress.count result.outcome)

end Session

end Reckoner
