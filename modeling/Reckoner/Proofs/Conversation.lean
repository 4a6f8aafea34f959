import Mathlib.Data.List.TakeWhile
import Reckoner.Proofs.Diagnostics
import Reckoner.Session.Transcript

/-! # Sessions line by line

The recorder that all evaluations of a session report to is empty whenever a line is asked for, so
what a line is answered with depends on the settings and on that line alone. A session is then the
answers to its lines, one after the other, up to the first line that is the exit keyword; nothing
behind that line is looked at. All that is written is written out here once more, so the wording of
a session is fixed as well.
-/

namespace Reckoner

open Evaluation

/-! ## Blanks around a text -/

theorem withoutBlanks_dropWhile (text : List Char) :
    withoutBlanks (text.dropWhile isBlank) = withoutBlanks text := by
  induction text with
  | nil => rfl
  | cons c text ih =>
    cases blank : isBlank c with
    | false => rw [List.dropWhile_cons_of_neg (by simp [blank])]
    | true =>
      rw [List.dropWhile_cons_of_pos blank, ih]
      simp [withoutBlanks, blank]

theorem withoutBlanks_reverse (text : List Char) :
    withoutBlanks text.reverse = (withoutBlanks text).reverse :=
  List.filter_reverse

theorem withoutBlanks_trimBlanks (text : List Char) :
    withoutBlanks (trimBlanks text) = withoutBlanks text := by
  rw [trimBlanks, withoutBlanks_reverse, withoutBlanks_dropWhile, withoutBlanks_reverse,
    List.reverse_reverse, withoutBlanks_dropWhile]

theorem trimBlanks_eq_nil_iff {text : List Char} :
    trimBlanks text = [] ↔ withoutBlanks text = [] := by
  constructor
  · intro trimmed
    rw [← withoutBlanks_trimBlanks, trimmed]
    rfl
  · intro blank
    have all : ∀ c ∈ text, isBlank c = true := by
      simpa [withoutBlanks, List.filter_eq_nil_iff] using blank
    rw [trimBlanks, List.dropWhile_eq_nil_iff.2 all]
    rfl

theorem Precision.trace_congr {text text' : String}
    (h : withoutBlanks text.toList = withoutBlanks text'.toList) (precision : Precision) :
    precision.trace text = precision.trace text' := by
  rw [trace, trace, run, run, h]

/-! ## Lines -/

namespace Lines

theorem ofBytes_newline_ne_nil (head : List UInt8) : ofBytes (head ++ [newline]) ≠ [] := by
  induction head with
  | nil => decide
  | cons byte head ih =>
    rw [List.cons_append, ofBytes]
    split
    · exact List.cons_ne_nil _ _
    split
    · exact ih
    split
    · exact List.cons_ne_nil _ _
    · exact List.cons_ne_nil _ _

theorem ofBytes_append_newline (head tail : List UInt8) :
    ofBytes (head ++ newline :: tail) = ofBytes (head ++ [newline]) ++ ofBytes tail := by
  induction head with
  | nil => rfl
  | cons byte head ih =>
    have next : (head ++ newline :: tail).head? = (head ++ [newline]).head? := by
      cases head <;> rfl
    rw [List.cons_append, List.cons_append, ofBytes, ofBytes, next]
    split
    · rw [ih, List.cons_append]
    split
    · exact ih
    obtain ⟨line, lines, first⟩ := List.exists_cons_of_ne_nil (ofBytes_newline_ne_nil head)
    rw [ih, first]
    rfl

end Lines

/-! ## Wording -/

/-- The word for a cause, and the message about it. -/
def EvalError.words : EvalError → String × String
  | emptyExpression => ("EmptyExpression", "expression is empty")
  | illegalCharacter found position =>
    ("IllegalCharacter",
      "illegal character '" ++ toString found ++ "' at position " ++ toString position)
  | numberParseFailure position =>
    ("NumberParseFailure", "could not parse a number at position " ++ toString position)
  | missingUnaryOperand position =>
    ("MissingUnaryOperand", "sign at position " ++ toString position ++
      " must be followed by a number or parenthesis")
  | unmatchedParenthesis => ("UnmatchedParenthesis", "unmatched parenthesis")
  | divisionByZero => ("DivisionByZero", "division by zero")
  | malformedExpression => ("MalformedExpression", "malformed expression")
  | overflow => ("Overflow", "arithmetic overflow: value exceeds the representable range")
  | underflow =>
    ("Underflow", "arithmetic underflow: value too small to keep the working precision")

/-- What is said about an event. -/
def Event.words : Event → String
  | normalized expression => "normalized: " ++ expression
  | valuePushed value position => "[" ++ toString position ++ "] push value " ++ value.text
  | operatorPushed operator position =>
    "[" ++ toString position ++ "] push operator " ++ toString operator
  | signPushed sign position =>
    "[" ++ toString position ++ "] rewrite sign as 0 " ++ toString sign ++ " ..."
  | parenOpened position => "[" ++ toString position ++ "] open ("
  | parenClosed position => "[" ++ toString position ++ "] close )"
  | applied operator left right result =>
    "apply " ++ left.text ++ " " ++ toString operator ++ " " ++ right.text ++ " = " ++ result.text
  | completed result => "result " ++ result.text
  | failed error => "failed: " ++ error.words.2

theorem EvalError.words_eq (error : EvalError) : error.words = (error.kind, error.message) := by
  cases error <;> rfl

theorem Event.line_eq : Event.line = fun event => "  " ++ event.words ++ "\n" := by
  funext event
  cases event with
  | failed error =>
    rw [words, error.words_eq]
    rfl
  | _ => rfl

/-! ## What a line amounts to -/

/-- How many outcomes are values and how many are errors. -/
def Summary.ofOutcomes (outcomes : List (Except EvalError Decimal)) : Summary :=
  ⟨outcomes.countP (·.isOk), outcomes.countP (!·.isOk)⟩

theorem Summary.foldl_count (outcomes : List (Except EvalError Decimal)) (summary : Summary) :
    outcomes.foldl count summary =
      ⟨summary.evaluated + outcomes.countP (·.isOk),
        summary.failed + outcomes.countP (!·.isOk)⟩ := by
  induction outcomes generalizing summary with
  | nil => rfl
  | cons outcome outcomes ih =>
    rw [List.foldl_cons, ih]
    cases outcome with
    | ok | error =>
      simp only [count, List.countP_cons, Except.isOk, Except.toBool]
      grind

namespace Session

/-- The line that tells how an evaluation came out. -/
def outcomeWords : Except EvalError Decimal → String
  | .ok value => "= " ++ value.plain ++ "\n"
  | .error error => "error[" ++ error.words.1 ++ "]: " ++ error.words.2 ++ "\n"

theorem outcomeLine_eq (outcome : Except EvalError Decimal) :
    outcomeLine outcome = outcomeWords outcome := by
  cases outcome with
  | ok value => rfl
  | error error =>
    rw [outcomeWords, error.words_eq]
    rfl

theorem precision_eq (session : Session) :
    session.precision.digits = session.settings.digits ∧
      session.precision.rounding = session.settings.rounding := by
  have accepted := session.accepted
  unfold Settings.check at accepted
  split at accepted
  · split at accepted
    · split at accepted
      · cases accepted
      · rw [← Except.ok.inj accepted]
        exact ⟨rfl, rfl⟩
    · cases accepted
  · cases accepted

theorem banner_eq (session : Session) :
    session.banner =
      ["Decimal calculator (" ++ toString session.settings.digits ++ " digits, " ++
          session.settings.rounding.name ++ ")\n",
        "Supports + - * / and parentheses\n",
        "Type " ++ session.settings.exitKeyword ++ " to quit\n"] := by
  obtain ⟨digits, rounding⟩ := session.precision_eq
  rw [← digits, ← rounding]
  simp only [banner, Precision.text, toString, String.append_assoc]

/-- Whether a line ends a session: without the blanks around it, it is the exit keyword, up to the
    case of ASCII letters. -/
def isExit (session : Session) (text : String) : Bool :=
  sameIgnoringCase (trimBlanks text.toList) (trimBlanks session.settings.exitKeyword.toList)

/-- What the text of a line evaluates to, unless it is blank. -/
def outcome? (session : Session) (text : String) : Option (Except EvalError Decimal) :=
  if withoutBlanks text.toList = [] then none else some (session.precision.evaluate text)

/-- What a line is answered with: the events of its own evaluation where they are wanted, then the
    value or the error. Nothing is written for a blank line. -/
def answer (session : Session) (trace : Bool) (text : String) : List String :=
  match session.outcome? text with
  | none => []
  | some outcome =>
    (if trace then
      (session.precision.trace text).events.map fun event => "  " ++ event.words ++ "\n"
    else []) ++ [outcomeWords outcome]

/-- What is written for a line, from the prompt that it is asked for with. -/
def block (session : Session) (trace : Bool) (text : String) : List String :=
  session.settings.prompt :: session.answer trace text

/-- The same session with or without the events of its evaluations. -/
def withTrace (session : Session) (trace : Bool) : Session :=
  ⟨{ session.settings with trace := trace }, session.precision, session.accepted⟩

/-- The texts that a session takes from some lines, all of them or those before the exit keyword.
    They have to be texts up to there; what stands behind the exit keyword need not be any. -/
inductive Hears (session : Session) : List (List UInt8) → List String → (left : Bool) → Prop
  | finish : Hears session [] [] false
  | leave {line : List UInt8} {text : String} (read : Lines.decode? line = some text)
    (exit : session.isExit text = true) (lines : List (List UInt8)) :
    Hears session (line :: lines) [] true
  | next {line : List UInt8} {text : String} {lines : List (List UInt8)} {texts : List String}
    {left : Bool} (read : Lines.decode? line = some text) (stay : session.isExit text = false)
    (others : Hears session lines texts left) :
    Hears session (line :: lines) (text :: texts) left

theorem respond_eq (session : Session) (text : String) :
    session.respond text =
      if session.isExit text = true then .leave
      else if withoutBlanks text.toList = [] then .skip
      else .answer (session.precision.trace text) := by
  have trimmed : session.precision.trace (String.ofList (trimBlanks text.toList)) =
      session.precision.trace text := by
    apply Precision.trace_congr
    rw [String.toList_ofList, withoutBlanks_trimBlanks]
  dsimp only [respond, isExit]
  rw [trimmed]
  refine if_congr Iff.rfl rfl (if_congr ?_ rfl rfl)
  rw [List.isEmpty_iff, trimBlanks_eq_nil_iff]

theorem outcome?_of_answer {session : Session} {text : String} {result : Traced Decimal}
    (h : session.respond text = .answer result) : session.outcome? text = some result.outcome := by
  rw [respond_eq] at h
  split at h
  · cases h
  split at h
  · cases h
  next nonempty =>
  cases h
  rw [outcome?, if_neg nonempty]
  rfl

theorem outcome?_ne_emptyExpression (session : Session) (text : String) :
    session.outcome? text ≠ some (.error .emptyExpression) := by
  intro reported
  rw [outcome?] at reported
  split at reported
  · cases reported
  next nonempty =>
  have failed := Option.some.inj reported
  exact nonempty (Precision.describes_of_evaluate failed)

/-! ## One line after the other -/

variable {session : Session}

/-- What a session keeps when a line is asked for: the counts, and a recorder without events. -/
def resting (session : Session) (summary : Summary) : Progress :=
  { session.initial with summary := summary }

theorem showEvents_resting (summary : Summary) :
    (session.resting summary).showEvents = ([], session.resting summary) := by
  simp only [resting, initial, Progress.showEvents]
  cases session.settings.trace <;> rfl

theorem showEvents_report (summary : Summary) (events : List Event) :
    ((session.resting summary).report events).showEvents =
      (if session.settings.trace = true then events.map Event.line else [],
        session.resting summary) := by
  simp only [resting, initial, Progress.showEvents, Progress.report]
  cases session.settings.trace <;> rfl

/-- A session that rests when a line is asked for writes what belongs to that line, and rests
    again. -/
theorem turn_resting {line : List UInt8} {text : String} (read : Lines.decode? line = some text)
    (summary : Summary) :
    session.turn (session.resting summary) line =
      if session.isExit text = true then .stop ["Bye!\n"] (.ok summary)
      else .goOn (session.answer session.settings.trace text)
        (session.resting ((session.outcome? text).elim summary summary.count)) := by
  have replied := session.respond_eq text
  by_cases exit : session.isExit text = true
  · rw [if_pos exit] at replied ⊢
    simp only [turn, read, handle, replied, showEvents_resting]
    rfl
  rw [if_neg exit] at replied ⊢
  by_cases blank : withoutBlanks text.toList = []
  · rw [if_pos blank] at replied
    simp only [turn, read, handle, replied, showEvents_resting, answer, outcome?, if_pos blank]
    rfl
  · rw [if_neg blank] at replied
    simp only [turn, read, handle, replied, showEvents_report, answer, outcome?, if_neg blank,
      Event.line_eq, outcomeLine_eq]
    rfl

/-- Since every turn leaves the session at rest, the blocks of the lines do not depend on each
    other. -/
theorem converse_of_hears {lines : List (List UInt8)} {texts : List String} {left : Bool}
    (h : session.Hears lines texts left) (summary : Summary) :
    session.converse (session.resting summary) lines =
      ⟨texts.flatMap (session.block session.settings.trace) ++
          [session.settings.prompt, if left then "Bye!\n" else "\n"],
        .ok ((texts.filterMap session.outcome?).foldl Summary.count summary)⟩ := by
  induction h generalizing summary with
  | finish => rfl
  | leave read exit lines =>
    simp only [converse, turn_resting read, if_pos exit]
    rfl
  | @next line text lines texts left read stay others ih =>
    have counted : ((text :: texts).filterMap session.outcome?).foldl Summary.count summary =
        (texts.filterMap session.outcome?).foldl Summary.count
          ((session.outcome? text).elim summary summary.count) := by
      cases came : session.outcome? text <;> simp [came]
    simp only [converse, turn_resting read, if_neg (Bool.eq_false_iff.1 stay), ih, counted]
    simp [block]

theorem exists_stop_of_isExit {line : List UInt8} {text : String}
    (read : Lines.decode? line = some text) (exit : session.isExit text = true)
    (progress : Progress) : ∃ writes ending, session.turn progress line = .stop writes ending := by
  simp only [turn, read, handle, respond_eq, if_pos exit]
  exact ⟨_, _, rfl⟩

theorem converse_append {lines : List (List UInt8)}
    (exit : ∃ line ∈ lines, ∃ text ∈ Lines.decode? line, session.isExit text = true)
    (more : List (List UInt8)) (progress : Progress) :
    session.converse progress (lines ++ more) = session.converse progress lines := by
  induction lines generalizing progress with
  | nil =>
    obtain ⟨line, member, -⟩ := exit
    cases member
  | cons first lines ih =>
    rw [List.cons_append, converse, converse]
    cases turned : session.turn progress first with
    | stop writes ending => rfl
    | goOn writes progress =>
      obtain ⟨line, member, text, read, exit⟩ := exit
      rcases List.mem_cons.1 member with rfl | member
      · obtain ⟨_, _, stopped⟩ := exists_stop_of_isExit read exit _
        rw [turned] at stopped
        cases stopped
      · simp only [ih ⟨line, member, text, read, exit⟩]

theorem run_of_hears {input : List UInt8} {texts : List String} {left : Bool}
    (h : session.Hears (Lines.ofBytes input) texts left) :
    session.run input =
      ⟨session.banner ++ texts.flatMap (session.block session.settings.trace) ++
          [session.settings.prompt, if left then "Bye!\n" else "\n"],
        .ok (Summary.ofOutcomes (texts.filterMap session.outcome?))⟩ := by
  have rests : session.initial = session.resting .empty := rfl
  rw [run, rests, converse_of_hears h, Summary.foldl_count, List.append_assoc]
  simp [Summary.ofOutcomes, Summary.empty]

theorem Hears.withTrace {lines : List (List UInt8)} {texts : List String} {left : Bool}
    (h : session.Hears lines texts left) (trace : Bool) :
    (session.withTrace trace).Hears lines texts left := by
  induction h with
  | finish => exact .finish
  | leave read exit lines =>
    refine .leave read ?_ lines
    exact exit
  | next read stay others ih => exact .next read stay ih

/-- A session opens with three lines about its settings. Then it writes the prompt for each line and
    what this line is answered with, which its settings and this line alone decide: without the
    lines about events, which are wanted or not, it is the same. It ends at the exit keyword, and
    what stands behind it is not looked at. Answers are counted by their kind, and none says that a
    line is empty. -/
theorem run_eq_blocks (session : Session) :
    (∀ input texts left, session.Hears (Lines.ofBytes input) texts left → ∀ trace,
      (session.withTrace trace).run input =
        ⟨["Decimal calculator (" ++ toString session.settings.digits ++ " digits, " ++
              session.settings.rounding.name ++ ")\n",
            "Supports + - * / and parentheses\n",
            "Type " ++ session.settings.exitKeyword ++ " to quit\n"] ++
          texts.flatMap (fun text => session.settings.prompt ::
            match session.outcome? text with
            | none => []
            | some outcome =>
              (if trace then
                (session.precision.trace text).events.map fun event => "  " ++ event.words ++ "\n"
              else []) ++
                [match outcome with
                | .ok value => "= " ++ value.plain ++ "\n"
                | .error error => "error[" ++ error.words.1 ++ "]: " ++ error.words.2 ++ "\n"]) ++
          [session.settings.prompt, if left then "Bye!\n" else "\n"],
          .ok (Summary.ofOutcomes (texts.filterMap session.outcome?))⟩) ∧
    (∀ head tail,
      (∃ line ∈ Lines.ofBytes (head ++ [Lines.newline]), ∃ text ∈ Lines.decode? line,
        session.isExit text = true) →
      session.run (head ++ Lines.newline :: tail) = session.run (head ++ [Lines.newline])) ∧
    ∀ text, session.outcome? text ≠ some (.error .emptyExpression) ∧
      ∀ result, session.respond text = .answer result →
        result.outcome ≠ .error .emptyExpression := by
  refine ⟨?_, ?_, fun text => ⟨session.outcome?_ne_emptyExpression text, ?_⟩⟩
  · intro input texts left heard trace
    rw [run_of_hears (heard.withTrace trace), banner_eq]
    rfl
  · intro head tail exit
    rw [run, run, Lines.ofBytes_append_newline, converse_append exit]
  · intro result answered empty
    have reported := outcome?_of_answer answered
    rw [empty] at reported
    exact session.outcome?_ne_emptyExpression text reported

/-- A session hears a sum behind a sign, a blank line, a letter and its keyword in capitals, in front
    of a byte that begins no text. -/
theorem run_eq_blocks_sum :
    let session : Session := ⟨⟨16, .halfEven, " exit", "> ", true⟩, .decimal64, rfl⟩
    let head : List UInt8 := "-(2+1)\r\n \n1+a\nEXIT".toUTF8.toList
    session.Hears (Lines.ofBytes (head ++ [Lines.newline])) ["-(2+1)", " ", "1+a"] true ∧
    (session.withTrace false).run (head ++ [Lines.newline]) =
      ⟨["Decimal calculator (16 digits, half-even)\n", "Supports + - * / and parentheses\n",
          "Type  exit to quit\n",
          "> ", "= -3\n",
          "> ",
          "> ", "error[IllegalCharacter]: illegal character 'a' at position 2\n",
          "> ", "Bye!\n"],
        .ok ⟨1, 1⟩⟩ ∧
    (session.withTrace true).run (head ++ [Lines.newline]) =
      ⟨["Decimal calculator (16 digits, half-even)\n", "Supports + - * / and parentheses\n",
          "Type  exit to quit\n",
          "> ", "  normalized: -(2+1)\n", "  [0] rewrite sign as 0 - ...\n", "  [1] open (\n",
          "  [2] push value 2\n", "  [3] push operator +\n", "  [4] push value 1\n",
          "  apply 2 + 1 = 3\n", "  [5] close )\n", "  apply 0 - 3 = -3\n", "  result -3\n",
          "= -3\n",
          "> ",
          "> ", "  normalized: 1+a\n", "  [0] push value 1\n", "  [1] push operator +\n",
          "  failed: illegal character 'a' at position 2\n",
          "error[IllegalCharacter]: illegal character 'a' at position 2\n",
          "> ", "Bye!\n"],
        .ok ⟨1, 1⟩⟩ ∧
    session.run (head ++ Lines.newline :: [0xFF]) = session.run (head ++ [Lines.newline]) := by
  intro session head
  have lines : Lines.ofBytes (head ++ [Lines.newline]) =
      ["-(2+1)".toUTF8.toList, " ".toUTF8.toList, "1+a".toUTF8.toList, "EXIT".toUTF8.toList] := by
    decide +kernel
  have read : Lines.decode? "EXIT".toUTF8.toList = some "EXIT" := by decide +kernel
  have exit : session.isExit "EXIT" = true := by decide +kernel
  have heard : session.Hears (Lines.ofBytes (head ++ [Lines.newline]))
      ["-(2+1)", " ", "1+a"] true := by
    rw [lines]
    refine .next (by decide +kernel) (by decide +kernel) (.next ?_ ?_ (.next ?_ ?_
      (.leave read exit []))) <;> decide +kernel
  have counted :
      Summary.ofOutcomes (["-(2+1)", " ", "1+a"].filterMap session.outcome?) = ⟨1, 1⟩ := by
    decide +kernel
  obtain ⟨blocks, behind, -⟩ := run_eq_blocks session
  refine ⟨heard, ?_, ?_, behind head [0xFF] ?_⟩
  · rw [blocks _ _ _ heard false, counted]
    congr 1
    decide +kernel
  · rw [blocks _ _ _ heard true, counted]
    congr 1
    decide +kernel
  · rw [lines]
    exact ⟨_, by simp, "EXIT", read, exit⟩

end Session

end Reckoner
