import Reckoner.Proofs.Groups
import Reckoner.Proofs.Reporting
import Reckoner.Proofs.Surroundings

/-! # The places of events in the text

The events that are about tokens tile the text that is read: each stands at the offset of its token,
the token reaches to the offset of the next event, and in an evaluation that succeeds the last one
reaches to the end of the text. An evaluation that fails has tiled the text up to some place.
-/

namespace Reckoner

open Event

variable {precision : Precision}

/-! ## Runs of digits -/

/-- Whether some characters are digits with at most one point among them. -/
def IsNumberRun (run : List Char) : Prop :=
  (∀ c ∈ run, Literal.startsWith c = true) ∧ run.count '.' ≤ 1

/-- Whether such a run ends where it has to: it cannot take the next character. -/
structure IsMaximalRun (run rest : List Char) : Prop where
  isRun : IsNumberRun run
  maximal : ∀ c ∈ rest.head?, ¬ IsNumberRun (run ++ [c])

namespace Literal

theorem count_point_map_toChar (digits : List Digit) :
    (digits.map Digit.toChar).count '.' = 0 := by
  rw [List.count_eq_zero]
  intro member
  obtain ⟨digit, -, shown⟩ := List.mem_map.1 member
  revert digit
  decide

theorem count_point_chars (literal : Literal) :
    literal.chars.count '.' = if literal.fraction = none then 0 else 1 := by
  rw [chars, List.count_append, count_point_map_toChar]
  cases literal.fraction with
  | none => simp
  | some places => simp [count_point_map_toChar]

theorem EndsBefore.isMaximalRun {literal : Literal} {rest : List Char}
    (h : literal.EndsBefore rest) : IsMaximalRun literal.chars rest := by
  refine ⟨⟨fun c member => startsWith_of_mem_chars member, ?_⟩, ?_⟩
  · rw [count_point_chars]
    split <;> decide
  · rintro c member ⟨all, points⟩
    obtain ⟨noDigit, pointed⟩ := h c member
    have starts := all c (by simp)
    have point : c = '.' := by simpa [startsWith, noDigit] using starts
    rw [List.count_append, count_point_chars, if_neg (pointed point), point] at points
    exact absurd points (by decide)

theorem ofChars?_chars (literal : Literal) : ofChars? literal.chars = some literal := by
  have found := read?_chars_append literal.endsBefore_nil
  rw [List.append_nil] at found
  rw [ofChars?, found]

end Literal

theorem Precision.parse_ofList_chars (precision : Precision) (literal : Literal) :
    precision.parse (String.ofList literal.chars) = precision.ofLiteral literal := by
  rw [parse, String.toList_ofList, literal.ofChars?_chars]

/-! ## One token -/

/-- Whether an event is about the token that stands in a text from the event's position up to
    `next`. The token is recognized by its characters and by those around it. -/
inductive Event.Shows (precision : Precision) (text : List Char) (next : Nat) : Event → Prop
  | parenOpened {position : Nat} (written : text.extract position next = ['(']) :
    Shows precision text next (.parenOpened position)
  | parenClosed {position : Nat} (written : text.extract position next = [')']) :
    Shows precision text next (.parenClosed position)
  /-- A `+` or `-` is an operator only behind an operand. -/
  | operatorPushed {operator : Operator} {position : Nat}
    (written : text.extract position next = [operator.symbol])
    (behind : operator.sign?.isSome = true →
      ∃ c ∈ (text.take position).getLast?, Literal.startsWith c = true ∨ c = ')') :
    Shows precision text next (.operatorPushed operator position)
  | signPushed {sign : Sign} {position : Nat}
    (written : text.extract position next = [sign.symbol])
    (unary : isSignAt text position = true)
    (before : ∃ c ∈ text[next]?, Token.takesSign c = true) :
    Shows precision text next (.signPushed sign.operator position)
  | valuePushed {sign : Option Sign} {run : List Char} {magnitude : Decimal} {position : Nat}
    (written : text.extract position next = (sign.map Sign.symbol).toList ++ run)
    (unary : sign.isSome = true → isSignAt text position = true)
    (maximal : IsMaximalRun run (text.drop next))
    (read : precision.parse (String.ofList run) = .ok magnitude) :
    Shows precision text next (.valuePushed (sign.elim magnitude (·.on magnitude)) position)

theorem exists_getLast?_of_not_due {tokens : List Token} (h : Token.dueAfter true tokens = false) :
    ∃ c ∈ (tokens.flatMap Token.chars).getLast?, Literal.startsWith c = true ∨ c = ')' := by
  rcases List.eq_nil_or_concat tokens with rfl | ⟨front, last, rfl⟩
  · cases h
  · rw [List.concat_eq_append, Token.dueAfter_append] at h
    rw [List.concat_eq_append, List.flatMap_append, List.flatMap_singleton,
      List.getLast?_append_of_ne_nil _ last.chars_ne_nil]
    cases last with
    | openParen | operator | sign => cases h
    | closeParen => exact ⟨')', rfl, .inr rfl⟩
    | number sign literal =>
      obtain ⟨c, member, same⟩ := Token.exists_getLast?_chars_number sign literal
      exact ⟨c, same, .inl (Literal.startsWith_of_mem_chars member)⟩

theorem isSignAt_of_due {tokens : List Token} (h : Token.dueAfter true tokens = true) (sign : Sign)
    (rest : List Char) :
    isSignAt (tokens.flatMap Token.chars ++ sign.symbol :: rest)
      (tokens.flatMap Token.chars).length = true := by
  rw [isSignAt_append_cons, ← dueAfter_eq_operandDueAfter, h]
  cases sign <;> rfl

theorem Token.chars_number (sign : Option Sign) (literal : Literal) :
    (number sign literal).chars = (sign.map Sign.symbol).toList ++ literal.chars := by
  cases sign <;> rfl

theorem Token.endsBefore_of_readableBefore {due : Bool} {rest : List Char} {sign : Option Sign}
    {literal : Literal} (h : (number sign literal).ReadableBefore due rest) :
    literal.EndsBefore rest := by
  cases sign with
  | none => exact h
  | some sign => exact h.2

theorem Event.Tells.shows {front : List Token} {token : Token} {rest : List Char} {event : Event}
    (h : Tells precision (front.flatMap Token.chars).length token event)
    (readable : token.ReadableBefore (Token.dueAfter true front) rest) :
    event.Shows precision (front.flatMap Token.chars ++ (token.chars ++ rest))
      ((front.flatMap Token.chars).length + token.chars.length) := by
  have unary (sign : Sign) (due : Token.dueAfter true front = true) (more : List Char) :=
    isSignAt_of_due due sign more
  have behind (due : Token.dueAfter true front = false) := exists_getLast?_of_not_due due
  generalize front.flatMap Token.chars = before at h unary behind ⊢
  have written : (before ++ (token.chars ++ rest)).extract before.length
      (before.length + token.chars.length) = token.chars := by
    simp [List.extract_eq_take_drop]
  have after : (before ++ (token.chars ++ rest)).drop (before.length + token.chars.length) =
      rest := by
    rw [← List.drop_drop, List.drop_left, List.drop_left]
  cases h with
  | openParen => exact .parenOpened written
  | closeParen => exact .parenClosed written
  | operator operator =>
    refine .operatorPushed written fun signed => ?_
    rw [List.take_left]
    refine behind ?_
    cases due : Token.dueAfter true front with
    | false => rfl
    | true =>
      rw [readable due] at signed
      cases signed
  | sign sign =>
    obtain ⟨due, c, member, takes⟩ := readable
    refine .signPushed written (unary sign due rest) ⟨c, ?_, takes⟩
    rw [← List.head?_drop, after]
    exact member
  | @number sign literal _ made =>
    obtain ⟨magnitude, stored, rfl⟩ := Evaluation.ofSigned_eq_ok made
    have read := (precision.parse_ofList_chars literal).trans stored
    refine .valuePushed (written.trans (Token.chars_number sign literal)) ?_ ?_ read
    · intro signed
      obtain ⟨sign, rfl⟩ := Option.isSome_iff_exists.1 signed
      exact unary sign readable.1 (literal.chars ++ rest)
    · rw [after]
      exact (Token.endsBefore_of_readableBefore readable).isMaximalRun

/-! ## All tokens -/

/-- Events that follow each other in a text without a gap, from `start` up to `stop`. -/
inductive Tiles (precision : Precision) (text : List Char) : Nat → List Event → Nat → Prop
  | nil (start : Nat) : Tiles precision text start [] start
  | cons {start next stop : Nat} {event : Event} {events : List Event}
    (placed : event.position? = some start) (forward : start < next)
    (shows : event.Shows precision text next) (others : Tiles precision text next events stop) :
    Tiles precision text start (event :: events) stop


namespace Tiles

variable {text : List Char} {start stop : Nat} {events : List Event}

theorem start_le (h : Tiles precision text start events stop) : start ≤ stop := by
  induction h with
  | nil start => exact Nat.le_refl start
  | cons placed forward shows others ih => omega

theorem head?_positions (h : Tiles precision text start events stop) :
    ∀ position ∈ (events.filterMap Event.position?).head?, position = start := by
  cases h with
  | nil => nofun
  | cons placed forward shows others =>
    intro position member
    simpa [placed] using member.symm

theorem bounds_positions (h : Tiles precision text start events stop) :
    ∀ position ∈ events.filterMap Event.position?, start ≤ position ∧ position < stop := by
  induction h with
  | nil start => simp
  | cons placed forward shows others ih =>
    have reach := others.start_le
    intro position member
    rw [List.filterMap_cons_some placed] at member
    rcases List.mem_cons.1 member with rfl | member
    · omega
    · have := ih position member
      omega

theorem pairwise_positions (h : Tiles precision text start events stop) :
    (events.filterMap Event.position?).Pairwise (· < ·) := by
  induction h with
  | nil start => exact .nil
  | cons placed forward shows others ih =>
    rw [List.filterMap_cons_some placed]
    refine .cons (fun position member => ?_) ih
    have := others.bounds_positions position member
    omega

/-- Each event shows its token up to the position of the next event. -/
theorem shows_zip_positions (h : Tiles precision text start events stop) :
    ∀ pair ∈ events.zip (events.filterMap Event.position?).tail,
      pair.1.Shows precision text pair.2 := by
  induction h with
  | nil start => simp
  | cons placed forward shows others ih =>
    rw [List.filterMap_cons_some placed, List.tail_cons]
    cases others with
    | nil => simp
    | cons placed' forward' shows' others =>
      rw [List.filterMap_cons_some placed'] at ih ⊢
      rw [List.zip_cons_cons]
      exact List.forall_mem_cons.2 ⟨shows, ih⟩

theorem exists_shows_getLast? (h : Tiles precision text start events stop)
    (forward : start < stop) :
    ∃ last ∈ events.getLast?, last.Shows precision text stop := by
  induction h with
  | nil start => exact absurd forward (Nat.lt_irrefl start)
  | @cons _ next _ event _ placed forward' shows others ih =>
    cases others with
    | nil => exact ⟨event, rfl, shows⟩
    | cons placed' forward'' shows' others =>
      have reach := others.start_le
      exact ih (by omega)

end Tiles

theorem tiles_of_tells {text rest : List Char} (front : List Token) {tokens : List Token}
    {events : List Event}
    (whole : text = front.flatMap Token.chars ++ (tokens.flatMap Token.chars ++ rest))
    (readable : Token.AllReadable (Token.dueAfter true front) rest tokens)
    (tells : List.Forall₂ (fun placed event => Tells precision placed.1 placed.2 event)
      (Token.place (front.flatMap Token.chars).length tokens) events) :
    Tiles precision text (front.flatMap Token.chars).length events
      ((front ++ tokens).flatMap Token.chars).length := by
  -- The tokens move to the front one by one, since offsets and signs depend on what stands before.
  induction tokens generalizing front events with
  | nil =>
    cases tells
    rw [List.append_nil]
    exact .nil _
  | cons token tokens ih =>
    cases tells with
    | cons first others =>
      have due : Token.dueAfter true (front ++ [token]) = token.operandDue := by
        rw [Token.dueAfter_append]
        rfl
      have next : ((front ++ [token]).flatMap Token.chars).length =
          (front.flatMap Token.chars).length + token.chars.length := by
        rw [List.flatMap_append, List.flatMap_singleton, List.length_append]
      have behind := ih (front ++ [token]) (by simp [whole]) (due ▸ readable.2) (next ▸ others)
      have shows := first.shows readable.1
      rw [← List.append_assoc token.chars, ← List.flatMap_cons, ← whole] at shows
      rw [next, List.append_assoc] at behind
      have forward := List.length_pos_iff.2 token.chars_ne_nil
      exact .cons first.position? (Nat.lt_add_of_pos_right forward) shows behind

theorem Token.exists_of_place_eq_append {position : Nat} {tokens : List Token}
    {first second : List (Nat × Token)} (h : place position tokens = first ++ second) :
    ∃ front back, tokens = front ++ back ∧ first = place position front := by
  induction first generalizing position tokens with
  | nil => exact ⟨[], tokens, rfl, rfl⟩
  | cons placed first ih =>
    cases tokens with
    | nil => cases h
    | cons token tokens =>
      obtain ⟨rfl, others⟩ := List.cons.inj h
      obtain ⟨front, back, rfl, rfl⟩ := ih others
      exact ⟨token :: front, back, rfl, rfl⟩

namespace Evaluation

/-- Whatever stops an evaluation, it has tiled the text up to there. -/
theorem exists_tiles_runScan (precision : Precision) (text : List Char) :
    let run := runScan precision (Scan.ofChars text)
    ∃ stop, stop ≤ text.length ∧ Tiles precision text 0 (run.events.filter isPlaced) stop ∧
      ∀ result, run.outcome = .ok result → stop = text.length := by
  intro run
  have reports : Reports precision (Scan.ofChars text).tokens run := reports_runScan _
  obtain ⟨tokens, rest, whole, readable, placed, stops⟩ := Scan.readFrom_spec true 0 text
  rw [Scan.ofChars, placed] at reports
  cases outcome : run.outcome with
  | error error =>
    obtain ⟨first, second, split, told⟩ := reports.told
    obtain ⟨front, back, rfl, rfl⟩ := Token.exists_of_place_eq_append split
    rw [List.flatMap_append, List.append_assoc] at whole
    have front_readable := (Token.allReadable_append.1 readable).1
    refine ⟨_, ?_, tiles_of_tells [] whole front_readable told.tells, ?_⟩
    · simp [whole]
    · intro result succeeded
      cases succeeded
  | ok result =>
    have told := reports.whole result outcome
    have noStop : (Scan.readFrom true 0 text).stop = none := by
      rw [outcome_runScan] at outcome
      obtain ⟨final, -, concluded⟩ := bind_eq_ok_iff.1 outcome
      exact stop_eq_none_of_conclude precision concluded
    have ended : rest = [] := by
      cases rest with
      | nil => rfl
      | cons c rest =>
        obtain ⟨error, -, stopped⟩ := stops
        rw [noStop] at stopped
        cases stopped
    rw [ended, List.append_nil] at whole
    rw [ended] at readable
    have tiles := tiles_of_tells [] (by simpa using whole) readable told.tells
    rw [List.nil_append, ← whole] at tiles
    exact ⟨text.length, Nat.le_refl _, tiles, fun _ _ => rfl⟩

theorem exists_tiles_trace (precision : Precision) (text : String) :
    let chars := withoutBlanks text.toList
    ∃ stop, stop ≤ chars.length ∧
      Tiles precision chars 0 ((precision.trace text).events.filter isPlaced) stop ∧
      ∀ result, precision.evaluate text = .ok result → 0 < stop ∧ stop = chars.length := by
  intro chars
  rw [Precision.evaluate]
  rcases precision.trace_eq text with ⟨-, whole⟩ | ⟨nonempty, whole⟩
  · rw [whole]
    refine ⟨0, Nat.zero_le _, .nil 0, ?_⟩
    intro result succeeded
    cases succeeded
  · obtain ⟨stop, inside, tiles, ended⟩ := exists_tiles_runScan precision chars
    have first : ¬ (normalized (String.ofList chars)).isPlaced := by
      rw [isPlaced_of_not_isStep rfl]
      exact Bool.false_ne_true
    have last : ¬ (lastEvent (runScan precision (Scan.ofChars chars)).outcome).isPlaced := by
      rw [isPlaced_of_not_isStep (isStep_lastEvent _)]
      exact Bool.false_ne_true
    rw [whole, List.filter_append, List.filter_cons_of_neg first, List.filter_cons_of_neg last,
      List.filter_nil, List.append_nil]
    refine ⟨stop, inside, tiles, fun result succeeded => ?_⟩
    rw [ended result succeeded]
    exact ⟨List.length_pos_iff.2 nonempty, rfl⟩

end Evaluation

/-- Every character of a text is read exactly once. The events about tokens stand at increasing
    offsets, from the start of the text on; each shows its token up to the next event, and in an
    evaluation that succeeds the last one shows its token up to the end of the text. -/
theorem Precision.shows_trace (precision : Precision) (text : String) :
    let chars := withoutBlanks text.toList
    let placed := (precision.trace text).events.filter isPlaced
    let positions := placed.filterMap Event.position?
    (∀ position ∈ positions.head?, position = 0) ∧
    positions.Pairwise (· < ·) ∧
    (∀ position ∈ positions, position < chars.length) ∧
    (∀ pair ∈ placed.zip positions.tail, pair.1.Shows precision chars pair.2) ∧
    (∀ result, precision.evaluate text = .ok result →
      ∃ last ∈ placed.getLast?, last.Shows precision chars chars.length) := by
  intro chars placed positions
  obtain ⟨stop, inside, tiles, ended⟩ := Evaluation.exists_tiles_trace precision text
  refine ⟨tiles.head?_positions, tiles.pairwise_positions, ?_, tiles.shows_zip_positions, ?_⟩
  · intro position member
    have bounds := tiles.bounds_positions position member
    exact Nat.lt_of_lt_of_le bounds.2 inside
  · intro result succeeded
    obtain ⟨forward, rfl⟩ := ended result succeeded
    exact tiles.exists_shows_getLast? forward

end Reckoner
