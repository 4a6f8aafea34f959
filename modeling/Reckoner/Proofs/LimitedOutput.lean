import Reckoner.Session.Transcript

/-! # Output with limited room

An output may take a number of bytes only. A session that writes its pieces to it one after the
other stops at the first piece that does not fit, whatever this is a piece of, and reads no further
line. Only the bytes count that the session writes in all, and not the pieces: the output holds the
front of them, and the session ends with the write error exactly if some of them are missing.
-/

namespace Reckoner

variable {α β : Type}

namespace Transcript

theorem toList_loop (bytes : ByteArray) (start : Nat) (taken : List UInt8) :
    ByteArray.toList.loop bytes start taken = taken.reverse ++ bytes.data.toList.drop start := by
  induction start, taken using ByteArray.toList.loop.induct bytes with
  | case1 start taken more ih =>
    have inside : start < bytes.data.toList.length := more
    have byte : bytes.get! start = bytes.data.toList[start] := getElem!_pos bytes.data start more
    rw [ByteArray.toList.loop, if_pos more, ih, List.drop_eq_getElem_cons inside, byte]
    simp
  | case2 start taken done =>
    have outside : bytes.data.toList.length ≤ start := Nat.le_of_not_lt done
    rw [ByteArray.toList.loop, if_neg done, List.drop_eq_nil_of_le outside, List.append_nil]

@[simp]
theorem bytes_append (first second : String) :
    bytes (first ++ second) = bytes first ++ bytes second := by
  simp [bytes, ByteArray.toList, toList_loop, String.toUTF8]

@[simp]
theorem bytes_empty : bytes "" = [] := by
  decide +kernel

/-- What room does to pieces it does to the whole of them. -/
theorem deliverWrites_eq (ending : Except SessionError Summary) (room : Nat)
    (writes : List String) :
    deliverWrites ending room writes =
      ((bytes (String.join writes)).take room,
        if room < (bytes (String.join writes)).length then .error .outputFull else ending) := by
  induction writes generalizing room with
  | nil => simp [deliverWrites]
  | cons text writes ih =>
    rw [deliverWrites, String.join_cons, bytes_append, List.length_append, List.take_append]
    split
    · next fits =>
      rw [ih, List.take_of_length_le fits]
      have more : room - (bytes text).length < (bytes (String.join writes)).length ↔
          room < (bytes text).length + (bytes (String.join writes)).length := by omega
      simp only [more]
    · next long =>
      have rest : room - (bytes text).length = 0 := by omega
      rw [rest, List.take_zero, List.append_nil, if_pos (by omega)]

end Transcript

/-! ## Writing to a sink -/

/-- An output with the bytes it has taken and room for so many more. -/
structure Sink where
  taken : List UInt8
  room : Nat
  deriving Repr, DecidableEq

namespace Sink

/-- An output that takes so many bytes. -/
def empty (room : Nat) : Sink := ⟨[], room⟩

/-- Take bytes as long as there is room. -/
def take (sink : Sink) (bytes : List UInt8) : Sink :=
  ⟨sink.taken ++ bytes.take sink.room, sink.room - bytes.length⟩

theorem take_append (sink : Sink) (first second : List UInt8) :
    sink.take (first ++ second) = (sink.take first).take second := by
  simp [take, List.take_append, Nat.sub_add_eq]

theorem take_append_of_full {sink : Sink} {first : List UInt8} (full : sink.room < first.length)
    (second : List UInt8) : sink.take (first ++ second) = sink.take first := by
  have none : sink.room - first.length = 0 := by omega
  rw [take_append, take, take, none]
  simp

end Sink

/-- What is done with a sink. It may fail, and what the sink has taken remains. -/
abbrev Writing := EStateM SessionError Sink

namespace Writing

/-- Write a text, and fail if there is no room for all of it. -/
def write (text : String) : Writing Unit := do
  let sink ← get
  set (sink.take (Transcript.bytes text))
  if sink.room < (Transcript.bytes text).length then throw .outputFull

/-- Write texts one after the other. -/
def writeAll : List String → Writing Unit
  | [] => pure ()
  | text :: texts => do
    write text
    writeAll texts

/-- Come to an end. -/
def finish : Except SessionError α → Writing α
  | .ok value => pure value
  | .error error => throw error

/-- Whether a computation writes these bytes and then comes to this end. Where the sink has no room
    for all of them, it fails instead, and the sink is filled with the front of them. -/
def Writes (program : Writing α) (bytes : List UInt8) (ending : Except SessionError α) : Prop :=
  ∀ sink : Sink, program.run sink =
    (finish (if sink.room < bytes.length then .error .outputFull else ending)).run (sink.take bytes)

theorem writes_pure (value : α) : (pure value : Writing α).Writes [] (.ok value) := by
  intro sink
  simp [finish, Sink.take]

theorem writes_finish (ending : Except SessionError α) : (finish ending).Writes [] ending := by
  intro sink
  simp [Sink.take]

theorem writes_write (text : String) : (write text).Writes (Transcript.bytes text) (.ok ()) := by
  intro sink
  by_cases long : sink.room < (Transcript.bytes text).length
  · simp [write, finish, long]
  · simp [write, finish, long]

variable {program : Writing α} {bytes bytes' : List UInt8}

/-- A second computation gets the room that the first one has left, and does not start where there
    was too little. -/
theorem Writes.bind {value : α} {next : α → Writing β} {ending : Except SessionError β}
    (first : program.Writes bytes (.ok value)) (second : (next value).Writes bytes' ending) :
    (program >>= next).Writes (bytes ++ bytes') ending := by
  intro sink
  rw [EStateM.run_bind, first sink]
  by_cases long : sink.room < bytes.length
  · have longer : sink.room < (bytes ++ bytes').length := by
      rw [List.length_append]
      omega
    rw [if_pos long, if_pos longer, Sink.take_append_of_full long]
    rfl
  · have more : (sink.take bytes).room < bytes'.length ↔
        sink.room < (bytes ++ bytes').length := by
      rw [List.length_append]
      show sink.room - bytes.length < bytes'.length ↔ _
      omega
    have rest := second (sink.take bytes)
    simp only [more, ← Sink.take_append] at rest
    rw [if_neg long]
    exact rest

theorem writes_writeAll (texts : List String) :
    (writeAll texts).Writes (Transcript.bytes (String.join texts)) (.ok ()) := by
  induction texts with
  | nil =>
    rw [String.join_nil, Transcript.bytes_empty]
    exact writes_pure ()
  | cons text texts ih =>
    rw [String.join_cons, Transcript.bytes_append]
    exact (writes_write text).bind ih

end Writing

/-! ## Sessions on a sink -/

namespace Session

open Writing

variable (session : Session)

/-- Answer lines on a sink, from the next prompt on. -/
def converseTo (progress : Progress) : List (List UInt8) → Writing Summary
  | [] => do
    write session.settings.prompt
    writeAll farewell
    return progress.summary
  | line :: lines => do
    write session.settings.prompt
    match session.turn progress line with
    | .goOn writes progress =>
      writeAll writes
      converseTo progress lines
    | .stop writes ending =>
      writeAll writes
      finish ending

/-- A whole session on a sink. Each piece is written before the next line is read. -/
def runTo (input : List UInt8) : Writing Summary := do
  writeAll session.banner
  session.converseTo session.initial (Lines.ofBytes input)

theorem writes_converseTo (progress : Progress) (lines : List (List UInt8)) :
    (session.converseTo progress lines).Writes
      (Transcript.bytes (session.converse progress lines).output)
      (session.converse progress lines).ending := by
  induction lines generalizing progress with
  | nil =>
    rw [Transcript.output, converse, String.join_cons, Transcript.bytes_append,
      ← List.append_nil (Transcript.bytes (String.join farewell))]
    exact (writes_write _).bind ((writes_writeAll farewell).bind (writes_pure _))
  | cons line lines ih =>
    rw [Transcript.output, converse, converseTo]
    cases turned : session.turn progress line with
    | goOn writes progress =>
      dsimp only
      rw [List.cons_append, String.join_cons, String.join_append, Transcript.bytes_append,
        Transcript.bytes_append]
      exact (writes_write _).bind ((writes_writeAll writes).bind (ih progress))
    | stop writes ending =>
      dsimp only
      rw [String.join_cons, Transcript.bytes_append,
        ← List.append_nil (Transcript.bytes (String.join writes))]
      exact (writes_write _).bind ((writes_writeAll writes).bind (writes_finish ending))

theorem writes_runTo (input : List UInt8) :
    (session.runTo input).Writes (Transcript.bytes (session.run input).output)
      (session.run input).ending := by
  rw [Transcript.output, run, String.join_append, Transcript.bytes_append]
  exact (writes_writeAll _).bind (session.writes_converseTo _ _)

theorem ending_ne_of_turn {progress : Progress} {line : List UInt8} {writes : List String}
    {ending : Except SessionError Summary} (h : session.turn progress line = .stop writes ending) :
    ending ≠ .error .outputFull := by
  unfold turn at h
  split at h
  · cases h
    nofun
  · dsimp only at h
    split at h
    · cases h
      nofun
    · cases h
    · cases h

theorem ending_converse_ne (progress : Progress) (lines : List (List UInt8)) :
    (session.converse progress lines).ending ≠ .error .outputFull := by
  induction lines generalizing progress with
  | nil => nofun
  | cons line lines ih =>
    rw [converse]
    cases turned : session.turn progress line with
    | goOn writes progress => exact ih progress
    | stop writes ending => exact session.ending_ne_of_turn turned

/-- A session on an output with limited room leaves there the front of what it writes where nothing
    limits the output, as much of it as there is room for. It ends with the write error exactly if
    that is not everything, and otherwise as it ends without a limit. -/
theorem run_cut_off (session : Session) (input : List UInt8) (room : Nat) :
    let whole := session.run input
    let output := Transcript.bytes whole.output
    let limited := whole.deliver room
    (session.runTo input).run (.empty room) =
        (finish limited.2).run ⟨limited.1, room - output.length⟩ ∧
      limited.1 = output.take room ∧
      (limited.2 = .error .outputFull ↔ room < output.length) ∧
      limited.2 = if room < output.length then .error .outputFull else whole.ending := by
  intro whole output limited
  have delivered : limited = (output.take room,
      if room < output.length then .error .outputFull else whole.ending) :=
    Transcript.deliverWrites_eq whole.ending room whole.writes
  have unlimited : whole.ending ≠ .error .outputFull := session.ending_converse_ne _ _
  rw [delivered]
  refine ⟨session.writes_runTo input (.empty room), rfl, ?_, rfl⟩
  dsimp only
  split
  · next long => exact iff_of_true rfl long
  · next fits => exact iff_of_false unlimited fits

end Session

end Reckoner
