import Reckoner.Session.Basic

/-! # Transcripts

A whole session over a given input is what it writes, piece by piece, and how it ends. The output
that takes the pieces may have room for a number of bytes only; then the last piece is written as
far as it fits, and the session ends there.
-/

namespace Reckoner

/-- The pieces that a session writes, in order, and how it ends. -/
structure Transcript where
  writes : List String
  ending : Except SessionError Summary

namespace Transcript

/-- Everything that is written when nothing limits the output. -/
def output (transcript : Transcript) : String :=
  String.join transcript.writes

/-- The bytes of a text. -/
def bytes (text : String) : List UInt8 :=
  text.toUTF8.toList

/-- Write pieces to an output with room for so many bytes. -/
def deliverWrites (ending : Except SessionError Summary) :
    (room : Nat) → List String → List UInt8 × Except SessionError Summary
  | _, [] => ([], ending)
  | room, text :: writes =>
    let piece := bytes text
    if piece.length ≤ room then
      let rest := deliverWrites ending (room - piece.length) writes
      (piece ++ rest.1, rest.2)
    else
      (piece.take room, .error .outputFull)

/-- What an output with limited room holds in the end, and how the session ends. -/
def deliver (transcript : Transcript) (room : Nat) : List UInt8 × Except SessionError Summary :=
  deliverWrites transcript.ending room transcript.writes

end Transcript

namespace Session

/-- The rest of a session: from the next prompt on, over the lines that are still to be read. -/
def converse (session : Session) (progress : Progress) : List (List UInt8) → Transcript
  | [] => ⟨session.settings.prompt :: farewell, .ok progress.summary⟩
  | line :: lines =>
    match session.turn progress line with
    | .goOn writes progress =>
      let rest := converse session progress lines
      ⟨session.settings.prompt :: writes ++ rest.writes, rest.ending⟩
    | .stop writes ending => ⟨session.settings.prompt :: writes, ending⟩

/-- The whole session over an input. -/
def run (session : Session) (input : List UInt8) : Transcript :=
  let rest := converse session session.initial (Lines.ofBytes input)
  ⟨session.banner ++ rest.writes, rest.ending⟩

end Session

end Reckoner
