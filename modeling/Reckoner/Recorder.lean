import Reckoner.Event

/-! # Recording events

A recorder keeps the events it is told, in order, until they are taken out.
-/

namespace Reckoner

/-- The events told so far, the first one first. -/
structure Recorder where
  events : List Event
  deriving Repr, DecidableEq

namespace Recorder

def empty : Recorder := ⟨[]⟩

/-- Keep these events after all others. -/
def record (recorder : Recorder) (events : List Event) : Recorder :=
  ⟨recorder.events ++ events⟩

/-- Take out all events. -/
def take (recorder : Recorder) : List Event × Recorder :=
  (recorder.events, empty)

def size (recorder : Recorder) : Nat :=
  recorder.events.length

def isEmpty (recorder : Recorder) : Bool :=
  recorder.events.isEmpty

end Recorder

end Reckoner
