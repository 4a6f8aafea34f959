import Reckoner.Event

/-! # Computations that report events

A traced computation gives the events it has reported so far, also when it fails. One computation
after the other reports its events after those of the first, and none once the first has failed.
-/

namespace Reckoner

/-- An outcome together with the events on the way to it, in order. -/
structure Traced (α : Type) where
  events : List Event
  outcome : Except EvalError α

namespace Traced

variable {α β : Type}

/-- Report one event. -/
def emit (event : Event) : Traced Unit :=
  ⟨[event], .ok ()⟩

/-- Fail without an event. -/
def fail (error : EvalError) : Traced α :=
  ⟨[], .error error⟩

protected def pure (value : α) : Traced α :=
  ⟨[], .ok value⟩

protected def bind (first : Traced α) (next : α → Traced β) : Traced β :=
  match first.outcome with
  | .ok value => ⟨first.events ++ (next value).events, (next value).outcome⟩
  | .error error => ⟨first.events, .error error⟩

instance : Monad Traced where
  pure := Traced.pure
  bind := Traced.bind

/-- Run a computation that reports nothing. -/
def lift (outcome : Except EvalError α) : Traced α :=
  ⟨[], outcome⟩

@[simp]
theorem pure_events (value : α) : (pure value : Traced α).events = [] := rfl

@[simp]
theorem pure_outcome (value : α) : (pure value : Traced α).outcome = .ok value := rfl

@[simp]
theorem emit_bind (event : Event) (next : Unit → Traced β) :
    (emit event >>= next) = ⟨event :: (next ()).events, (next ()).outcome⟩ := rfl

@[simp]
theorem fail_bind (error : EvalError) (next : α → Traced β) :
    ((fail error : Traced α) >>= next) = fail error := rfl

theorem bind_of_ok {first : Traced α} {value : α} (h : first.outcome = .ok value)
    (next : α → Traced β) :
    (first >>= next) = ⟨first.events ++ (next value).events, (next value).outcome⟩ := by
  show Traced.bind first next = _
  rw [Traced.bind, h]

theorem bind_of_error {first : Traced α} {error : EvalError} (h : first.outcome = .error error)
    (next : α → Traced β) : (first >>= next) = ⟨first.events, .error error⟩ := by
  show Traced.bind first next = _
  rw [Traced.bind, h]

theorem bind_assoc_of_traced {γ : Type} (first : Traced α) (second : α → Traced β)
    (third : β → Traced γ) :
    Traced.bind (Traced.bind first second) third =
      Traced.bind first fun value => Traced.bind (second value) third := by
  obtain ⟨events, outcome⟩ := first
  cases outcome with
  | error => rfl
  | ok value => cases h : (second value).outcome <;> simp [Traced.bind, h]

instance : LawfulMonad Traced :=
  LawfulMonad.mk' Traced
    (fun ⟨events, outcome⟩ => by cases outcome <;> simp [Functor.map, Traced.bind, Traced.pure])
    (fun _ _ => by simp [bind, pure, Traced.bind, Traced.pure])
    (fun first second third => bind_assoc_of_traced first second third)

end Traced

end Reckoner
