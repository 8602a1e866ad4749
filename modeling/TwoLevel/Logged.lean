import TwoLevel.Event

/-! Computations that may fail and that leave a log. What was logged before a failure is
kept. -/

set_option autoImplicit false

namespace TwoLevel

/-- The log of a computation, and its result or the reason of its failure. -/
structure Logged (ε α : Type) where
  events : List Event
  outcome : Except ε α

namespace Logged

variable {ε α β : Type}

def ofExcept (outcome : Except ε α) : Logged ε α := ⟨[], outcome⟩

def log (events : List Event) : Logged ε Unit := ⟨events, .ok ()⟩

/-- Go on after a success, and log both parts. -/
def bind (first : Logged ε α) (next : α → Logged ε β) : Logged ε β :=
  match first.outcome with
  | .error error => ⟨first.events, .error error⟩
  | .ok a =>
    let second := next a
    ⟨first.events ++ second.events, second.outcome⟩

instance : Monad (Logged ε) where
  pure a := ⟨[], .ok a⟩
  bind := bind

/-- Put another kind of error in the place of an error. -/
def mapError {ε' : Type} (f : ε → ε') (x : Logged ε α) : Logged ε' α := ⟨x.events, x.outcome.mapError f⟩

@[simp] theorem outcome_pure (a : α) : (pure a : Logged ε α).outcome = .ok a := rfl

@[simp] theorem outcome_ofExcept (outcome : Except ε α) : (ofExcept outcome).outcome = outcome := rfl

@[simp] theorem outcome_log (events : List Event) : (log events : Logged ε Unit).outcome = .ok () := rfl

@[simp] theorem outcome_mapError {ε' : Type} (f : ε → ε') (x : Logged ε α) :
    (x.mapError f).outcome = x.outcome.mapError f := rfl

@[simp] theorem outcome_bind (first : Logged ε α) (next : α → Logged ε β) :
    (first >>= next).outcome = first.outcome.bind fun a => (next a).outcome := by
  show (bind first next).outcome = _
  unfold bind
  cases first.outcome <;> rfl

end Logged

end TwoLevel
