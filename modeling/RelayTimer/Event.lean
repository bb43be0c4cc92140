set_option autoImplicit false

/-!
The events that the parts of the timer exchange, and the state of the active program that they
move.
-/
namespace RelayTimer

inductive Event
  /-- The contact has opened or closed. -/
  | contactChanged
  /-- The contact has been told how it is wired. -/
  | wiringChanged
  /-- The loop counter has a new value. -/
  | counterChanged
  /-- The active program is to play, from its first step or from where it was paused. -/
  | start (fromFirst : Bool)
  /-- The active program is to pause. -/
  | stop
  /-- The active program has run out of steps. -/
  | ended
  /-- The time after a step is over; it counts only in the epoch that it was armed in. -/
  | elapsed (epoch : UInt32)
  /-- A sign of life is asked for. -/
  | healthCheck
  /-- A program typed on the console has taken the relay. -/
  | consoleTook
  /-- The console has given the relay back. -/
  | consoleLeft
  deriving Repr, DecidableEq

namespace Event

def isForPlayer : Event → Bool
  | start _ | stop | elapsed _ | healthCheck => true
  | _ => false

def isForDisplay : Event → Bool
  | contactChanged | wiringChanged | counterChanged | ended | consoleTook | consoleLeft => true
  | _ => false

/-- Every event has exactly one addressee. -/
theorem isForDisplay_eq_not_isForPlayer (e : Event) : e.isForDisplay = !e.isForPlayer := by
  cases e <;> rfl

end Event

/-- What the active program is doing. While the console owns the relay, it alone moves it. -/
inductive RunState
  | stopped
  | paused
  | running
  | consoleOwned
  deriving Repr, DecidableEq

namespace RunState

def isActive : RunState → Bool
  | running | paused => true
  | stopped | consoleOwned => false

def after (s : RunState) (e : Event) : RunState :=
  match s, e with
  | _, .consoleTook => consoleOwned
  | consoleOwned, .consoleLeft => stopped
  | consoleOwned, _ => consoleOwned
  | _, .start _ => running
  | running, .stop => paused
  | running, .ended => stopped
  | paused, .ended => stopped
  | s, _ => s

end RunState

end RelayTimer
