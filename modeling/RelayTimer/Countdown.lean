import RelayTimer.Player

set_option autoImplicit false

/-!
A timer that is told how much time passes.
-/
namespace RelayTimer

structure Armed where
  durationMs : UInt32
  epoch : UInt32
  deriving Repr, DecidableEq

structure Countdown where
  armed : Option Armed := none
  elapsedMs : UInt32 := 0
  /-- How often the timer has been armed. -/
  starts : Nat := 0
  deriving Repr, DecidableEq

namespace Countdown

def remaining (t : Countdown) : UInt32 :=
  match t.armed with
  | some a => if t.elapsedMs ≤ a.durationMs then a.durationMs - t.elapsedMs else 0
  | none => 0

def apply (t : Countdown) : TimerRequest → Countdown
  | .start durationMs epoch =>
    { armed := some { durationMs, epoch }, elapsedMs := 0, starts := t.starts + 1 }
  | .stop => { t with armed := none, elapsedMs := 0 }

/-- Time passes, as far as it can be counted. -/
def advance (t : Countdown) (ms : UInt32) : Countdown :=
  let total := t.elapsedMs.toNat + ms.toNat
  { t with elapsedMs := UInt32.ofNat (min total (UInt32.size - 1)) }

def fire (t : Countdown) : Option Armed × Countdown :=
  (t.armed, { t with armed := none, elapsedMs := 0 })

end Countdown

end RelayTimer
