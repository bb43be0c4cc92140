set_option autoImplicit false

/-!
Single lines of the chip with a polarity: an inverted line is active when its level is low.
-/
namespace RelayTimer

structure RelayOutput where
  inverted : Bool
  /-- The level on the line. -/
  level : Bool
  /-- How often the line has been driven. -/
  writes : Nat := 0
  deriving Repr, DecidableEq

namespace RelayOutput

/-- A line that has just been taken rests at its inactive level. -/
def resting (inverted : Bool) : RelayOutput := { inverted, level := inverted }

def isActive (r : RelayOutput) : Bool := r.level != r.inverted

def drive (r : RelayOutput) (active : Bool) : RelayOutput :=
  { r with level := active != r.inverted, writes := r.writes + 1 }

@[simp]
theorem isActive_drive (r : RelayOutput) (active : Bool) : (r.drive active).isActive = active := by
  cases r; cases active <;> simp [drive, isActive]

@[simp]
theorem isActive_resting (inverted : Bool) : (resting inverted).isActive = false := by
  simp [resting, isActive]

end RelayOutput

def readsActive (level inverted : Bool) : Bool := level != inverted

end RelayTimer
