import RelayTimer.Program.Printer

set_option autoImplicit false

/-!
The manual program as four numbers: for how many minutes and seconds the contact is closed, and
for how many it is open.
-/
namespace RelayTimer

/-- One of the four numbers, in the order in which they are edited. -/
inductive ManualField
  | onMinutes
  | onSeconds
  | offMinutes
  | offSeconds
  deriving Repr, DecidableEq

namespace ManualField

def next? : ManualField → Option ManualField
  | onMinutes => some onSeconds
  | onSeconds => some offMinutes
  | offMinutes => some offSeconds
  | offSeconds => none

def limit : ManualField → Nat
  | onMinutes | offMinutes => 99
  | onSeconds | offSeconds => 59

end ManualField

/-- How long the contact is closed (on) and how long it is open (off). -/
structure ManualTimes where
  onMinutes : Nat := 1
  onSeconds : Nat := 0
  offMinutes : Nat := 0
  offSeconds : Nat := 5
  deriving Repr, DecidableEq

namespace ManualTimes

def get (m : ManualTimes) : ManualField → Nat
  | .onMinutes => m.onMinutes
  | .onSeconds => m.onSeconds
  | .offMinutes => m.offMinutes
  | .offSeconds => m.offSeconds

def set (m : ManualTimes) (field : ManualField) (value : Nat) : ManualTimes :=
  match field with
  | .onMinutes => { m with onMinutes := value }
  | .onSeconds => { m with onSeconds := value }
  | .offMinutes => { m with offMinutes := value }
  | .offSeconds => { m with offSeconds := value }

def increment (m : ManualTimes) (field : ManualField) : ManualTimes :=
  if m.get field < field.limit then m.set field (m.get field + 1) else m

def decrement (m : ManualTimes) (field : ManualField) : ManualTimes :=
  m.set field (m.get field - 1)

/-- Whole minutes and seconds of a time. Past the largest number of minutes the minutes stay there
and the seconds go on. -/
def minutesSeconds (delayMs : UInt32) : Nat × Nat :=
  let seconds := delayMs.toNat / msPerSecond
  (min (seconds / 60) (ManualField.limit .onMinutes), seconds % 60)

/-- The times of a program that closes the contact first and opens it next. -/
def ofProgram? (p : Program) : Option ManualTimes :=
  match p.steps with
  | ⟨.closes, on⟩ :: ⟨.opens, off⟩ :: _ =>
    let (onMinutes, onSeconds) := minutesSeconds on
    let (offMinutes, offSeconds) := minutesSeconds off
    some { onMinutes, onSeconds, offMinutes, offSeconds }
  | _ => none

def twoDigits (n : Nat) : List Char := if n < 10 then '0' :: decimal n else decimal n

def chars (m : ManualTimes) : List Char :=
  "c ".toList ++ twoDigits m.onMinutes ++ "M ".toList ++ twoDigits m.onSeconds ++
    "s o ".toList ++ twoDigits m.offMinutes ++ "M ".toList ++ twoDigits m.offSeconds ++
    "s *".toList

/-- The times as a program in the language of the console, such as `c 01M 00s o 00M 05s *`. -/
def text (m : ManualTimes) : String := String.ofList m.chars

end ManualTimes

end RelayTimer
