import RelayTimer.Program.Basic

set_option autoImplicit false

/-!
Programs as text, in the language of the console: `c 1M o 5s *` closes the contact for a minute,
opens it for five seconds, and starts over.
-/
namespace RelayTimer

def decimal (n : Nat) : List Char := Nat.toDigits 10 n

/-- A time in the largest unit that gives it exactly. -/
def delayText (delayMs : UInt32) : List Char :=
  let ms := delayMs.toNat
  if ms = 0 then ['0', 's']
  else if ms % msPerHour = 0 then decimal (ms / msPerHour) ++ ['H']
  else if ms % msPerMinute = 0 then decimal (ms / msPerMinute) ++ ['M']
  else if ms % msPerSecond = 0 then decimal (ms / msPerSecond) ++ ['s']
  else decimal ms ++ ['m']

def trailingDelayText (delayMs : UInt32) : List Char :=
  if delayMs = 0 then [] else ' ' :: delayText delayMs

/-- A step: an action is its letter, a waiting step is its time alone. -/
def Step.chars (s : Step) : List Char :=
  match s.kind with
  | .opens => 'o' :: trailingDelayText s.delayMs
  | .closes => 'c' :: trailingDelayText s.delayMs
  | .waits => delayText s.delayMs
  | .loops => ['*']

def Program.chars (p : Program) : List Char := [' '].intercalate (p.steps.map Step.chars)

def Program.text (p : Program) : String := String.ofList p.chars

end RelayTimer
