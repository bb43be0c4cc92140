import RelayTimer.Pin.Line

set_option autoImplicit false

/-!
The pins of the chip, handed out by number, each at most once.
-/
namespace RelayTimer

def pinCount : Nat := 30

/-- The pins that carry the console and are never handed out. -/
def consolePins : List Nat := [0, 1]

inductive PinError
  | invalidPin
  | alreadyTaken
  | reserved
  deriving Repr, DecidableEq

structure PinBank where
  taken : List Nat := []
  deriving Repr, DecidableEq

namespace PinBank

def isAvailable (bank : PinBank) (gpio : Nat) : Bool :=
  gpio < pinCount && !consolePins.contains gpio && !bank.taken.contains gpio

def take (bank : PinBank) (gpio : Nat) : Except PinError PinBank :=
  if pinCount ≤ gpio then .error .invalidPin
  else if consolePins.contains gpio then .error .reserved
  else if bank.taken.contains gpio then .error .alreadyTaken
  else .ok { taken := gpio :: bank.taken }

theorem isAvailable_iff (bank : PinBank) (gpio : Nat) :
    bank.isAvailable gpio = true ↔ ∃ after, bank.take gpio = .ok after := by
  unfold isAvailable take
  by_cases large : pinCount ≤ gpio
  · simp [large, Nat.not_lt.2 large]
  · by_cases reserved : consolePins.contains gpio <;>
      by_cases taken : bank.taken.contains gpio <;>
      simp only [large, reserved, taken] <;> simp
    omega

end PinBank

structure PinBoard where
  bank : PinBank := {}
  /-- The pins whose level is high. -/
  high : List Nat := []
  /-- Pin and polarity of each relay. -/
  relays : List (Nat × Bool) := []
  /-- Pin and polarity of each input. -/
  inputs : List (Nat × Bool) := []
  deriving Repr, DecidableEq

namespace PinBoard

def level (board : PinBoard) (gpio : Nat) : Bool := board.high.contains gpio

def setLevel (board : PinBoard) (gpio : Nat) (level : Bool) : PinBoard :=
  let others := board.high.filter (· ≠ gpio)
  { board with high := if level then gpio :: others else others }

/-- Sets up a relay, which is at rest at first. -/
def addRelay (board : PinBoard) (gpio : Nat) (inverted : Bool) : Except PinError PinBoard := do
  let bank ← board.bank.take gpio
  let board := { board with bank, relays := board.relays ++ [(gpio, inverted)] }
  return board.setLevel gpio (RelayOutput.resting inverted).level

def addInput (board : PinBoard) (gpio : Nat) (inverted : Bool) : Except PinError PinBoard := do
  let bank ← board.bank.take gpio
  return { board with bank, inputs := board.inputs ++ [(gpio, inverted)] }

def relay? (board : PinBoard) (n : Nat) : Option RelayOutput :=
  board.relays[n]?.map fun (gpio, inverted) => { inverted, level := board.level gpio }

def driveRelay (board : PinBoard) (n : Nat) (active : Bool) : PinBoard :=
  match board.relays[n]?, board.relay? n with
  | some (gpio, _), some relay => board.setLevel gpio (relay.drive active).level
  | _, _ => board

def input? (board : PinBoard) (n : Nat) : Option Bool :=
  board.inputs[n]?.map fun (gpio, inverted) => readsActive (board.level gpio) inverted

def highPins (board : PinBoard) : List Nat := (List.range pinCount).filter board.level

end PinBoard

end RelayTimer
