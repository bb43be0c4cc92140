import RelayTimer.Console
import RelayTimer.Firmware.LineEditor
import RelayTimer.Firmware.Log
import RelayTimer.Flash.Store
import RelayTimer.Player

set_option autoImplicit false

/-!
The firmware between two moments: the board's hardware, the tasks, and what the tasks have to say
to each other. Events reach the player and the display through queues of a fixed length, and what
does not fit is dropped. The timer and the contact are told through cells that keep only the last
thing put there.
-/
namespace RelayTimer

inductive Received
  | byte (b : UInt8)
  /-- Bytes were lost. -/
  | overrun
  deriving Repr, DecidableEq

inductive TimerCommand
  | start (deadline : Nat) (epoch : UInt32)
  | stop
  deriving Repr, DecidableEq

inductive TimerTask
  | idle
  /-- Waiting for a moment. -/
  | armed (deadline : Nat) (epoch : UInt32)
  /-- Waiting for room in the player's queue. -/
  | posting (epoch : UInt32)
  deriving Repr, DecidableEq

/-- Looks at the wiring at a fixed rate. -/
structure Sampler where
  nextMs : Nat
  periodMs : Nat
  /-- The wiring reported last. -/
  reported : Option Wiring := none
  deriving Repr, DecidableEq

structure HealthTask where
  nextMs : Nat
  periodMs : Nat
  /-- Whether the player has been asked at all. -/
  asked : Bool := false
  deriving Repr, DecidableEq

/-- The display: it shows its first screen until a moment and follows the events then. -/
inductive Display
  | splash (untilMs : Nat)
  | following
  deriving Repr, DecidableEq

/-- The levels on the two pins that sense the wiring. -/
structure Jumper where
  noLevel : Bool := true
  ncLevel : Bool := true
  deriving Repr, DecidableEq

structure Firmware where
  config : BoardConfig
  jumper : Jumper
  engine : Engine FlashStore
  /-- Milliseconds since the power came on. -/
  now : Nat := 0
  /-- What has arrived and has not been read. -/
  received : List Received := []
  /-- What has been sent since it was last looked at. -/
  sent : String := ""
  /-- What has been reported since it was last looked at, the last line first. -/
  log : List LogLine := []
  playerQueue : List Event := []
  displayQueue : List Event := []
  timerCommand : Option TimerCommand := none
  /-- The wiring that the contact is to be told of. -/
  wiring : Option Wiring := none
  /-- Whether the player has given a sign of life since that was last looked at. -/
  alive : Bool := false
  timer : TimerTask := .idle
  player : Player := {}
  /-- When the time is over that the player asked for last. -/
  deadline : Option Nat := none
  sampler : Sampler
  console : Console := {}
  editor : LineEditor := {}
  health : HealthTask
  display : Display

namespace Firmware

def playerQueueSize : Nat := 32

def displayQueueSize : Nat := 16

def report (f : Firmware) (level : LogLevel) (text : String) : Firmware :=
  { f with log := ⟨level, text⟩ :: f.log }

def send (f : Firmware) (text : String) : Firmware := { f with sent := f.sent ++ text }

/-- Queues an event for whom it concerns, or drops it with a warning. -/
def route (f : Firmware) (e : Event) : Firmware :=
  if e.isForPlayer then
    if f.playerQueue.length < playerQueueSize then { f with playerQueue := f.playerQueue ++ [e] }
    else f.report .warn ("Sequencer channel full, dropping " ++ Log.event e)
  else if f.displayQueue.length < displayQueueSize then
    { f with displayQueue := f.displayQueue ++ [e] }
  else f.report .warn ("UI channel full, dropping " ++ Log.event e)

def deliver (f : Firmware) : Firmware :=
  let published := f.engine.board.published
  published.foldl route
    { f with engine := f.engine.onBoard fun b => { b with published := [] } }

def onEngine {α : Type} (step : StateM (Engine FlashStore) α) (f : Firmware) : α × Firmware :=
  let (a, engine) := step f.engine
  (a, { f with engine }.deliver)

def onBoard (change : Board → Board) (f : Firmware) : Firmware :=
  { f with engine := f.engine.onBoard change }.deliver

end Firmware

end RelayTimer
