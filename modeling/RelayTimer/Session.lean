import RelayTimer.Console
import RelayTimer.Countdown

set_option autoImplicit false

/-!
An engine with a player, a timer and a console: the events for the player go through a queue, which
is emptied on demand.
-/
namespace RelayTimer

structure Session (σ : Type) where
  engine : Engine σ
  player : Player := {}
  timer : Countdown := {}
  console : Console := {}
  /-- The events that wait for the player, the first one first. -/
  queue : List Event := []
  /-- All events published since they were last looked at, the last one first. -/
  log : List Event := []

namespace Session

variable {σ : Type}

/-- Takes the published events from the board: all are noted, and those for the player queued. -/
def collect (s : Session σ) : Session σ :=
  let published := s.engine.board.published
  { s with
    engine := s.engine.onBoard fun b => { b with published := [] }
    queue := s.queue ++ published.filter Event.isForPlayer
    log := published.reverse ++ s.log }

def handle (s : Session σ) (e : Event) : Session σ :=
  let played := s.player.handle s.engine.board s.timer.remaining e
  let timer := match played.request with
    | some request => s.timer.apply request
    | none => s.timer
  { s with player := played.player, timer, engine := s.engine.onBoard fun _ => played.board }.collect

def pump (limit : Nat) (s : Session σ) : Session σ :=
  match limit, s.queue with
  | n + 1, e :: rest => pump n ({ s with queue := rest }.handle e)
  | _, _ => s

def pumpLimit : Nat := 40

/-- Ends the wait of the timer, if it waits, and tells the player so. -/
def fire (s : Session σ) : Bool × Session σ :=
  let (armed, timer) := s.timer.fire
  let s := { s with timer }
  match armed with
  | some a => (true, s.handle (.elapsed a.epoch))
  | none => (false, s)

structure Beat where
  isOpen : Bool
  counter : Option UInt32
  armedMs : Option UInt32
  deriving Repr, DecidableEq

def beat (s : Session σ) : Beat :=
  { isOpen := s.engine.board.contact.isOpen, counter := s.engine.board.counter
    armedMs := s.timer.armed.map (·.durationMs) }

def run : Nat → Session σ → List Beat × Session σ
  | 0, s => ([], s)
  | n + 1, s =>
    match s.fire with
    | (false, s) => ([], s)
    | (true, s) =>
      let s := s.pump pumpLimit
      let (beats, after) := run n s
      (s.beat :: beats, after)

def onEngine {α : Type} (step : StateM (Engine σ) α) (s : Session σ) : α × Session σ :=
  let (a, engine) := step s.engine
  (a, { s with engine }.collect)

def onBoard (change : Board → Board) (s : Session σ) : Session σ :=
  { s with engine := s.engine.onBoard change }.collect

variable [ByteStore σ]

def ofStore (store : σ) (relay : RelayOutput) : Session σ :=
  { engine := Engine.ofStore store relay }

def processLine (line : String) (room : Option Nat) (s : Session σ) :
    Except OutputError String × Session σ :=
  let desk : Desk σ := { console := s.console, engine := s.engine, output := { room } }
  let (result, desk) := (Desk.process line).run desk
  (result.map fun _ => desk.output.text,
    { s with console := desk.console, engine := desk.engine }.collect)

end Session

end RelayTimer
