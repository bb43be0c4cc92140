import RelayTimer.Board

set_option autoImplicit false

/-!
Playing a program step by step. The player never waits: after a step it asks for a timer, and the
end of that time comes back as an event. Every time that is asked for belongs to an epoch of its
own, and a pause begins a new one, so that an end of time that is already on its way is not acted
on. A looping step publishes an event for the epoch it is in and leaves the next step to that.
-/
namespace RelayTimer

/-- What a player asks of its timer: to report after a time in the name of an epoch, in place of
what it was to report, or to report nothing. -/
inductive TimerRequest
  | start (durationMs epoch : UInt32)
  | stop
  deriving Repr, DecidableEq

/-- Whether a program is played: not begun or ended, being played, or paused. -/
inductive Playback
  | idle
  | running
  | paused
  deriving Repr, DecidableEq

structure Player where
  /-- The program being played, a copy of the board's. -/
  program : Program := Program.empty
  playback : Playback := .idle
  epoch : UInt32 := 0
  /-- The time that was left when the program was paused. -/
  timeLeftMs : UInt32 := 0

structure Played where
  player : Player
  board : Board
  request : Option TimerRequest := none

namespace Player

def intentOf : StepKind → Option Intent
  | .opens => some .opened
  | .closes => some .closed
  | .waits | .loops => none

/-- One more loop. The counter stays at the largest number. -/
def countLoop (counter : Option UInt32) : UInt32 :=
  let n := counter.getD 0
  if n.toNat + 1 < UInt32.size then n + 1 else n

def act (b : Board) (kind : StepKind) : Board :=
  match intentOf kind with
  | some intent => b.driveContact intent
  | none => b

/-- Plays the next step. Past the last one the program has ended. -/
def playNext (p : Player) (b : Board) : Played :=
  match p.program.next? with
  | none => { player := { p with playback := .idle }, board := b.publish .ended }
  | some (step, program) =>
    if step.kind = .loops then
      let b := (b.setCounter (some (countLoop b.counter))).publish .counterChanged
      { player := { p with program := program.rewind }, board := b.publish (.elapsed p.epoch) }
    else
      let epoch := p.epoch + 1
      { player := { p with program, epoch }
        board := act b step.kind
        request := some (.start step.delayMs epoch) }

def restart (p : Player) (b : Board) : Played :=
  let b := (b.setCounter (some 0)).publish .counterChanged
  { p with program := b.program.rewind, timeLeftMs := 0, playback := .running }.playNext b

/-- Goes on where the program was paused. A program that is running goes on as it does, and one
that is not there is reported as ended. -/
def resume (p : Player) (b : Board) : Played :=
  match p.playback with
  | .running => { player := p, board := b }
  | .idle => { player := p, board := b.publish .ended }
  | .paused =>
    let p : Player := { p with playback := .running }
    if p.timeLeftMs = 0 then p.playNext b
    else
      { player := { p with timeLeftMs := 0 }
        board := b
        request := some (.start p.timeLeftMs p.epoch) }

def pause (p : Player) (b : Board) (remainingMs : UInt32) : Played :=
  match p.playback with
  | .running =>
    { player := { p with playback := .paused, timeLeftMs := remainingMs, epoch := p.epoch + 1 }
      board := b
      request := some .stop }
  | .idle | .paused => { player := p, board := b }

def handle (p : Player) (b : Board) (remainingMs : UInt32) (e : Event) : Played :=
  match e with
  | .start true => p.restart b
  | .start false => p.resume b
  | .stop => p.pause b remainingMs
  | .elapsed epoch => if epoch = p.epoch then p.playNext b else { player := p, board := b }
  | _ => { player := p, board := b }

end Player

end RelayTimer
