import RelayTimer.Session

set_option autoImplicit false

/-!
A player with its board, its timer and the events on their way to it, under everything that can
happen to them: commands, the passing of time, the end of a wait, the delivery of an event. What
an event does to a player is said once, in `Player.Handled`.
-/
namespace RelayTimer

namespace Program

/-- The program has a first step, and that step does something of its own. -/
def Playable (p : Program) : Prop := ∃ step ∈ p.steps.head?, step.kind ≠ .loops

theorem Playable.next? {p : Program} (playable : p.Playable) :
    ∃ step, p.rewind.next? = some (step, { p with cursor := 1 }) ∧ step.kind ≠ .loops := by
  obtain ⟨step, first, kind⟩ := playable
  refine ⟨step, ?_, kind⟩
  have here : p.steps[0]? = some step := by rw [← List.head?_eq_getElem?]; exact first
  simp [Program.next?, rewind, here]

end Program

namespace Player

/-- The situations in which an event makes a player play its next step: who plays, and on which
board. -/
inductive Advances (p : Player) (b : Board) : Event → Player → Board → Prop
  | restart : Advances p b (.start true)
      { p with program := b.program.rewind, timeLeftMs := 0, playback := .running }
      ((b.setCounter (some 0)).publish .counterChanged)
  | resume (paused : p.playback = .paused) (nothing : p.timeLeftMs = 0) :
      Advances p b (.start false) { p with playback := .running } b
  | elapsed : Advances p b (.elapsed p.epoch) p b

/-- All that an event can do to a player. -/
inductive Handled (p : Player) (b : Board) (remainingMs : UInt32) (e : Event) : Played → Prop
  | advanced {own : Player} {board : Board} (advance : Advances p b e own board) :
      Handled p b remainingMs e (own.playNext board)
  | rearmed (command : e = .start false) (paused : p.playback = .paused)
      (left : p.timeLeftMs ≠ 0) :
      Handled p b remainingMs e
        { player := { p with playback := .running, timeLeftMs := 0 }, board := b
          request := some (.start p.timeLeftMs p.epoch) }
  | paused (command : e = .stop) (running : p.playback = .running) :
      Handled p b remainingMs e
        { player := { p with
            playback := .paused, timeLeftMs := remainingMs, epoch := p.epoch + 1 }
          board := b, request := some .stop }
  | refused (command : e = .start false) (idle : p.playback = .idle) :
      Handled p b remainingMs e { player := p, board := b.publish .ended }
  | ignored (stale : e ≠ .elapsed p.epoch) (other : e ≠ .start true) :
      Handled p b remainingMs e { player := p, board := b }

theorem handle_handled (p : Player) (b : Board) (remainingMs : UInt32) (e : Event) :
    Handled p b remainingMs e (p.handle b remainingMs e) := by
  unfold handle
  split
  · exact .advanced .restart
  · unfold resume
    split
    · exact .ignored (by simp) (by simp)
    · rename_i idle
      exact .refused rfl idle
    · rename_i paused
      dsimp only
      split
      · rename_i nothing
        exact .advanced (.resume paused nothing)
      · rename_i left
        exact .rearmed rfl paused left
  · unfold pause
    split
    · rename_i running
      exact .paused rfl running
    · exact .ignored (by simp) (by simp)
    · exact .ignored (by simp) (by simp)
  · split
    · rename_i current
      subst current
      exact .advanced .elapsed
    · rename_i stale
      exact .ignored (by simpa using stale) (by simp)
  · rename_i notRestart _ _ notElapsed
    exact .ignored (fun same => notElapsed _ same) notRestart

theorem playNext_ended {p : Player} {b : Board} (past : p.program.next? = none) :
    p.playNext b = { player := { p with playback := .idle }, board := b.publish .ended } := by
  simp only [playNext, past]

theorem playNext_looped {p : Player} {b : Board} {step : Step} {program : Program}
    (here : p.program.next? = some (step, program)) (loops : step.kind = .loops) :
    p.playNext b = {
      player := { p with program := program.rewind }
      board := (((b.setCounter (some (countLoop b.counter))).publish .counterChanged).publish
        (.elapsed p.epoch)) } := by
  simp only [playNext, here, loops, ↓reduceIte]

theorem playNext_stepped {p : Player} {b : Board} {step : Step} {program : Program}
    (here : p.program.next? = some (step, program)) (acts : step.kind ≠ .loops) :
    p.playNext b = {
      player := { p with program, epoch := p.epoch + 1 }
      board := act b step.kind
      request := some (.start step.delayMs (p.epoch + 1)) } := by
  simp only [playNext, here, acts, ↓reduceIte]

end Player

/-- An event on its way to the player, and how many epochs have begun since it was posted. -/
structure Message where
  event : Event
  age : Nat := 0
  deriving Repr, DecidableEq

/-- A player with all that it plays with. -/
structure Deck where
  player : Player := {}
  board : Board
  timer : Countdown := {}
  /-- The events on their way to the player, the one posted first at the front. -/
  mail : List Message := []
  /-- All events published so far, the last one first. -/
  log : List Event := []

/-- What can happen to a deck. -/
inductive Action
  /-- A command is posted behind all that is on its way. -/
  | post (command : Event)
  /-- A command is acted on ahead of all that is on its way. -/
  | jump (command : Event)
  /-- The event posted first is acted on. -/
  | deliver
  /-- The wait of the timer ends, and the player is posted its end. -/
  | expire
  /-- The wait of the timer ends, and the player acts on it ahead of all that is on its way. -/
  | strike
  | wait (ms : UInt32)
  /-- Others do something to the board. -/
  | change (board : Board)

namespace Deck

/-- The mail once the player has gone from one epoch to another. -/
def aged (mail : List Message) (before after : UInt32) : List Message :=
  if after = before then mail else mail.map fun m => { m with age := m.age + 1 }

/-- The deck once the player has done something: the timer does what it is asked for, and the
events that are published for the player are posted. -/
def absorb (d : Deck) (played : Played) : Deck :=
  let published := played.board.published
  { player := played.player
    board := { played.board with published := [] }
    timer := match played.request with
      | some request => d.timer.apply request
      | none => d.timer
    mail := aged d.mail d.player.epoch played.player.epoch ++
      (published.filter Event.isForPlayer).map fun event => { event }
    log := published.reverse ++ d.log }

/-- Has the player act on an event. -/
def handle (d : Deck) (e : Event) : Deck :=
  d.absorb (d.player.handle d.board d.timer.remaining e)

/-- The event that the player acts on when something happens to its deck. -/
def handled? (d : Deck) : Action → Option Event
  | .jump command => some command
  | .deliver => d.mail.head?.map (·.event)
  | .strike => d.timer.armed.map fun a => .elapsed a.epoch
  | .post _ | .expire | .wait _ | .change _ => none

/-- The deck just before its player acts on an event, if it does. -/
def prepared (d : Deck) : Action → Deck
  | .post command => { d with mail := d.mail ++ [{ event := command }] }
  | .jump _ => d
  | .deliver => { d with mail := d.mail.tail }
  | .expire =>
    let (armed, timer) := d.timer.fire
    let ends := armed.toList.map fun a => { event := .elapsed a.epoch }
    { d with timer, mail := d.mail ++ ends }
  | .strike => { d with timer := d.timer.fire.2 }
  | .wait ms => { d with timer := d.timer.advance ms }
  | .change board => { d with board := { board with published := [] } }

def act (d : Deck) (a : Action) : Deck :=
  match d.handled? a with
  | some e => (d.prepared a).handle e
  | none => d.prepared a

/-- What is on its way to the player or will be: the end of the timer's wait, and the mail. -/
def inFlight (d : Deck) : List Event :=
  (d.timer.armed.toList.map fun a => .elapsed a.epoch) ++ d.mail.map (·.event)

/-- How many of the events in flight are ends of a time in the epoch that the player is in. -/
def live (d : Deck) : Nat := d.inFlight.count (.elapsed d.player.epoch)

/-- No event is on its way for a whole round of the epochs. -/
def Fresh (d : Deck) : Prop := ∀ m ∈ d.mail, m.age < UInt32.size

instance (d : Deck) : Decidable d.Fresh :=
  inferInstanceAs (Decidable (∀ m ∈ d.mail, m.age < UInt32.size))

/-- What others may bring about: they command what is no end of a time, and a program that is
started is one that can be played. -/
structure Admits (d : Deck) (a : Action) : Prop where
  command : ∀ epoch, a ≠ .post (.elapsed epoch) ∧ a ≠ .jump (.elapsed epoch)
  playable : d.handled? a = some (.start true) → d.board.program.Playable
  fresh : (d.act a).Fresh

/-- The decks that come of a new player. -/
inductive Reachable : Deck → Prop
  | new (board : Board) (quiet : board.published = []) : Reachable { board }
  | act {d : Deck} (before : Reachable d) (a : Action) (admits : d.Admits a) : Reachable (d.act a)

end Deck

end RelayTimer
