import RelayTimer.Proofs.TaskTurns

set_option autoImplicit false

/-!
The timer task and the player under everything that other tasks can do beside them: they publish
events at any time, so that the player's queue may be full, and time passes. The end of a wait may
stand in the cell of the timer's commands, in the timer task or in the queue. A clockwork is a board
with what its timer has been told and has posted so far.
-/
namespace RelayTimer

namespace Firmware

/-- What the player posts finds room, since the queue has just become shorter. -/
theorem queue_handleEvent {f : Firmware} (quiet : f.engine.board.published = []) (e : Event)
    (room : f.playerQueue.length < playerQueueSize) : (f.handleEvent e).playerQueue =
      f.playerQueue ++ (f.played e).board.published.filter Event.isForPlayer := by
  apply (f.acted_handleEvent e).joins.all
  have few : ((f.played e).board.published.filter Event.isForPlayer).length ≤ 1 := by
    rcases f.player.posted_handle quiet f.remainingMs e with none | one
    · exact Nat.le_trans (Nat.le_of_eq (congrArg List.length none)) (Nat.zero_le 1)
    · exact Nat.le_of_eq (congrArg List.length one)
  omega

/-- What other tasks can do: they publish events that are no ends of a time, which join the queue as
far as there is room, they change all that is theirs, and time passes. -/
structure Others (f after : Firmware) : Prop where
  timer : after.timer = f.timer
  timerCommand : after.timerCommand = f.timerCommand
  player : after.player = f.player
  deadline : after.deadline = f.deadline
  now : f.now ≤ after.now
  quiet : after.engine.board.published = []
  queue : ∃ joined, after.playerQueue = f.playerQueue ++ joined ∧
    ∀ e ∈ joined, ∀ n, e ≠ .elapsed n
  bounded : f.playerQueue.length ≤ playerQueueSize → after.playerQueue.length ≤ playerQueueSize

theorem Beside.others {f after : Firmware} {loaded : Option Program} {owning : Bool}
    (beside : f.Beside after loaded owning) : f.Others after := by
  obtain ⟨joined, queue, unposted⟩ := beside.queue
  exact ⟨beside.timer, beside.timerCommand, beside.player, beside.deadline, beside.now, beside.quiet,
    ⟨joined, queue, fun e member => (unposted e member).1⟩, beside.bounded⟩

/-- A board whose player and timer have not begun. -/
structure New (f : Firmware) : Prop where
  quiet : f.engine.board.published = []
  timer : f.timer = .idle
  timerCommand : f.timerCommand = none
  player : f.player = {}
  queue : f.playerQueue = []

/-- The end of the wait that the timer is to be told of, if one waits in the cell of commands. -/
def told (f : Firmware) : List UInt32 :=
  match f.timerCommand with
  | some (.start _ epoch) => [epoch]
  | some .stop | none => []

/-- The end of the wait that the timer task is at, or that it cannot post for want of room. -/
def heldUp (f : Firmware) : List UInt32 :=
  match f.timer with
  | .idle => []
  | .armed _ epoch | .posting epoch => [epoch]

/-- All that is on its way to the player or will be. -/
def onTheWay (f : Firmware) : List Event :=
  f.playerQueue ++ f.told.map .elapsed ++ f.heldUp.map .elapsed

end Firmware

/-- The end of a wait, as it is posted. -/
structure Post where
  /-- Which of the commands it answers. -/
  command : Option Nat
  event : Event
  time : Nat
  deriving DecidableEq

/-- A board, and what its timer has been told and has done so far. -/
structure Clockwork where
  board : Firmware
  /-- What waits for the player, and how many epochs have begun since it was armed or posted. -/
  mail : List Message := []
  /-- All that the player has asked its timer for, the first request first. -/
  commands : List TimerCommand := []
  /-- Which of them the timer task serves. -/
  serving : Option Nat := none
  /-- How many epochs have begun since it was taken. -/
  age : Nat := 0
  /-- All that the timer has posted. -/
  posts : List Post := []

namespace Clockwork

open Firmware (playerQueueSize)

/-- What is new at the end of the queue. -/
def joined (before after : Firmware) : List Event :=
  after.playerQueue.drop before.playerQueue.length

/-- The timer has run: what it has posted has joined the queue, and it may serve another command. -/
def ran (c : Clockwork) (after : Firmware) : Clockwork :=
  let posted := joined c.board after
  let takes := c.board.timerCommand.isSome && after.timerCommand.isNone
  { board := after
    mail := c.mail ++ posted.map fun event => { event, age := c.age }
    commands := c.commands
    serving := match after.timer with
      | .idle => none
      | _ => if takes then some (c.commands.length - 1) else c.serving
    age := if takes then 0 else c.age
    posts := c.posts ++ posted.map fun event => { command := c.serving, event, time := c.board.now } }

/-- The timer's turn. -/
def runTimer (c : Clockwork) : Clockwork := c.ran c.board.runTimer

/-- The player has acted on an event that it has taken from its queue. -/
def acted (c : Clockwork) (ready : Firmware) (e : Event) : Clockwork :=
  let after := ready.handleEvent e
  let asks := (ready.played e).request.map ready.commandFor
  { c with
    board := after
    mail := Deck.aged c.mail.tail ready.player.epoch after.player.epoch ++
      (joined ready after).map fun event => { event }
    commands := c.commands ++ asks.toList
    age := if after.player.epoch = ready.player.epoch then c.age else c.age + 1 }

/-- The player's turn: it acts on the event queued first. -/
def act (c : Clockwork) : Clockwork :=
  match c.board.playerQueue with
  | [] => c
  | e :: rest => c.acted { c.board with playerQueue := rest } e

/-- Others have done something. -/
def beside (c : Clockwork) (after : Firmware) : Clockwork :=
  { c with
    board := after
    mail := c.mail ++ (joined c.board after).map fun event => { event } }

/-- One turn comes after another, in any order. Not every turn of the player may be admitted. -/
inductive Becomes (admits : Clockwork → Prop) (c : Clockwork) : Clockwork → Prop
  | refl : Becomes admits c c
  | timer {u : Clockwork} (before : Becomes admits c u) : Becomes admits c u.runTimer
  | player {u : Clockwork} (before : Becomes admits c u) (admitted : admits u) :
      Becomes admits c u.act
  | others {u : Clockwork} {after : Firmware} (before : Becomes admits c u)
      (others : u.board.Others after) : Becomes admits c (u.beside after)

variable {c : Clockwork}

theorem joined_eq {before after : Firmware} {events : List Event}
    (queue : after.playerQueue = before.playerQueue ++ events) : joined before after = events := by
  rw [joined, queue]
  exact List.drop_left

/-! ## The timer's turn -/

/-- The timer takes the command that waits for it, if one does. -/
def taken (c : Clockwork) : Clockwork :=
  let after := c.board.takeCommand
  { c with
    board := after
    serving := match after.timer with
      | .idle => none
      | _ => if c.board.timerCommand.isSome then some (c.commands.length - 1) else c.serving
    age := if c.board.timerCommand.isSome then 0 else c.age }

/-- The timer posts the end of the wait that it serves. -/
def posted (c : Clockwork) (epoch : UInt32) : Clockwork :=
  { c with
    board := { c.board with
      playerQueue := c.board.playerQueue ++ [.elapsed epoch], timer := .idle }
    mail := c.mail ++ [{ event := .elapsed epoch, age := c.age }]
    serving := none
    posts := c.posts ++
      [{ command := c.serving, event := .elapsed epoch, time := c.board.now }] }

/-- The timer finds no room for it. -/
def blocked (c : Clockwork) (epoch : UInt32) : Clockwork :=
  { c with board := { c.board with timer := .posting epoch } }

/-- All that the timer does in its turn. -/
inductive Served (c : Clockwork) : Clockwork → Prop
  | takes (unexpired : c.board.due? = none) : Served c c.taken
  | posts {epoch : UInt32} (due : c.board.due? = some epoch)
      (room : c.board.playerQueue.length < playerQueueSize) : Served c (c.posted epoch).taken
  | blocks {epoch : UInt32} (due : c.board.due? = some epoch)
      (full : ¬ c.board.playerQueue.length < playerQueueSize) : Served c (c.blocked epoch)

/-- The timer has taken a command exactly if one was there, since it leaves none. -/
theorem takes_takeCommand (f : Firmware) :
    (f.timerCommand.isSome && f.takeCommand.timerCommand.isNone) = f.timerCommand.isSome := by
  rw [Firmware.takeCommand_eq]
  exact Bool.and_true _

theorem served_runTimer (c : Clockwork) : c.Served c.runTimer := by
  have ran := c.board.ran_runTimer
  unfold Clockwork.runTimer
  generalize c.board.runTimer = after at ran
  cases ran with
  | takes unexpired =>
      have still : joined c.board c.board.takeCommand = [] :=
        joined_eq (by rw [Firmware.takeCommand_eq, List.append_nil])
      have same : c.ran c.board.takeCommand = c.taken := by
        unfold ran taken
        simp only [still, takes_takeCommand, List.map_nil, List.append_nil]
      rw [same]
      exact .takes unexpired
  | @posts epoch due room =>
      let free : Firmware := { c.board with
        playerQueue := c.board.playerQueue ++ [.elapsed epoch], timer := .idle }
      have posts : joined c.board free.takeCommand = [.elapsed epoch] :=
        joined_eq (by rw [Firmware.takeCommand_eq])
      have takes : (c.board.timerCommand.isSome && free.takeCommand.timerCommand.isNone) =
          c.board.timerCommand.isSome := takes_takeCommand free
      -- Where no command waits, the timer is idle, so it does not matter what it has served.
      have serves : c.board.timerCommand.isSome = false → free.takeCommand.timer = .idle := by
        intro silent
        have uncommanded : free.timerCommand = none := Option.isNone_iff_eq_none.mp (by simpa using silent)
        rw [Firmware.takeCommand_eq, uncommanded]
        rfl
      have same : c.ran free.takeCommand = (c.posted epoch).taken := by
        unfold ran taken posted
        simp only [posts, takes, List.map_cons, List.map_nil]
        cases silent : c.board.timerCommand.isSome with
        | false => simp only [free, serves silent]
        | true => rfl
      rw [same]
      exact .posts due room
  | @blocks epoch due full =>
      have still : joined c.board { c.board with timer := .posting epoch } = [] :=
        joined_eq (List.append_nil _).symm
      have waits : (c.board.timerCommand.isSome && c.board.timerCommand.isNone) = false := by
        cases c.board.timerCommand <;> rfl
      have same : c.ran { c.board with timer := .posting epoch } = c.blocked epoch := by
        unfold ran blocked
        simp only [still, waits, List.map_nil, List.append_nil, Bool.false_eq_true, ↓reduceIte]
      rw [same]
      exact .blocks due full

/-! ## The player's turn -/

theorem acted_eq (c : Clockwork) {ready : Firmware} {e : Event} {posted : List Event}
    (queue : (ready.handleEvent e).playerQueue = ready.playerQueue ++ posted) :
    c.acted ready e = { c with
      board := ready.handleEvent e
      mail := Deck.aged c.mail.tail ready.player.epoch (ready.played e).player.epoch ++
        posted.map fun event => { event }
      commands := c.commands ++ ((ready.played e).request.map ready.commandFor).toList
      age := if (ready.played e).player.epoch = ready.player.epoch then c.age else c.age + 1 } := by
  unfold acted
  dsimp only
  rw [joined_eq queue, (ready.acted_handleEvent e).player]

end Clockwork

end RelayTimer
