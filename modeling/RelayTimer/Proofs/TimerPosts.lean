import RelayTimer.Proofs.LiveMessage
import RelayTimer.Proofs.RelayOwner

set_option autoImplicit false

/-!
What becomes of all that the player asks its timer for. The requests are counted, and the ledger is
the list of those that the timer has answered, of the one that it serves, and of the one that waits
in its cell. No request stands in it twice, and the last one stands in it unless it stops the timer.
-/
namespace RelayTimer

/-- A board that has been set up is new. -/
theorem Firmware.Started.new {start : Firmware} (started : start.Started) : start.New := by
  obtain ⟨config, chip, jumper, report, done⟩ := started
  unfold setUp at done
  split at done
  · cases done
  · split at done
    · cases done
    · cases done
      exact ⟨rfl, rfl, rfl, rfl, rfl⟩

namespace Clockwork

open Firmware (playerQueueSize)

variable {c : Clockwork}

/-- The timer task is at the command that it is said to serve. -/
inductive Serves (commands : List TimerCommand) (now : Nat) : TimerTask → Option Nat → Prop
  | idle : Serves commands now .idle none
  | armed {k deadline : Nat} {epoch : UInt32}
      (asked : commands[k]? = some (.start deadline epoch)) :
      Serves commands now (.armed deadline epoch) (some k)
  | posting {k deadline : Nat} {epoch : UInt32}
      (asked : commands[k]? = some (.start deadline epoch)) (past : deadline ≤ now) :
      Serves commands now (.posting epoch) (some k)

/-- A post is the end of a wait that was asked for, and the wait is over. -/
def Answers (commands : List TimerCommand) (post : Post) : Prop :=
  ∃ (k deadline : Nat) (epoch : UInt32), post.command = some k ∧
    commands[k]? = some (.start deadline epoch) ∧ post.event = .elapsed epoch ∧ deadline ≤ post.time

/-- The commands that the timer has answered, in the order of the posts. -/
def answered (c : Clockwork) : List Nat := c.posts.filterMap (·.command)

/-- The command that waits in the timer's cell: the last one, if any does. -/
def waiting (c : Clockwork) : Option Nat :=
  if c.board.timerCommand.isSome then some (c.commands.length - 1) else none

/-- The commands that are not lost. -/
def ledger (c : Clockwork) : List Nat := c.answered ++ c.serving.toList ++ c.waiting.toList

/-- What holds of the posts between two turns. -/
structure Kept (c : Clockwork) : Prop where
  quiet : c.board.engine.board.published = []
  bounded : c.board.playerQueue.length ≤ playerQueueSize
  cell : ∀ command ∈ c.board.timerCommand, ∃ earlier, c.commands = earlier ++ [command]
  serves : Serves c.commands c.board.now c.board.timer c.serving
  answers : ∀ post ∈ c.posts, Answers c.commands post
  ordered : c.ledger.Pairwise (· < ·)
  asked : ∀ k ∈ c.ledger, k < c.commands.length
  last : ∀ earlier deadline epoch, c.commands = earlier ++ [.start deadline epoch] →
    earlier.length ∈ c.ledger

theorem kept_new {f : Firmware} (new : f.New) : Kept { board := f } := by
  have silent : waiting { board := f } = none := by rw [waiting, new.timerCommand]; rfl
  have empty : ledger { board := f } = [] := by rw [ledger, silent]; rfl
  refine ⟨new.quiet, ?_, ?_, ?_, nofun, ?_, ?_, ?_⟩
  · change f.playerQueue.length ≤ _
    rw [new.queue]
    exact Nat.zero_le _
  · rw [new.timerCommand]
    exact nofun
  · rw [new.timer]
    exact .idle
  · rw [empty]
    exact .nil
  · rw [empty]
    exact nofun
  · intro earlier deadline epoch empty
    cases (List.append_eq_nil_iff.mp empty.symm).2

/-! ## More commands, more time -/

theorem Serves.later {commands more : List TimerCommand} {now later : Nat} {task : TimerTask}
    {serving : Option Nat} (serves : Serves commands now task serving) (passes : now ≤ later) :
    Serves (commands ++ more) later task serving := by
  have still {k : Nat} {command : TimerCommand} (asked : commands[k]? = some command) :
      (commands ++ more)[k]? = some command := by
    rw [List.getElem?_append_left (List.getElem?_eq_some_iff.mp asked).1]
    exact asked
  cases serves with
  | idle => exact .idle
  | armed asked => exact .armed (still asked)
  | posting asked past => exact .posting (still asked) (Nat.le_trans past passes)

theorem Answers.later {commands more : List TimerCommand} {post : Post}
    (answers : Answers commands post) : Answers (commands ++ more) post := by
  obtain ⟨k, deadline, epoch, command, asked, event, past⟩ := answers
  refine ⟨k, deadline, epoch, command, ?_, event, past⟩
  rw [List.getElem?_append_left (List.getElem?_eq_some_iff.mp asked).1]
  exact asked

/-- The timer serves the command whose wait is over. -/
theorem Kept.serving_of_due (kept : c.Kept) {epoch : UInt32} (due : c.board.due? = some epoch) :
    ∃ k deadline, c.serving = some k ∧ c.commands[k]? = some (.start deadline epoch) ∧
      deadline ≤ c.board.now := by
  have serves := kept.serves
  unfold Firmware.due? at due
  generalize c.board.timer = task at serves due
  generalize c.serving = serving at serves
  cases serves with
  | idle => cases due
  | @armed k deadline own asked =>
      dsimp only at due
      split at due
      · rename_i past
        cases due
        exact ⟨k, deadline, rfl, asked, past⟩
      · cases due
  | @posting k deadline own asked past =>
      cases due
      exact ⟨k, deadline, rfl, asked, past⟩

/-- A wait that is over and that the timer serves is due. -/
theorem Kept.due_of_serving (kept : c.Kept) {k deadline : Nat} {epoch : UInt32}
    (serving : c.serving = some k) (asked : c.commands[k]? = some (.start deadline epoch))
    (past : deadline ≤ c.board.now) : c.board.due? = some epoch := by
  have serves := kept.serves
  rw [serving] at serves
  unfold Firmware.due?
  generalize c.board.timer = task at serves
  cases serves with
  | armed same =>
      cases asked.symm.trans same
      exact if_pos past
  | posting same =>
      cases asked.symm.trans same
      rfl

/-! ## The timer's turn -/

/-- A timer that is told nothing takes nothing. -/
theorem Kept.taken_of_silent (kept : c.Kept) (silent : c.board.timerCommand = none) :
    c.taken = c := by
  have same : c.board.takeCommand = c.board := by
    unfold Firmware.takeCommand
    rw [silent]
  unfold taken
  rw [same, silent]
  have serves := kept.serves
  obtain ⟨board, mail, commands, serving, age, posts⟩ := c
  dsimp only at serves ⊢
  generalize board.timer = task at serves
  cases serves <;> rfl

/-- The ledger without what waits in the cell. -/
theorem ledger_of_silent (silent : c.board.timerCommand = none) :
    c.ledger = c.answered ++ c.serving.toList := by
  rw [ledger, waiting, silent]
  exact List.append_nil _

/-- The last command waits in the cell, if any does. -/
theorem waiting_last {command : TimerCommand} {earlier : List TimerCommand}
    (waits : c.board.timerCommand = some command) (last : c.commands = earlier ++ [command]) :
    c.waiting = some earlier.length := by
  rw [waiting, waits, last, List.length_append]
  rfl

/-- The command that the timer serves once it has taken one: a timer that is told to stop serves
none. -/
def servedAfter (k : Nat) : TimerCommand → Option Nat
  | .start _ _ => some k
  | .stop => none

theorem taken_told {command : TimerCommand} {earlier : List TimerCommand}
    (waits : c.board.timerCommand = some command) (last : c.commands = earlier ++ [command]) :
    c.taken.board = { c.board with timer := Firmware.timerAfter command, timerCommand := none } ∧
      c.taken.serving = servedAfter earlier.length command := by
  have takes := c.board.takeCommand_eq
  rw [waits] at takes
  unfold Clockwork.taken
  rw [takes, waits, last, List.length_append]
  cases command <;> exact ⟨rfl, rfl⟩

theorem Kept.taken (kept : c.Kept) : c.taken.Kept := by
  cases waits : c.board.timerCommand with
  | none => rwa [kept.taken_of_silent waits]
  | some command =>
      obtain ⟨earlier, last⟩ := kept.cell command waits
      obtain ⟨board, serving⟩ := taken_told waits last
      have silent : c.taken.board.timerCommand = none := by rw [board]
      have ledger : c.taken.ledger = c.answered ++ (servedAfter earlier.length command).toList := by
        rw [ledger_of_silent silent, serving]
        rfl
      have before : c.ledger = c.answered ++ c.serving.toList ++ [earlier.length] := by
        rw [Clockwork.ledger, waiting_last waits last]
        rfl
      have shorter : c.taken.ledger.Sublist c.ledger := by
        have one : (servedAfter earlier.length command).toList.Sublist [earlier.length] := by
          cases command with
          | start => exact .refl _
          | stop => exact List.nil_sublist _
        rw [ledger, before]
        exact (List.sublist_append_left _ _).append one
      refine ⟨?_, ?_, ?_, ?_, kept.answers, kept.ordered.sublist shorter, fun k member =>
        kept.asked k (shorter.subset member), fun others deadline epoch newest => ?_⟩
      · rw [board]
        exact kept.quiet
      · rw [board]
        exact kept.bounded
      · rw [silent]
        exact nofun
      · rw [board, serving]
        change Serves c.commands c.board.now _ _
        cases command with
        | start deadline epoch =>
            refine .armed ?_
            rw [last]
            exact List.getElem?_concat_length
        | stop => exact .idle
      · obtain ⟨rfl, same⟩ := List.append_inj' (last.symm.trans newest) rfl
        cases same
        rw [ledger]
        exact List.mem_append_right _ (List.mem_singleton_self _)

theorem answered_posted (c : Clockwork) (epoch : UInt32) :
    (c.posted epoch).answered = c.answered ++ c.serving.toList := by
  unfold Clockwork.answered posted
  rw [List.filterMap_append]
  cases c.serving <;> rfl

theorem ledger_posted (c : Clockwork) (epoch : UInt32) : (c.posted epoch).ledger = c.ledger := by
  rw [Clockwork.ledger, answered_posted]
  change c.answered ++ c.serving.toList ++ [] ++ c.waiting.toList = _
  rw [List.append_nil]
  rfl

theorem Kept.posted (kept : c.Kept) {epoch : UInt32} (due : c.board.due? = some epoch)
    (room : c.board.playerQueue.length < playerQueueSize) : (c.posted epoch).Kept := by
  obtain ⟨k, deadline, serving, asked, past⟩ := kept.serving_of_due due
  have ledger := c.ledger_posted epoch
  refine ⟨kept.quiet, ?_, kept.cell, .idle, fun post member => ?_, ledger ▸ kept.ordered,
    ledger ▸ kept.asked, ledger ▸ kept.last⟩
  · change (c.board.playerQueue ++ [Event.elapsed epoch]).length ≤ _
    rw [List.length_append, List.length_singleton]
    exact room
  · rcases List.mem_append.mp member with before | now
    · exact kept.answers post before
    · rw [List.mem_singleton.mp now]
      exact ⟨k, deadline, epoch, serving, asked, rfl, past⟩

theorem Kept.blocked (kept : c.Kept) {epoch : UInt32} (due : c.board.due? = some epoch) :
    (c.blocked epoch).Kept := by
  obtain ⟨k, deadline, serving, asked, past⟩ := kept.serving_of_due due
  refine ⟨kept.quiet, kept.bounded, kept.cell, ?_, kept.answers, kept.ordered, kept.asked,
    kept.last⟩
  change Serves c.commands c.board.now (.posting epoch) c.serving
  rw [serving]
  exact .posting asked past

theorem Kept.runTimer (kept : c.Kept) : c.runTimer.Kept := by
  have served := c.served_runTimer
  generalize c.runTimer = after at served
  cases served with
  | takes unexpired => exact kept.taken
  | posts due room => exact (kept.posted due room).taken
  | blocks due full => exact kept.blocked due

/-! ## The other turns -/

/-- Nothing but the board changes, and on it nothing that the timer is about. -/
theorem Kept.still (kept : c.Kept) {v : Clockwork} (commands : v.commands = c.commands)
    (serving : v.serving = c.serving) (posts : v.posts = c.posts)
    (timer : v.board.timer = c.board.timer)
    (cell : v.board.timerCommand = c.board.timerCommand) (now : c.board.now ≤ v.board.now)
    (quiet : v.board.engine.board.published = [])
    (bounded : v.board.playerQueue.length ≤ playerQueueSize) : v.Kept := by
  have ledger : v.ledger = c.ledger := by
    unfold Clockwork.ledger answered waiting
    rw [posts, serving, cell, commands]
  have serves : Serves (c.commands ++ []) v.board.now c.board.timer c.serving :=
    kept.serves.later now
  rw [List.append_nil] at serves
  refine ⟨quiet, bounded, ?_, ?_, ?_, ?_, ?_, ?_⟩
  · rw [cell, commands]
    exact kept.cell
  · rw [commands, timer, serving]
    exact serves
  · rw [posts, commands]
    exact kept.answers
  · rw [ledger]
    exact kept.ordered
  · rw [ledger, commands]
    exact kept.asked
  · rw [ledger, commands]
    exact kept.last

theorem Kept.beside (kept : c.Kept) {after : Firmware} (others : c.board.Others after) :
    (c.beside after).Kept :=
  kept.still rfl rfl rfl others.timer others.timerCommand others.now others.quiet
    (others.bounded kept.bounded)

/-- Another command waits in the cell, in place of the one that may have waited there. -/
theorem Kept.told (kept : c.Kept) {v : Clockwork} {command : TimerCommand}
    (commands : v.commands = c.commands ++ [command]) (serving : v.serving = c.serving)
    (posts : v.posts = c.posts) (timer : v.board.timer = c.board.timer)
    (cell : v.board.timerCommand = some command) (now : c.board.now ≤ v.board.now)
    (quiet : v.board.engine.board.published = [])
    (bounded : v.board.playerQueue.length ≤ playerQueueSize) : v.Kept := by
  have ledger : v.ledger = c.answered ++ c.serving.toList ++ [c.commands.length] := by
    rw [Clockwork.ledger, waiting_last cell commands, serving, answered, posts]
    rfl
  -- All that stood in the ledger was asked for before.
  have before : ∀ k ∈ c.answered ++ c.serving.toList, k < c.commands.length :=
    fun k member => kept.asked k (List.mem_append_left _ member)
  have ordered := (List.pairwise_append.mp kept.ordered).1
  refine ⟨quiet, bounded, ?_, ?_, ?_, ?_, ?_, ?_⟩
  · rw [cell, commands]
    rintro last ⟨⟩
    exact ⟨c.commands, rfl⟩
  · rw [commands, timer, serving]
    exact kept.serves.later now
  · rw [posts, commands]
    exact fun post member => (kept.answers post member).later
  · rw [ledger]
    refine List.pairwise_append.mpr ⟨ordered, List.pairwise_singleton _ _, fun k member last one => ?_⟩
    rw [List.mem_singleton.mp one]
    exact before k member
  · rw [ledger, commands, List.length_append, List.length_singleton]
    intro k member
    rcases List.mem_append.mp member with old | new
    · exact Nat.lt_succ_of_lt (before k old)
    · rw [List.mem_singleton.mp new]
      exact Nat.lt_succ_self _
  · intro earlier deadline epoch newest
    obtain ⟨same, -⟩ := List.append_inj' (commands.symm.trans newest) rfl
    rw [ledger, same]
    exact List.mem_append_right _ (List.mem_singleton_self _)

/-- The player acts on the event queued first, and all that it posts joins the queue. -/
theorem Kept.act_eq (kept : c.Kept) {e : Event} {rest : List Event}
    (waits : c.board.playerQueue = e :: rest) :
    let ready : Firmware := { c.board with playerQueue := rest }
    c.act = c.acted ready e ∧ (ready.handleEvent e).playerQueue =
      rest ++ (ready.played e).board.published.filter Event.isForPlayer := by
  intro ready
  have room : ready.playerQueue.length < playerQueueSize := by
    have bounded := kept.bounded
    rw [waits, List.length_cons] at bounded
    exact bounded
  have quiet : ready.engine.board.published = [] := kept.quiet
  refine ⟨?_, ready.queue_handleEvent quiet e room⟩
  unfold Clockwork.act
  rw [waits]

theorem Kept.act (kept : c.Kept) : c.act.Kept := by
  cases waits : c.board.playerQueue with
  | nil =>
      unfold Clockwork.act
      rwa [waits]
  | cons e rest =>
      let ready : Firmware := { c.board with playerQueue := rest }
      have acted := ready.acted_handleEvent e
      obtain ⟨acts, queue⟩ := kept.act_eq waits
      have few : ready.playerQueue.length ≤ playerQueueSize := by
        have bounded := kept.bounded
        rw [waits] at bounded
        exact Nat.le_of_succ_le bounded
      have bounded := acted.joins.bounded few
      have quiet : (ready.handleEvent e).engine.board.published = [] := by rw [acted.board]
      have cell := acted.timerCommand
      rw [acts, c.acted_eq queue]
      cases asks : (ready.played e).request with
      | none =>
          rw [asks] at cell
          exact kept.still (List.append_nil _) rfl rfl acted.timer cell (Nat.le_of_eq acted.now.symm)
            quiet bounded
      | some request =>
          rw [asks] at cell
          exact kept.told rfl rfl rfl acted.timer cell (Nat.le_of_eq acted.now.symm) quiet bounded

theorem Becomes.kept {admits : Clockwork → Prop} {v : Clockwork} (becomes : Becomes admits c v)
    (kept : c.Kept) : v.Kept := by
  induction becomes with
  | refl => exact kept
  | timer _ ih => exact ih.runTimer
  | player _ _ ih => exact ih.act
  | others _ others ih => exact ih.beside others

/-! ## Nothing is lost -/

/-- The timer has answered a command, or it serves it and is told nothing else. -/
def Settled (c : Clockwork) (k : Nat) : Prop :=
  k ∈ c.answered ∨ c.serving = some k ∧ c.board.timerCommand = none

/-- The player's commands only get more. -/
theorem commands_act (c : Clockwork) : c.commands <+: c.act.commands := by
  unfold Clockwork.act
  split
  · exact List.prefix_rfl
  · exact List.prefix_append _ _

theorem Becomes.commands {admits : Clockwork → Prop} {v : Clockwork}
    (becomes : Becomes admits c v) : c.commands <+: v.commands := by
  induction becomes with
  | refl => exact List.prefix_rfl
  | timer _ ih => exact ih
  | player _ _ ih => exact ih.trans (commands_act _)
  | others _ _ ih => exact ih

/-- A timer that takes the last command, or has taken it, serves it or has answered it. -/
theorem Kept.settled_taken (kept : c.Kept) {earlier : List TimerCommand} {deadline : Nat}
    {epoch : UInt32} (last : c.commands = earlier ++ [.start deadline epoch]) :
    c.taken.Settled earlier.length := by
  cases waits : c.board.timerCommand with
  | none =>
      have member := kept.last _ _ _ last
      rw [ledger_of_silent waits] at member
      rw [kept.taken_of_silent waits]
      exact (List.mem_append.mp member).imp_right fun serving =>
        ⟨Option.mem_toList.mp serving, waits⟩
  | some command =>
      obtain ⟨others, newest⟩ := kept.cell command waits
      obtain ⟨-, same⟩ := List.append_inj' (last.symm.trans newest) rfl
      cases same
      obtain ⟨board, serving⟩ := taken_told waits last
      exact .inr ⟨serving, by rw [board]⟩

/-- A turn of the timer that is not blocked settles the last command. -/
theorem Kept.settled_runTimer (kept : c.Kept) {earlier : List TimerCommand} {deadline : Nat}
    {epoch : UInt32} (last : c.commands = earlier ++ [.start deadline epoch])
    (room : c.board.playerQueue.length < playerQueueSize) : c.runTimer.Settled earlier.length := by
  have served := c.served_runTimer
  generalize c.runTimer = after at served
  cases served with
  | takes unexpired => exact kept.settled_taken last
  | posts due => exact (kept.posted due room).settled_taken last
  | blocks due full => exact absurd room full

/-- A timer that posts what it serves has answered all that was settled. -/
theorem answered_of_settled {k : Nat} (settled : c.Settled k) (epoch : UInt32) :
    k ∈ (c.posted epoch).answered := by
  rw [answered_posted]
  exact List.mem_append.mpr (settled.imp_right fun held => Option.mem_toList.mpr held.1)

/-- What is settled stays so in the timer's turn. -/
theorem Kept.settled_timer (kept : c.Kept) {k : Nat} (settled : c.Settled k) :
    c.runTimer.Settled k := by
  have served := c.served_runTimer
  generalize c.runTimer = after at served
  cases served with
  | takes unexpired =>
      rcases settled with answered | ⟨serving, silent⟩
      · exact .inl answered
      · rw [kept.taken_of_silent silent]
        exact .inr ⟨serving, silent⟩
  | posts due room => exact .inl (answered_of_settled settled _)
  | blocks due full => exact settled

/-- What is settled stays so in the player's turn, unless the player asks for something else. -/
theorem Kept.settled_act (kept : c.Kept) {k : Nat} (settled : c.Settled k)
    (unasked : c.act.commands = c.commands) : c.act.Settled k := by
  cases waits : c.board.playerQueue with
  | nil =>
      unfold Clockwork.act
      rwa [waits]
  | cons e rest =>
      let ready : Firmware := { c.board with playerQueue := rest }
      obtain ⟨acts, -⟩ := kept.act_eq waits
      have cell := (ready.acted_handleEvent e).timerCommand
      rw [acts] at unasked ⊢
      have unasked : (ready.played e).request = none := by
        have same := List.append_right_eq_self.mp unasked
        cases asks : (ready.played e).request with
        | none => rfl
        | some request =>
            rw [asks] at same
            cases same
      rw [unasked] at cell
      exact settled.imp_right fun held => ⟨held.1, cell.trans held.2⟩

theorem Becomes.settled {admits : Clockwork → Prop} {v : Clockwork} {k : Nat} (kept : c.Kept)
    (settled : c.Settled k) (becomes : Becomes admits c v) (unasked : v.commands = c.commands) :
    v.Settled k := by
  induction becomes with
  | refl => exact settled
  | timer before ih => exact (before.kept kept).settled_timer (ih unasked)
  | @player u before _ ih =>
      have more := u.commands_act
      have same : u.commands = c.commands :=
        (before.commands.eq_of_length_le (unasked ▸ more.length_le)).symm
      exact (before.kept kept).settled_act (ih same) (unasked.trans same.symm)
  | @others u after before others ih =>
      exact (ih unasked).imp_right fun held => ⟨held.1, others.timerCommand.trans held.2⟩

/-- A wait that is over is posted once there is room. -/
theorem Kept.answered_runTimer (kept : c.Kept) {k deadline : Nat} {epoch : UInt32}
    (settled : c.Settled k) (asked : c.commands[k]? = some (.start deadline epoch))
    (past : deadline ≤ c.board.now) (room : c.board.playerQueue.length < playerQueueSize) :
    k ∈ c.runTimer.answered := by
  have served := c.served_runTimer
  generalize c.runTimer = after at served
  cases served with
  | takes unexpired =>
      rcases settled with answered | ⟨serving, -⟩
      · exact answered
      · cases unexpired.symm.trans (kept.due_of_serving serving asked past)
  | posts due => exact answered_of_settled settled _
  | blocks due full => exact absurd room full

theorem Kept.answered_ordered (kept : c.Kept) : c.answered.Pairwise (· < ·) :=
  (List.pairwise_append.mp (List.pairwise_append.mp kept.ordered).1).1

/-! ## The tasks of the firmware -/

/-- Whenever a start is on its way, the active program can be played. -/
def Primed (f : Firmware) : Prop :=
  ∀ e ∈ f.playerQueue, e.isStart = true → f.engine.board.program.Playable

theorem Primed.turn {f : Firmware} (primed : Primed f) (quiet : f.engine.board.published = [])
    (t : Firmware.Turn) : Primed (f.turn t) := by
  have turned := Firmware.turned_turn quiet t
  intro e member starts
  cases played : f.load? t with
  | none =>
      rw [played] at turned
      have queued := (turned.starts rfl).subset (List.mem_filter.mpr ⟨member, starts⟩)
      rw [turned.program]
      exact primed e (List.mem_filter.mp queued).1 starts
  | some load =>
      have timer : t ≠ .timer := by rintro rfl; cases played
      have player : t ≠ .player := by rintro rfl; cases played
      have playable := (Firmware.beside_turn quiet timer player).playable load.program
      rw [played] at turned playable
      rw [turned.program]
      exact playable rfl

/-- Nothing has been on its way for more than so many epochs. -/
structure Young (c : Clockwork) (n : Nat) : Prop where
  mail : ∀ m ∈ c.mail, m.age ≤ n
  age : c.age ≤ n

theorem Young.succ {n : Nat} (young : c.Young n) : c.Young (n + 1) :=
  ⟨fun m member => Nat.le_succ_of_le (young.mail m member), Nat.le_succ_of_le young.age⟩

theorem Young.fresh {n : Nat} (young : c.Young n) (few : n < UInt32.size) : c.deck.Fresh := by
  intro m member
  have bound : m.age ≤ n := by
    rcases List.mem_append.mp member with others | held
    · rcases List.mem_append.mp others with queued | told
      · exact young.mail m queued
      · obtain ⟨epoch, -, rfl⟩ := List.mem_map.mp told
        exact Nat.zero_le n
    · obtain ⟨epoch, -, rfl⟩ := List.mem_map.mp held
      exact young.age
  omega

/-- What joins the queue is new. -/
theorem age_joined_le {n : Nat} {mail : List Message} (young : ∀ m ∈ mail, m.age ≤ n)
    (events : List Event) :
    ∀ m ∈ mail ++ events.map fun event => ({ event } : Message), m.age ≤ n := by
  intro m member
  rcases List.mem_append.mp member with old | new
  · exact young m old
  · obtain ⟨e, -, rfl⟩ := List.mem_map.mp new
    exact Nat.zero_le n

theorem Young.taken {n : Nat} (young : c.Young n) : c.taken.Young n := by
  refine ⟨young.mail, ?_⟩
  change (if c.board.timerCommand.isSome then 0 else c.age) ≤ n
  split
  · exact Nat.zero_le n
  · exact young.age

theorem Young.runTimer {n : Nat} (young : c.Young n) : c.runTimer.Young n := by
  have served := c.served_runTimer
  generalize c.runTimer = after at served
  cases served with
  | takes unexpired => exact young.taken
  | @posts epoch due room =>
      have posted : (c.posted epoch).Young n := by
        refine ⟨fun m member => ?_, young.age⟩
        rcases List.mem_append.mp member with old | now
        · exact young.mail m old
        · rw [List.mem_singleton.mp now]
          exact young.age
      exact posted.taken
  | blocks due full => exact ⟨young.mail, young.age⟩

theorem Young.act {n : Nat} (young : c.Young n) : c.act.Young (n + 1) := by
  cases waits : c.board.playerQueue with
  | nil =>
      unfold Clockwork.act
      rw [waits]
      exact young.succ
  | cons e rest =>
      unfold Clockwork.act
      rw [waits]
      refine ⟨age_joined_le (Deck.age_aged_le (fun m member => ?_) _ _) _, ?_⟩
      · exact young.mail m (List.mem_of_mem_tail member)
      · change (if _ then c.age else c.age + 1) ≤ n + 1
        split
        · exact Nat.le_succ_of_le young.age
        · exact Nat.succ_le_succ young.age

theorem Young.beside {n : Nat} (young : c.Young n) (after : Firmware) : (c.beside after).Young n :=
  ⟨age_joined_le young.mail _, young.age⟩

theorem young_new {f : Firmware} : Young { board := f } 0 := ⟨nofun, Nat.le_refl 0⟩

theorem board_act (c : Clockwork) : c.act.board = c.board.turn .player := by
  unfold act Firmware.turn Firmware.handleEvents
  cases waits : c.board.playerQueue <;> rfl

/-- A turn of a task is the timer's or the player's, or others have done something. -/
theorem Becomes.turn {f : Firmware} (new : f.New) (becomes : Becomes Steady { board := f } c)
    (primed : Primed c.board) {n : Nat} (young : c.Young n) (few : n + 1 < UInt32.size)
    (t : Firmware.Turn) : ∃ v, Becomes Steady { board := f } v ∧ v.board = c.board.turn t ∧
      v.Young (n + 1) := by
  have quiet := (becomes.kept (kept_new new)).quiet
  by_cases timer : t = .timer
  · rw [timer]
    exact ⟨_, becomes.timer, rfl, young.runTimer.succ⟩
  · by_cases player : t = .player
    · have steady : c.Steady :=
        ⟨fun starts => primed _ (List.mem_of_head? starts) rfl, young.act.fresh few⟩
      rw [player]
      exact ⟨_, becomes.player steady, c.board_act, young.act⟩
    · have others := (Firmware.beside_turn quiet timer player).others
      exact ⟨_, becomes.others others, rfl, (young.beside _).succ⟩

/-- The tasks of a firmware do what a clockwork can, and in fewer turns than there are epochs nothing
gets too old. -/
theorem Becomes.turns {f : Firmware} (new : f.New) (turns : List Firmware.Turn)
    (becomes : Becomes Steady { board := f } c) (primed : Primed c.board) {n : Nat}
    (young : c.Young n) (few : n + turns.length < UInt32.size) :
    ∃ v, Becomes Steady { board := f } v ∧ v.board = turns.foldl Firmware.turn c.board := by
  induction turns generalizing c n with
  | nil => exact ⟨c, becomes, rfl⟩
  | cons t rest ih =>
      rw [List.length_cons] at few
      have quiet := (becomes.kept (kept_new new)).quiet
      obtain ⟨u, later, board, older⟩ := becomes.turn new primed young (by omega) t
      rw [List.foldl_cons, ← board]
      exact ih later (board ▸ primed.turn quiet t) older (by omega)

theorem primed_new {f : Firmware} (new : f.New) : Primed f := by
  intro e member
  rw [new.queue] at member
  cases member

/-! ## All turns -/

/-- A running player waits for exactly one end that is on its way, and any other player for none. -/
theorem Becomes.one_on_the_way {admits : Clockwork → Prop} {f : Firmware} (new : f.New)
    (becomes : Becomes admits { board := f } c) (steady : ∀ u, admits u → u.Steady) :
    c.board.onTheWay.count (.elapsed c.board.player.epoch) =
      if c.board.player.playback = .running then 1 else 0 := by
  have sound := becomes.sound steady (sound_new new)
  rw [← live_deck sound.queued]
  exact sound.balance

/-- Each wait is posted once at most, in the order in which the player asked for them and not before
it is over. One that nothing has replaced is posted exactly once: a turn of the timer that finds room
leaves only that wait to the timer, and one that finds room once it is over has posted it, whatever
goes on between them. All that the player posts itself finds room. The epochs come round, so an end
that is on its way for all of them is taken for that of a later wait. As long as none is, a running
player waits for exactly one end that is on its way, and any other player for none. The tasks of the
firmware do nothing else, and in fewer turns than there are epochs nothing gets so old. -/
theorem Becomes.one_step_message {admits : Clockwork → Prop} {f : Firmware} (new : f.New)
    (becomes : Becomes admits { board := f } c) :
    (∀ post ∈ c.posts, Answers c.commands post) ∧ c.answered.Pairwise (· < ·) ∧
    (∀ earlier deadline epoch, c.commands = earlier ++ [.start deadline epoch] →
      c.board.playerQueue.length < playerQueueSize → ∀ v, Becomes admits c.runTimer v →
        v.commands = c.commands → deadline ≤ v.board.now →
        v.board.playerQueue.length < playerQueueSize →
          v.runTimer.answered.count earlier.length = 1) ∧
    (∀ e rest, c.board.playerQueue = e :: rest → c.act.board.playerQueue = rest ++
      (Firmware.played { c.board with playerQueue := rest } e).board.published.filter
        Event.isForPlayer) ∧
    ((∀ u, admits u → u.Steady) → c.board.onTheWay.count (.elapsed c.board.player.epoch) =
      if c.board.player.playback = .running then 1 else 0) ∧
    (∀ turns : List Firmware.Turn, turns.length < UInt32.size →
      ∃ v, Becomes Steady { board := f } v ∧ v.board = turns.foldl Firmware.turn f ∧
        v.board.onTheWay.count (.elapsed v.board.player.epoch) =
          if v.board.player.playback = .running then 1 else 0) := by
  have kept := becomes.kept (kept_new new)
  refine ⟨kept.answers, kept.answered_ordered, ?_, fun e rest waits => ?_,
    becomes.one_on_the_way new, fun turns few => ?_⟩
  · intro earlier deadline epoch last room v later unasked past finds
    have settled := later.settled kept.runTimer (kept.settled_runTimer last room) unasked
    have there := later.kept kept.runTimer
    have asked : v.commands[earlier.length]? = some (.start deadline epoch) := by
      rw [unasked, last]
      exact List.getElem?_concat_length
    have once : v.runTimer.answered.Nodup := there.runTimer.answered_ordered.imp Nat.ne_of_lt
    exact once.count.trans (if_pos (there.answered_runTimer settled asked past finds))
  · obtain ⟨acts, queue⟩ := kept.act_eq waits
    rw [acts]
    exact queue
  · obtain ⟨v, later, board⟩ := Becomes.turns new turns .refl (primed_new new) young_new (by omega)
    exact ⟨v, later, board, later.one_on_the_way new fun _ => id⟩

/-- A program is started on a board that has been set up, its first step waits, and the end of that is
posted. -/
theorem one_step_message_played : ∃ f : Firmware, f.Started ∧
    let program : Program := { steps := [⟨.closes, 9000⟩, ⟨.opens, 9000⟩] }
    let c := (({ board := f } : Clockwork).beside { f with
      engine := f.engine.onBoard fun b => { b with program }, playerQueue := [.start true] }).act
    let v := c.runTimer.beside { c.runTimer.board with now := 9000 }
    Becomes Steady { board := f } c ∧ v.runTimer.answered.count 0 = 1 ∧
      c.board.player.playback = .running ∧
      c.board.onTheWay.count (.elapsed c.board.player.epoch) = 1 ∧
      ∃ w, Becomes Steady { board := f } w ∧ w.board = [.tick, .sampler].foldl Firmware.turn f := by
  let program : Program := { steps := [⟨.closes, 9000⟩, ⟨.opens, 9000⟩] }
  let loaded (f : Firmware) : Firmware := { f with
    engine := f.engine.onBoard fun b => { b with program }, playerQueue := [.start true] }
  have runs : ((Firmware.setUp {} {} {}).map fun f =>
      let c := (({ board := f } : Clockwork).beside (loaded f)).act
      let timed := c.runTimer.board
      (c.commands, c.board.player.playback, c.board.playerQueue.length + timed.playerQueue.length,
        timed.now)).toOption = some ([.start 9000 1], .running, 0, 0) := by
    decide +kernel
  cases done : Firmware.setUp {} {} {} with
  | error e =>
      rw [done] at runs
      cases runs
  | ok f =>
      rw [done] at runs
      obtain ⟨asked, running, empty, free, now⟩ : _ ∧ _ ∧ _ ∧ _ ∧ _ := by
        simpa [and_assoc] using Option.some.inj runs
      have started : f.Started := ⟨{}, {}, {}, f.log, by rw [done]; rfl⟩
      have new := started.new
      have starts : f.Others (loaded f) := by
        refine ⟨rfl, rfl, rfl, rfl, Nat.le_refl _, new.quiet, ⟨[.start true], ?_, ?_⟩, fun _ => ?_⟩
        · rw [new.queue]
          rfl
        · simp
        · change 1 ≤ playerQueueSize
          decide
      have first : (({ board := f } : Clockwork).beside (loaded f)).Steady :=
        ⟨fun _ => ⟨⟨.closes, 9000⟩, rfl, nofun⟩, (young_new.beside _).act.fresh (by decide)⟩
      let c := (({ board := f } : Clockwork).beside (loaded f)).act
      have becomes : Becomes Steady { board := f } c := .player (.others .refl starts) first
      obtain ⟨-, -, posts, -, message, turns⟩ := becomes.one_step_message new
      have quiet := (becomes.timer.kept (kept_new new)).quiet
      have early : c.runTimer.board.now ≤ 9000 := Nat.le_trans (Nat.le_of_eq now) (Nat.zero_le _)
      have passes : c.runTimer.board.Others { c.runTimer.board with now := 9000 } :=
        ⟨rfl, rfl, rfl, rfl, early, quiet, ⟨[], (List.append_nil _).symm, nofun⟩, id⟩
      have room {queue : List Event} (empty : queue = []) : queue.length < playerQueueSize := by
        rw [empty]
        decide
      have posted := posts [] 9000 1 asked (room empty) _ (.others .refl passes) rfl
        (Nat.le_refl 9000) (room free)
      refine ⟨f, started, becomes, posted, running, ?_, ?_⟩
      · rw [message fun _ => id]
        exact if_pos running
      · obtain ⟨w, reached, board, -⟩ := turns [.tick, .sampler] (by decide)
        exact ⟨w, reached, board⟩

section round

/-- The events with which others keep the player's queue full: it is stopped and goes on. -/
def crowd (n : Nat) : List Event := (List.replicate n [Event.stop, .start false]).flatten

/-- The timer task cannot post the end of a wait, while the player waits for another one. -/
structure Crowded (f : Firmware) (own ms : UInt32) : Prop where
  quiet : f.engine.board.published = []
  queue : f.playerQueue = crowd 16
  timer : f.timer = .posting own
  running : f.player.playback = .running
  deadline : f.deadline = some (f.now + ms.toNat)
  told : f.told = [f.player.epoch]

variable {admits : Clockwork → Prop} {start c : Clockwork} {own ms : UInt32}

theorem Crowded.remainingMs {f : Firmware} (crowded : Crowded f own ms) : f.remainingMs = ms := by
  apply UInt32.toNat_inj.mp
  have := ms.toNat_lt
  simp only [Firmware.remainingMs, crowded.deadline, UInt32.toNat_ofNat', UInt32.size]
  omega

/-- The player acts on the event queued first, others put another one in its place, and the timer
finds no room again. -/
theorem Becomes.crowds (becomes : Becomes admits start c) (admitted : admits c) {e : Event}
    (joins : Event) {rest : List Event} {after : Firmware} (waits : c.board.playerQueue = e :: rest)
    (full : rest.length + 1 = playerQueueSize)
    (acts : ({ c.board with playerQueue := rest } : Firmware).handleEvent e = after)
    (quiet : after.engine.board.published = []) (queue : after.playerQueue = rest)
    (timer : after.timer = .posting own) (dead : ∀ n, joins ≠ .elapsed n) :
    ∃ v, Becomes admits start v ∧ v.board = { after with playerQueue := rest ++ [joins] } := by
  have board : c.act.board = after := by
    rw [board_act, ← acts]
    unfold Firmware.turn Firmware.handleEvents
    rw [waits]
    rfl
  have others : c.act.board.Others { after with playerQueue := rest ++ [joins] } := by
    rw [board]
    refine ⟨rfl, rfl, rfl, rfl, Nat.le_refl _, quiet, ⟨[joins], by rw [queue], ?_⟩, fun _ => ?_⟩
    · simpa using dead
    · rw [List.length_append]
      exact Nat.le_of_eq full
  refine ⟨_, ((becomes.player admitted).others others).timer, ?_⟩
  change Firmware.runTimer { after with playerQueue := rest ++ [joins] } = _
  have stuck : ¬ (rest ++ [joins]).length < playerQueueSize := by
    rw [List.length_append, List.length_singleton, full]
    exact Nat.lt_irrefl _
  simp only [Firmware.runTimer, timer, Firmware.postElapsed, stuck, ↓reduceIte]

theorem Crowded.round (crowded : Crowded c.board own ms) (long : ms ≠ 0)
    (becomes : Becomes admits start c)
    (admitted : ∀ u : Clockwork, u.board.playerQueue.head? ≠ some (.start true) → admits u) :
    ∃ v, Becomes admits start v ∧ Crowded v.board own ms ∧
      v.board.player.epoch = c.board.player.epoch + 1 := by
  have left := crowded.remainingMs
  have first : c.board.playerQueue = .stop :: .start false :: crowd 15 := crowded.queue
  obtain ⟨log, stops⟩ := Firmware.handleEvent_stop
    (f := { c.board with playerQueue := .start false :: crowd 15 }) crowded.quiet crowded.running
  obtain ⟨u, paused, board⟩ := becomes.crowds (admitted c (by rw [first]; simp)) .stop first rfl stops
    crowded.quiet rfl crowded.timer (by simp)
  have second : u.board.playerQueue = .start false :: (crowd 15 ++ [.stop]) := by rw [board]; rfl
  obtain ⟨later, resumes⟩ := Firmware.handleEvent_resume
    (f := { u.board with playerQueue := crowd 15 ++ [.stop] }) (by rw [board]; exact crowded.quiet)
    (by rw [board]) (by rw [board]; exact left ▸ long)
  obtain ⟨v, resumed, after⟩ := paused.crowds (admitted u (by rw [second]; simp)) (.start false) second
    rfl resumes (by rw [board]; exact crowded.quiet) rfl (by rw [board]; exact crowded.timer) (by simp)
  refine ⟨v, resumed, ?_, by rw [after, board]⟩
  rw [after, board]
  exact ⟨crowded.quiet, rfl, crowded.timer, rfl, congrArg (fun ms : UInt32 =>
    some (c.board.now + ms.toNat)) left, rfl⟩

theorem Crowded.rounds (crowded : Crowded c.board own ms) (long : ms ≠ 0)
    (becomes : Becomes admits start c)
    (admitted : ∀ u : Clockwork, u.board.playerQueue.head? ≠ some (.start true) → admits u)
    (n : Nat) : ∃ v, Becomes admits start v ∧ Crowded v.board own ms ∧
      v.board.player.epoch = c.board.player.epoch + UInt32.ofNat n := by
  induction n with
  | zero => exact ⟨c, becomes, crowded, (UInt32.add_zero _).symm⟩
  | succ n ih =>
      obtain ⟨u, reached, kept, epoch⟩ := ih
      obtain ⟨v, goesOn, stays, next⟩ := kept.round long reached admitted
      refine ⟨v, goesOn, stays, ?_⟩
      rw [next, epoch, UInt32.ofNat_add, UInt32.add_assoc]
      rfl

/-- The board before anything has happened to it, with a program of two steps of a second. -/
def uncrowded : Firmware where
  config := {}
  jumper := {}
  engine := {
    catalog := { store := { chip := {}, offset := 0, image := [] } }
    board := {
      contact := { relay := .resting false }
      program := { steps := [⟨.closes, 1000⟩, ⟨.opens, 1000⟩] } } }
  sampler := { nextMs := 0, periodMs := 20 }
  health := { nextMs := 0, periodMs := 5000 }
  display := .following

/-- The program is started, others fill the queue before its first wait is over, and the player has
gone on to the second step by the time that the first round begins. -/
theorem becomes_crowded (admitted : ∀ u : Clockwork,
      (u.board.playerQueue.head? = some (.start true) →
        u.board.engine.board.program.Playable) → admits u) :
    ∃ c, Becomes admits { board := uncrowded } c ∧ Crowded c.board 1 1000 ∧
      c.board.player.epoch = 3 := by
  let begun := ({ board := uncrowded } : Clockwork).beside
    { uncrowded with playerQueue := [.start true] }
  let waits := begun.act.runTimer
  let held := (waits.beside { waits.board with now := 1000, playerQueue := crowd 16 }).runTimer
  have other (u : Clockwork) (goesOn : u.board.playerQueue.head? ≠ some (.start true)) : admits u :=
    admitted u fun starts => absurd starts goesOn
  have starts : uncrowded.Others { uncrowded with playerQueue := [.start true] } :=
    ⟨rfl, rfl, rfl, rfl, Nat.le_refl _, rfl, ⟨[.start true], rfl, by simp⟩, fun _ => by decide⟩
  have fills : waits.board.Others { waits.board with now := 1000, playerQueue := crowd 16 } :=
    ⟨rfl, rfl, rfl, rfl, by decide +kernel, rfl, ⟨crowd 16, rfl, by simp [crowd]⟩, fun _ => by decide⟩
  have reached : Becomes admits { board := uncrowded } held :=
    .timer (.others (.timer (.player (.others .refl starts) (admitted _ fun _ => ⟨_, rfl, nofun⟩)))
      fills)
  have first : held.board.playerQueue = .stop :: .start false :: crowd 15 := by decide +kernel
  let stops := Firmware.handleEvent { held.board with playerQueue := .start false :: crowd 15 } .stop
  obtain ⟨u, paused, board⟩ := reached.crowds (other _ (by rw [first]; simp)) .stop first
    (by decide) (Eq.refl stops) (by decide +kernel) (by decide +kernel)
    (show stops.timer = .posting 1 by decide +kernel) (by simp)
  have second : u.board.playerQueue = .start false :: (crowd 15 ++ [.stop]) := by rw [board]; rfl
  let resumes := Firmware.handleEvent { stops with playerQueue := crowd 15 ++ [.stop] } (.start false)
  obtain ⟨v, resumed, after⟩ := paused.crowds (other u (by rw [second]; simp)) (.start false) second
    (by decide) (show _ = resumes by rw [board]) (by decide +kernel) (by decide +kernel)
    (show resumes.timer = .posting 1 by decide +kernel) (by simp)
  refine ⟨v, resumed, ?_, ?_⟩
  · rw [after]
    exact ⟨by decide +kernel, rfl, by decide +kernel, by decide +kernel, by decide +kernel,
      by decide +kernel⟩
  · rw [after]
    decide +kernel

/-- The end of the first wait is held up by a full queue for as many epochs as there are. Then it is as
good as the end of the wait that the timer is told of. -/
theorem two_step_messages_after_round :
    uncrowded.New ∧ ∃ c, Becomes (fun u => u.board.playerQueue.head? = some (.start true) →
        u.board.engine.board.program.Playable) { board := uncrowded } c ∧
      c.board.player.playback = .running ∧
      c.board.onTheWay.count (.elapsed c.board.player.epoch) = 2 := by
  refine ⟨⟨rfl, rfl, rfl, rfl, rfl⟩, ?_⟩
  obtain ⟨v, reached, crowded, epoch⟩ := becomes_crowded fun _ => id
  obtain ⟨c, rounds, stuck, comes⟩ := crowded.rounds (by decide) reached
    (fun _ other starts => absurd starts other) (UInt32.size - 2)
  have again : c.board.player.epoch = 1 := by
    rw [comes, epoch]
    decide
  refine ⟨c, rounds, stuck.running, ?_⟩
  rw [again, Firmware.onTheWay, stuck.queue, stuck.told, Firmware.heldUp, stuck.timer, again]
  decide

end round

end Clockwork

end RelayTimer
