import RelayTimer.Firmware.Power
import RelayTimer.Proofs.DeckLive
import RelayTimer.Proofs.SessionStep

set_option autoImplicit false

/-!
The tasks of the firmware one after another, each for as long as it runs without waiting, in any
order. What the tasks do beside the timer and the player is said once, in `Firmware.Beside`.
-/
namespace RelayTimer

/-- To tell a contact how it is wired tells the player nothing. -/
theorem Contact.notices_rewire (contact : Contact) (wiring : Wiring) :
    ∀ e ∈ (contact.rewire wiring).2, e = .contactChanged ∨ e = .wiringChanged := by
  intro e member
  have changed {p : Prop} [Decidable p]
      (inside : e ∈ if p then [] else [Event.contactChanged]) : e = .contactChanged := by
    split at inside
    · cases inside
    · exact List.mem_singleton.mp inside
  rcases List.mem_append.mp member with turned | last
  · exact .inl ((List.mem_append.mp turned).elim changed changed)
  · exact .inr (List.mem_singleton.mp last)

/-- A line tells of no end of a time, and starts what it has loaded. -/
theorem LineEffect.unposted {owning left : Bool} {events : List Event}
    (effect : LineEffect owning events left) :
    ∀ e ∈ events, (∀ n, e ≠ .elapsed n) ∧ (e.isStart = true → .start true ∈ events) := by
  cases effect <;> simp [Event.isStart]

/-- A player that acts on an event posts nothing but the end of a time that a loop takes. -/
theorem Player.posted_handle (p : Player) {b : Board} (quiet : b.published = [])
    (remainingMs : UInt32) (e : Event) :
    (p.handle b remainingMs e).board.published.filter Event.isForPlayer = [] ∨
      (p.handle b remainingMs e).board.published.filter Event.isForPlayer = [.elapsed p.epoch] := by
  have plays (own : Player) (board : Board) (epoch : own.epoch = p.epoch)
      (unposted : board.published.filter Event.isForPlayer = []) :
      (own.playNext board).board.published.filter Event.isForPlayer = [] ∨
        (own.playNext board).board.published.filter Event.isForPlayer = [.elapsed p.epoch] := by
    cases here : own.program.next? with
    | none =>
        left
        rw [playNext_ended here, Deck.published_publish, List.filter_append, unposted]
        rfl
    | some found =>
        obtain ⟨step, program⟩ := found
        by_cases loops : step.kind = .loops
        · right
          rw [playNext_looped here loops, ← epoch]
          simp only [Deck.published_publish, Board.setCounter, List.filter_append, unposted]
          rfl
        · left
          rw [playNext_stepped here loops]
          exact Deck.published_act_filter board step.kind unposted
  have unposted : b.published.filter Event.isForPlayer = [] := by rw [quiet]; rfl
  have outcome := handle_handled p b remainingMs e
  generalize p.handle b remainingMs e = played at outcome
  cases outcome with
  | advanced advance =>
      cases advance with
      | restart =>
          refine plays _ _ rfl ?_
          rw [Deck.published_publish, List.filter_append]
          exact congrArg (· ++ []) unposted
      | _ => exact plays _ _ rfl unposted
  | refused command idle =>
      left
      rw [Deck.published_publish, List.filter_append, unposted]
      rfl
  | _ => exact .inl unposted

namespace Firmware

/-- A task goes on until it waits, or something comes from outside. -/
inductive Turn
  | timer
  /-- The player acts on the event queued first. -/
  | player
  | sampler
  | wiring
  /-- The console takes what has arrived first. -/
  | console
  | health
  | display
  /-- A millisecond passes. -/
  | tick
  | receive (items : List Received)
  | setJumper (jumper : Jumper)
  | fail (fault : Fault)

def turn (f : Firmware) : Turn → Firmware
  | .timer => f.runTimer
  | .player => f.handleEvents 1
  | .sampler => f.runSampler
  | .wiring => f.runWiring
  | .console =>
    match f.received with
    | item :: rest => { f with received := rest }.receive item
    | [] => f
  | .health => f.runHealth
  | .display => f.runDisplay
  | .tick => { f with now := f.now + 1 }
  | .receive items => { f with received := f.received ++ items }
  | .setJumper jumper => { f with jumper }
  | .fail fault => f.addFault fault

/-! ## Events on their way -/

/-- What becomes of the player's queue when events are routed: those for the player join it in their
order, all of them if there is room for all. -/
structure Joins (queue events after : List Event) : Prop where
  joined : ∃ taken, after = queue ++ taken ∧ taken.Sublist (events.filter Event.isForPlayer)
  bounded : queue.length ≤ playerQueueSize → after.length ≤ playerQueueSize
  all : queue.length + (events.filter Event.isForPlayer).length ≤ playerQueueSize →
    after = queue ++ events.filter Event.isForPlayer

theorem Joins.of_others {events : List Event} (others : events.filter Event.isForPlayer = [])
    (queue : List Event) : Joins queue events queue :=
  ⟨⟨[], by simp, by simp⟩, id, by simp [others]⟩

theorem Joins.trans {queue mid after first second : List Event} (begun : Joins queue first mid)
    (ended : Joins mid second after) : Joins queue (first ++ second) after := by
  obtain ⟨⟨taken, joined, inside⟩, bounded, all⟩ := begun
  obtain ⟨⟨takenLater, joinedLater, insideLater⟩, boundedLater, allLater⟩ := ended
  refine ⟨⟨taken ++ takenLater, ?_, ?_⟩, fun room => boundedLater (bounded room), fun room => ?_⟩
  · rw [joinedLater, joined, List.append_assoc]
  · rw [List.filter_append]
    exact inside.append insideLater
  · rw [List.filter_append, List.length_append] at room
    have before := all (by omega)
    have length := congrArg List.length before
    rw [List.length_append] at length
    rw [allLater (by omega), before, List.filter_append, List.append_assoc]

/-- What becomes of the board when events are routed. -/
structure Routed (f after : Firmware) (events : List Event) : Prop where
  joins : Joins f.playerQueue events after.playerQueue
  others : ∃ displayQueue log, after =
    { f with playerQueue := after.playerQueue, displayQueue, log }

theorem Routed.refl (f : Firmware) : f.Routed f [] := ⟨.of_others rfl _, _, _, rfl⟩

theorem Routed.trans {f mid after : Firmware} {first second : List Event}
    (begun : f.Routed mid first) (ended : mid.Routed after second) :
    f.Routed after (first ++ second) := by
  refine ⟨begun.joins.trans ended.joins, ?_⟩
  obtain ⟨display, log, same⟩ := begun.others
  obtain ⟨displayLater, logLater, sameLater⟩ := ended.others
  refine ⟨displayLater, logLater, ?_⟩
  rw [same] at sameLater
  exact sameLater

theorem routed_route (f : Firmware) (e : Event) : f.Routed (f.route e) [e] := by
  unfold route
  by_cases mine : e.isForPlayer = true
  · have one : [e].filter Event.isForPlayer = [e] := by simp [mine]
    rw [if_pos mine]
    split
    · refine ⟨⟨⟨[e], rfl, by simp [mine]⟩, fun _ => ?_, fun _ => by rw [one]⟩, _, _, rfl⟩
      rw [List.length_append, List.length_singleton]
      omega
    · rename_i full
      refine ⟨⟨⟨[], by simp [report]⟩, id, fun room => ?_⟩, _, _, rfl⟩
      rw [one, List.length_singleton] at room
      omega
  · have others : [e].filter Event.isForPlayer = [] := by simpa using mine
    rw [if_neg mine]
    split
    · exact ⟨.of_others others _, _, _, rfl⟩
    · exact ⟨.of_others others _, _, _, rfl⟩

theorem routed_foldl (f : Firmware) (events : List Event) :
    f.Routed (events.foldl route f) events := by
  induction events generalizing f with
  | nil => exact .refl f
  | cons e rest ih => exact (f.routed_route e).trans (ih _)

/-- What the board has published is taken from it and routed. -/
theorem routed_deliver (f : Firmware) :
    Routed { f with engine := f.engine.onBoard fun b => { b with published := [] } } f.deliver
      f.engine.board.published :=
  routed_foldl _ _

/-! ## What goes on beside the timer and the player -/

/-- The timer, the player and what they have for each other stay as they are, and a first screen
does not come back. -/
structure Spares (f after : Firmware) : Prop where
  timer : after.timer = f.timer
  timerCommand : after.timerCommand = f.timerCommand
  player : after.player = f.player
  deadline : after.deadline = f.deadline
  now : f.now ≤ after.now
  follows : f.display = .following → after.display = .following

/-- Nothing is played, published or queued for the player. -/
structure Still (f after : Firmware) : Prop extends Spares f after where
  queue : after.playerQueue = f.playerQueue
  board : after.engine.board = f.engine.board
  owning : after.console.owning = f.console.owning

/-- All that others do to the timer and the player: a program may be loaded, and events that are no
ends of a time join the queue as far as there is room, none of them a start unless a program is
loaded. The console may own the relay then. -/
structure Beside (f after : Firmware) (loaded : Option Program) (owning : Bool) : Prop
    extends Spares f after where
  quiet : after.engine.board.published = []
  program : after.engine.board.program = (loaded.map Program.rewind).getD f.engine.board.program
  playable : ∀ p ∈ loaded, p.Playable
  owner : after.console.owning = owning
  queue : ∃ joined, after.playerQueue = f.playerQueue ++ joined ∧
    ∀ e ∈ joined, (∀ n, e ≠ .elapsed n) ∧ (e.isStart = true → loaded.isSome)
  bounded : f.playerQueue.length ≤ playerQueueSize → after.playerQueue.length ≤ playerQueueSize

variable {f mid after : Firmware} {loaded loadedLater : Option Program} {owning owningLater : Bool}
  {events : List Event}

theorem Spares.trans (first : f.Spares mid) (second : mid.Spares after) : f.Spares after :=
  ⟨second.timer.trans first.timer, second.timerCommand.trans first.timerCommand,
    second.player.trans first.player, second.deadline.trans first.deadline,
    Nat.le_trans first.now second.now, second.follows ∘ first.follows⟩

theorem Still.beside (still : f.Still after) (quiet : f.engine.board.published = []) :
    f.Beside after none f.console.owning :=
  { still.toSpares with
    quiet := by rw [still.board, quiet]
    program := by rw [still.board]; rfl
    playable := nofun
    owner := still.owning
    queue := ⟨[], by rw [still.queue, List.append_nil], nofun⟩
    bounded := by rw [still.queue]; exact id }

theorem Beside.trans (first : f.Beside mid loaded owning)
    (second : mid.Beside after loadedLater owningLater) :
    f.Beside after (loadedLater.or loaded) owningLater := by
  obtain ⟨joined, queue, unposted⟩ := first.queue
  obtain ⟨joinedLater, queueLater, unpostedLater⟩ := second.queue
  refine { first.toSpares.trans second.toSpares with
    quiet := second.quiet
    program := ?_
    playable := ?_
    owner := second.owner
    queue := ⟨joined ++ joinedLater, by rw [queueLater, queue, List.append_assoc], ?_⟩
    bounded := fun room => second.bounded (first.bounded room) }
  · rw [second.program, first.program]
    cases loadedLater <;> rfl
  · cases loadedLater with
    | none => exact first.playable
    | some p => exact second.playable
  · intro e member
    rcases List.mem_append.mp member with early | late
    · exact ⟨(unposted e early).1, fun start => by simp [(unposted e early).2 start]⟩
    · exact ⟨(unpostedLater e late).1, fun start => by simp [(unpostedLater e late).2 start]⟩

theorem Beside.still (beside : f.Beside mid loaded owning) (still : mid.Still after) :
    f.Beside after loaded owning := by
  rw [← beside.owner]
  exact beside.trans (still.beside beside.quiet)

/-- Something is done to the board beside the timer and the player, and what that publishes is
routed. -/
theorem Spares.beside_deliver (spares : f.Spares mid) (queue : mid.playerQueue = f.playerQueue)
    (published : mid.engine.board.published = events)
    (unposted : ∀ e ∈ events, (∀ n, e ≠ .elapsed n) ∧ (e.isStart = true → loaded.isSome))
    (program : mid.engine.board.program = (loaded.map Program.rewind).getD f.engine.board.program)
    (playable : ∀ p ∈ loaded, p.Playable) : f.Beside mid.deliver loaded mid.console.owning := by
  obtain ⟨⟨⟨taken, joined, inside⟩, bounded, -⟩, display, log, same⟩ := mid.routed_deliver
  rw [published] at inside
  have kept : mid.Spares mid.deliver := by
    rw [same]
    exact ⟨rfl, rfl, rfl, rfl, Nat.le_refl _, id⟩
  refine { spares.trans kept with
    quiet := by rw [same]; rfl
    program := by rw [same]; exact program
    playable
    owner := by rw [same]
    queue := ⟨taken, joined.trans (congrArg (· ++ taken) queue), fun e member => ?_⟩
    bounded := by rw [← queue]; exact bounded }
  exact unposted e (List.mem_filter.mp (inside.mem member)).1

theorem still_report (f : Firmware) (level : LogLevel) (text : String) :
    f.Still (f.report level text) := ⟨⟨rfl, rfl, rfl, rfl, Nat.le_refl _, id⟩, rfl, rfl, rfl⟩

theorem still_runSampler (f : Firmware) : f.Still f.runSampler := by
  unfold runSampler
  dsimp only
  repeat' split
  all_goals exact ⟨⟨rfl, rfl, rfl, rfl, Nat.le_refl _, id⟩, rfl, rfl, rfl⟩

theorem beside_runWiring (quiet : f.engine.board.published = []) :
    f.Beside f.runWiring none f.console.owning := by
  unfold runWiring
  split
  · rename_i wiring _
    refine Spares.beside_deliver ⟨rfl, rfl, rfl, rfl, Nat.le_refl _, id⟩ rfl rfl ?_ rfl nofun
    intro e member
    change e ∈ f.engine.board.published ++ (f.engine.board.contact.rewire wiring).2 at member
    rw [quiet, List.nil_append] at member
    rcases Contact.notices_rewire _ _ e member with rfl | rfl <;> exact ⟨nofun, nofun⟩
  · exact Still.beside ⟨⟨rfl, rfl, rfl, rfl, Nat.le_refl _, id⟩, rfl, rfl, rfl⟩ quiet

theorem beside_runHealth (quiet : f.engine.board.published = []) :
    f.Beside f.runHealth none f.console.owning := by
  unfold runHealth
  split
  · -- Whether the player is asked for the first time or has missed a time, it is asked.
    have asks (mid : Firmware) (still : f.Still mid) :
        f.Beside (mid.onBoard (·.publish .healthCheck)) none f.console.owning := by
      let asked : Firmware := { mid with engine := mid.engine.onBoard (·.publish .healthCheck) }
      have spares : f.Spares asked :=
        ⟨still.timer, still.timerCommand, still.player, still.deadline, still.now, still.follows⟩
      have program : mid.engine.board.program = f.engine.board.program :=
        congrArg Board.program still.board
      rw [← still.owning]
      refine spares.beside_deliver still.queue rfl ?_ program nofun
      intro e member
      change e ∈ mid.engine.board.published ++ [.healthCheck] at member
      rw [still.board, quiet, List.nil_append, List.mem_singleton] at member
      subst member
      exact ⟨nofun, nofun⟩
    refine asks _ ?_
    dsimp only
    repeat' split
    all_goals exact ⟨⟨rfl, rfl, rfl, rfl, Nat.le_refl _, id⟩, rfl, rfl, rfl⟩
  · exact Still.beside ⟨⟨rfl, rfl, rfl, rfl, Nat.le_refl _, id⟩, rfl, rfl, rfl⟩ quiet

/-- The desk at which the console processes a line. -/
def desk (f : Firmware) : Desk FlashStore :=
  { console := f.console, engine := f.engine, output := { room := some replySize } }

/-- The console is done with its line and answers. -/
def answer (f : Firmware) (result : Except OutputError Unit) (text : String) : Firmware :=
  let f := match result with
    | .ok () => f
    | .error _ => f.report .warn "Console reply truncated"
  { f with editor := f.editor.clear }.send (text ++ Console.prompt)

theorem still_answer (f : Firmware) (result : Except OutputError Unit) (text : String) :
    f.Still (f.answer result text) := by
  unfold answer
  cases result <;> exact ⟨⟨rfl, rfl, rfl, rfl, Nat.le_refl _, id⟩, rfl, rfl, rfl⟩

/-- The board with the console and the engine of a desk, before what was published is routed. -/
def leaveDesk (f : Firmware) (d : Desk FlashStore) : Firmware :=
  { (f.send "\r\n").report .debug ("Console: " ++ String.ofList f.editor.line) with
    console := d.console, engine := d.engine }

theorem submitLine_eq (f : Firmware) :
    let done := Desk.process (String.ofList f.editor.line) f.desk
    f.submitLine = (f.leaveDesk done.2).deliver.answer done.1 done.2.output.text := rfl

theorem beside_submitLine (quiet : f.engine.board.published = []) :
    f.Beside f.submitLine (Desk.loads? (String.ofList f.editor.line) f.desk)
      (Desk.owningAfter (String.ofList f.editor.line) f.console.owning) := by
  have owning := Desk.owning_process (String.ofList f.editor.line) f.desk
  obtain ⟨events, commanded, effect⟩ := Desk.told_process (String.ofList f.editor.line) f.desk
  rw [submitLine_eq]
  generalize Desk.process (String.ofList f.editor.line) f.desk = done
    at commanded effect owning ⊢
  have playable : ∀ p ∈ Desk.loads? (String.ofList f.editor.line) f.desk, p.Playable :=
    fun p => Desk.playable_of_loads?
  generalize Desk.loads? (String.ofList f.editor.line) f.desk = loaded at commanded playable ⊢
  have spares : f.Spares (f.leaveDesk done.2) := ⟨rfl, rfl, rfl, rfl, Nat.le_refl _, id⟩
  have published : done.2.engine.board.published = events := by
    rw [commanded.published]
    exact congrArg (· ++ events) quiet
  have left : (f.leaveDesk done.2).console.owning =
      Desk.owningAfter (String.ofList f.editor.line) f.console.owning := owning
  rw [← left]
  refine (spares.beside_deliver rfl published ?_ commanded.program playable).still
    (still_answer _ _ _)
  intro e member
  obtain ⟨ends, start⟩ := effect.unposted e member
  exact ⟨ends, fun starts => commanded.started.mp (start starts)⟩

/-! ## Who plays what -/

/-- Who makes a program the active one. -/
inductive Load
  | console (p : Program)
  | display (p : Program)

def Load.program : Load → Program
  | console p | display p => p

/-- The line that the console completes when it takes what has arrived first. -/
def completed? (f : Firmware) : Option String :=
  match f.received with
  | .byte b :: _ =>
    match f.editor.feed b with
    | (.submit, editor) => some (String.ofList editor.line)
    | _ => none
  | _ => none

/-- The program that the console plays then. -/
def typed? (f : Firmware) : Option Program := f.completed?.bind (Desk.loads? · f.desk)

/-- The program that the display plays when its first screen ends, if that is so and one is to play
at the start. -/
def booted? (f : Firmware) : Option Program :=
  match f.display with
  | .splash untilMs =>
    if untilMs ≤ f.now then (Engine.manualTimes f.engine).2.booted? else none
  | .following => none

/-- What is played in a turn. -/
def load? (f : Firmware) : Turn → Option Load
  | .console => f.typed?.map .console
  | .display => f.booted?.map .display
  | _ => none

/-- The console takes a character, or a line is complete and processed. -/
theorem turn_console (f : Firmware) :
    f.completed? = none ∧ f.Still (f.turn .console) ∨
      ∃ mid : Firmware, f.completed? = some (String.ofList mid.editor.line) ∧ f.Still mid ∧
        mid.desk = f.desk ∧ f.turn .console = mid.submitLine := by
  unfold turn completed?
  cases arrived : f.received with
  | nil => exact .inl ⟨rfl, ⟨rfl, rfl, rfl, rfl, Nat.le_refl _, id⟩, rfl, rfl, rfl⟩
  | cons item rest =>
    cases item with
    | overrun => exact .inl ⟨rfl, ⟨rfl, rfl, rfl, rfl, Nat.le_refl _, id⟩, rfl, rfl, rfl⟩
    | byte b =>
      unfold receive
      dsimp only
      cases f.editor.feed b with
      | mk edit editor =>
        cases edit with
        | submit =>
          exact .inr ⟨{ f with received := rest, editor }, rfl,
            ⟨⟨rfl, rfl, rfl, rfl, Nat.le_refl _, id⟩, rfl, rfl, rfl⟩, rfl, rfl⟩
        | _ => exact .inl ⟨rfl, ⟨rfl, rfl, rfl, rfl, Nat.le_refl _, id⟩, rfl, rfl, rfl⟩

/-- Whether the console owns the relay after a turn. -/
def ownsAfter (f : Firmware) : Turn → Bool
  | .console => f.completed?.elim f.console.owning (Desk.owningAfter · f.console.owning)
  | _ => f.console.owning

theorem beside_console (quiet : f.engine.board.published = []) :
    f.Beside (f.turn .console) f.typed? (f.ownsAfter .console) := by
  unfold typed? ownsAfter
  rcases f.turn_console with ⟨unread, still⟩ | ⟨mid, completed, still, desk, submits⟩
  · rw [unread]
    exact still.beside quiet
  · have played := (still.beside quiet).trans (beside_submitLine (still.board ▸ quiet))
    rw [Option.or_none, desk, still.owning] at played
    rw [completed, submits]
    exact played

/-- What the engine is told when the first screen ends. -/
theorem beside_onEngine {α : Type} {step : StateM (Engine FlashStore) α}
    (quiet : f.engine.board.published = []) (board : (step f.engine).2.board =
      f.engine.board.playIf loaded) (playable : ∀ p ∈ loaded, p.Playable) :
    f.Beside (f.onEngine step).2 loaded f.console.owning := by
  have commanded := f.engine.board.commanded_playIf loaded
  rw [← board] at commanded
  have published := commanded.published
  rw [quiet, List.nil_append] at published
  have spares : f.Spares { f with engine := (step f.engine).2 } :=
    ⟨rfl, rfl, rfl, rfl, Nat.le_refl _, id⟩
  refine spares.beside_deliver rfl published ?_ commanded.program playable
  intro e member
  obtain ⟨p, plays, rfl⟩ := List.mem_map.mp member
  refine ⟨nofun, fun _ => ?_⟩
  rw [Option.mem_toList.mp plays]
  rfl

theorem playable_booted? {e : Engine FlashStore} : ∀ p ∈ e.booted?, p.Playable := by
  intro p boots
  obtain ⟨slot, -, rfl⟩ := Option.map_eq_some_iff.mp boots
  exact Catalog.playable_played _ _

theorem catalog_deliver (f : Firmware) : f.deliver.engine.catalog = f.engine.catalog := by
  obtain ⟨display, log, same⟩ := f.routed_deliver.others
  rw [same]
  rfl

theorem beside_endSplash (quiet : f.engine.board.published = []) :
    f.Beside f.endSplash (Engine.manualTimes f.engine).2.booted? f.console.owning ∧
      f.endSplash.display = .following := by
  let follows : Firmware := { f with display := .following }
  let looked := (follows.onEngine Engine.manualTimes).2
  obtain ⟨times, stored, selected, same⟩ : ∃ times stored selected, f.endSplash =
      (((looked.report .info times).report .info stored).onEngine Engine.boot).2.report
        .info selected := ⟨_, _, _, rfl⟩
  have begins : f.Still follows :=
    ⟨⟨rfl, rfl, rfl, rfl, Nat.le_refl _, fun _ => rfl⟩, rfl, rfl, rfl⟩
  have finds : follows.Beside looked none f.console.owning := beside_onEngine quiet rfl nofun
  have told := (finds.still (still_report _ .info times)).still (still_report _ .info stored)
  have plays := beside_onEngine told.quiet (Engine.board_boot _) playable_booted?
  rw [same]
  have catalog : looked.engine.catalog = (Engine.manualTimes f.engine).2.catalog :=
    catalog_deliver _
  have boots : looked.engine.booted? = (Engine.manualTimes f.engine).2.booted? := by
    unfold Engine.booted?
    rw [catalog]
  have played := (told.trans plays).still (still_report _ .info selected)
  rw [Option.or_none] at played
  rw [← boots]
  have whole := (begins.beside quiet).trans played
  rw [Option.or_none, told.owner] at whole
  exact ⟨whole, played.follows rfl⟩

theorem still_showEvents (f : Firmware) : f.Still f.showEvents :=
  ⟨⟨rfl, rfl, rfl, rfl, Nat.le_refl _, id⟩, rfl, rfl, rfl⟩

theorem beside_runDisplay (quiet : f.engine.board.published = []) :
    f.Beside f.runDisplay f.booted? f.console.owning := by
  unfold runDisplay booted?
  cases f.display with
  | splash untilMs =>
      dsimp only
      split
      · exact (beside_endSplash quiet).1.still (still_showEvents _)
      · exact Still.beside ⟨⟨rfl, rfl, rfl, rfl, Nat.le_refl _, id⟩, rfl, rfl, rfl⟩ quiet
  | following => exact (still_showEvents f).beside quiet

/-- Once the display has played something, the first screen is over. -/
theorem following_of_booted? {p : Program} (boots : f.booted? = some p)
    (quiet : f.engine.board.published = []) : f.runDisplay.display = .following := by
  unfold booted? at boots
  unfold runDisplay
  cases shows : f.display with
  | splash untilMs =>
      rw [shows] at boots
      dsimp only at boots ⊢
      by_cases due : untilMs ≤ f.now
      · rw [if_pos due]
        exact (beside_endSplash quiet).2
      · rw [if_neg due] at boots
        cases boots
  | following =>
      rw [shows] at boots
      cases boots

/-- All that is done beside the timer and the player. -/
theorem beside_turn (quiet : f.engine.board.published = []) {t : Turn} (timer : t ≠ .timer)
    (player : t ≠ .player) :
    f.Beside (f.turn t) ((f.load? t).map Load.program) (f.ownsAfter t) := by
  cases t with
  | timer => exact absurd rfl timer
  | player => exact absurd rfl player
  | sampler => exact (still_runSampler f).beside quiet
  | wiring => exact beside_runWiring quiet
  | console =>
      rw [load?, Option.map_map]
      have same : f.typed?.map (Load.program ∘ .console) = f.typed? := Option.map_id'
      rw [same]
      exact beside_console quiet
  | health => exact beside_runHealth quiet
  | display =>
      rw [load?, Option.map_map]
      have same : f.booted?.map (Load.program ∘ .display) = f.booted? := Option.map_id'
      rw [same]
      exact beside_runDisplay quiet
  | tick => exact Still.beside ⟨⟨rfl, rfl, rfl, rfl, Nat.le_succ _, id⟩, rfl, rfl, rfl⟩ quiet
  | _ => exact Still.beside ⟨⟨rfl, rfl, rfl, rfl, Nat.le_refl _, id⟩, rfl, rfl, rfl⟩ quiet

/-! ## The timer runs -/

/-- The epoch whose end the timer has to post. -/
def due? (f : Firmware) : Option UInt32 :=
  match f.timer with
  | .idle => none
  | .armed deadline epoch => if deadline ≤ f.now then some epoch else none
  | .posting epoch => some epoch

/-- All that the timer does: it takes what it is told, after it has posted the end of a time if there
is one to post, or it waits for room. -/
inductive Ran (f : Firmware) : Firmware → Prop
  | takes (unexpired : f.due? = none) : Ran f f.takeCommand
  | posts {epoch : UInt32} (due : f.due? = some epoch)
      (room : f.playerQueue.length < playerQueueSize) : Ran f (takeCommand
        { f with playerQueue := f.playerQueue ++ [.elapsed epoch], timer := .idle })
  | blocks {epoch : UInt32} (due : f.due? = some epoch)
      (full : ¬ f.playerQueue.length < playerQueueSize) : Ran f { f with timer := .posting epoch }

theorem ran_postElapsed {epoch : UInt32} (due : f.due? = some epoch) :
    f.Ran (f.postElapsed epoch) := by
  unfold postElapsed
  split
  · rename_i room
    exact .posts due room
  · rename_i full
    exact .blocks due full

theorem ran_runTimer (f : Firmware) : f.Ran f.runTimer := by
  unfold runTimer
  split
  · rename_i idle
    exact .takes (by rw [due?, idle])
  · rename_i deadline epoch armed
    split
    · rename_i past
      exact ran_postElapsed (by rw [due?, armed]; exact if_pos past)
    · rename_i early
      exact .takes (by rw [due?, armed]; exact if_neg early)
  · rename_i epoch posting
    exact ran_postElapsed (by rw [due?, posting])

theorem takeCommand_eq (f : Firmware) : f.takeCommand =
    { f with timer := (f.timerCommand.map timerAfter).getD f.timer, timerCommand := none } := by
  unfold takeCommand
  split
  · rename_i command told
    rw [told]
    rfl
  · rename_i silent
    rw [silent]
    obtain ⟨⟩ := f
    cases silent
    rfl

/-! ## The player acts on an event -/

/-- What the player makes of an event. -/
def played (f : Firmware) (e : Event) : Played := f.player.handle f.engine.board f.remainingMs e

/-- What the timer task is told when the player asks for something. -/
def commandFor (f : Firmware) : TimerRequest → TimerCommand
  | .start durationMs epoch => .start (f.now + durationMs.toNat) epoch
  | .stop => .stop

/-- All that comes of an event that the player acts on. -/
structure Acted (f after : Firmware) (e : Event) : Prop where
  player : after.player = (f.played e).player
  board : after.engine.board = { (f.played e).board with published := [] }
  timer : after.timer = f.timer
  timerCommand : after.timerCommand = ((f.played e).request.map f.commandFor).or f.timerCommand
  now : after.now = f.now
  console : after.console = f.console
  display : after.display = f.display
  joins : Joins f.playerQueue (f.played e).board.published after.playerQueue

/-- The player notes that an event is there. -/
def noted (f : Firmware) : Event → Firmware
  | .elapsed _ => f
  | .healthCheck => { f with alive := true }
  | e => f.report .debug ("Sequencer: " ++ Log.event e)

/-- The player has asked for something, if it has. -/
def asked (f : Firmware) : Option TimerRequest → Firmware
  | some request => f.requestTimer request
  | none => f

theorem handleEvent_eq (f : Firmware) (e : Event) :
    let played := (f.noted e).played e
    f.handleEvent e =
      ({ (f.noted e).asked played.request with player := played.player }.onBoard
        fun _ => played.board) := by
  cases e <;> rfl

theorem asked_noted (f : Firmware) (e : Event) (request : Option TimerRequest) :
    ∃ alive log deadline, (f.noted e).asked request =
      { f with
        alive, log, deadline
        timerCommand := (request.map f.commandFor).or f.timerCommand } := by
  cases request with
  | none => cases e <;> exact ⟨_, _, _, rfl⟩
  | some request => cases request <;> cases e <;> exact ⟨_, _, _, rfl⟩

theorem acted_handleEvent (f : Firmware) (e : Event) : f.Acted (f.handleEvent e) e := by
  have noted : (f.noted e).played e = f.played e := by cases e <;> rfl
  obtain ⟨alive, log, deadline, asked⟩ := f.asked_noted e (f.played e).request
  rw [handleEvent_eq, noted]
  dsimp only
  rw [asked]
  obtain ⟨joins, display, reported, same⟩ := routed_deliver { f with
    alive, log, deadline
    timerCommand := ((f.played e).request.map f.commandFor).or f.timerCommand
    player := (f.played e).player
    engine := f.engine.onBoard fun _ => (f.played e).board }
  unfold onBoard
  rw [same]
  exact ⟨rfl, rfl, rfl, rfl, rfl, rfl, rfl, joins⟩

/-- A board that has nothing to tell is left as it is. -/
theorem deliver_quiet (quiet : f.engine.board.published = []) : f.deliver = f := by
  obtain ⟨config, jumper, ⟨catalog, ⟨contact, active, state, counter, published⟩⟩⟩ := f
  simp only at quiet
  subst quiet
  rfl

/-- The player stops and leaves the rest of its time. -/
theorem handleEvent_stop (quiet : f.engine.board.published = [])
    (running : f.player.playback = .running) : ∃ log, f.handleEvent .stop = { f with
      log, deadline := none, timerCommand := some .stop
      player := { f.player with
        playback := .paused, timeLeftMs := f.remainingMs, epoch := f.player.epoch + 1 } } := by
  have pauses : (f.noted .stop).played .stop = {
      player := { f.player with
        playback := .paused, timeLeftMs := f.remainingMs, epoch := f.player.epoch + 1 }
      board := f.engine.board, request := some .stop } := by
    have same : (f.noted .stop).remainingMs = f.remainingMs := rfl
    have still : (f.noted .stop).player = f.player := rfl
    simp only [played, Player.handle, Player.pause, still, running, same]
    rfl
  refine ⟨(f.noted .stop).log, ?_⟩
  rw [handleEvent_eq, pauses]
  exact deliver_quiet quiet

/-- The player goes on, and waits for the rest of its time. -/
theorem handleEvent_resume (quiet : f.engine.board.published = [])
    (paused : f.player.playback = .paused) (left : f.player.timeLeftMs ≠ 0) :
    let deadline := f.now + f.player.timeLeftMs.toNat
    ∃ log, f.handleEvent (.start false) = { f with
      log, deadline := some deadline, timerCommand := some (.start deadline f.player.epoch)
      player := { f.player with playback := .running, timeLeftMs := 0 } } := by
  intro deadline
  have resumes : (f.noted (.start false)).played (.start false) = {
      player := { f.player with playback := .running, timeLeftMs := 0 }
      board := f.engine.board
      request := some (.start f.player.timeLeftMs f.player.epoch) } := by
    have still : (f.noted (.start false)).player = f.player := rfl
    simp only [played, Player.handle, Player.resume, still, paused, left, ↓reduceIte]
    rfl
  refine ⟨(f.noted (.start false)).log, ?_⟩
  rw [handleEvent_eq, resumes]
  exact deliver_quiet quiet

end Firmware

end RelayTimer
