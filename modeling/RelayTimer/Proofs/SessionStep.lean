import RelayTimer.Proofs.DisplayedState
import RelayTimer.Proofs.Orders

set_option autoImplicit false

/-!
A session from one moment to the next, and what becomes of it once the console has given the relay
back: unless something is started, the player comes to rest and stays so.
-/
namespace RelayTimer

namespace Player

/-- Whatever a player does, the program of the board stays. -/
theorem program_handle (p : Player) (b : Board) (remainingMs : UInt32) (e : Event) :
    (p.handle b remainingMs e).board.program = b.program := by
  have acts (b : Board) (kind : StepKind) : (act b kind).program = b.program := by
    unfold act
    split <;> rfl
  have plays (own : Player) (b : Board) : (own.playNext b).board.program = b.program := by
    cases here : own.program.next? with
    | none => rw [playNext_ended here]; rfl
    | some found =>
        obtain ⟨step, program⟩ := found
        by_cases loops : step.kind = .loops
        · rw [playNext_looped here loops]; rfl
        · rw [playNext_stepped here loops]; exact acts b step.kind
  have outcome := handle_handled p b remainingMs e
  generalize p.handle b remainingMs e = played at outcome
  cases outcome with
  | advanced advance =>
      rw [plays]
      cases advance <;> rfl
  | _ => rfl

/-- A player that does not run is deaf to all but starts and the ends of the times of its epoch. -/
theorem handle_deaf {p : Player} (rests : p.playback ≠ .running) (b : Board) (remainingMs : UInt32)
    {e : Event} (unstarted : ∀ f, e ≠ .start f) (dead : e ≠ .elapsed p.epoch) :
    p.handle b remainingMs e = { player := p, board := b } := by
  have outcome := handle_handled p b remainingMs e
  generalize p.handle b remainingMs e = played at outcome
  cases outcome with
  | advanced advance =>
      cases advance with
      | restart => exact absurd rfl (unstarted true)
      | resume => exact absurd rfl (unstarted false)
      | elapsed => exact absurd rfl dead
  | rearmed command => exact absurd command (unstarted false)
  | paused command running => exact absurd running rests
  | refused command => exact absurd command (unstarted false)
  | ignored => rfl

end Player

namespace Event

def isStart : Event → Bool
  | start _ => true
  | _ => false

end Event

/-- Events without a start leave a player at rest that is so. -/
theorem Playback.after_unstarted {p : Playback} (rests : p ≠ .running) {e : Event}
    (unstarted : e.isStart = false) : p.after e ≠ .running := by
  cases e with
  | start f => cases unstarted
  | stop => cases p <;> decide
  | _ => exact rests

theorem RunState.foldl_after_stopped {events : List Event}
    (unstarted : ∀ e ∈ events, e.isStart = false ∧ e ≠ .consoleTook) :
    events.foldl RunState.after .stopped = .stopped := by
  induction events with
  | nil => rfl
  | cons e rest ih =>
      have stays : RunState.stopped.after e = .stopped := by
        obtain ⟨here, others⟩ := unstarted e List.mem_cons_self
        cases e with
        | start f => cases here
        | consoleTook => exact absurd rfl others
        | _ => rfl
      rw [List.foldl_cons, stays]
      exact ih fun other member => unstarted other (List.mem_cons_of_mem _ member)

namespace Session

variable {σ : Type}

/-- How often something has been asked to start. -/
def starts (s : Session σ) : Nat := s.log.countP Event.isStart

/-- What becomes of a session at once. Where no event gets too old, an end of a time that is of the
player's epoch is one that it waits for. -/
inductive Step (fresh : Bool) (s : Session σ) : Session σ → Prop
  /-- It is told something. -/
  | told {after : Session σ} {loaded : Option Program} {events : List Event}
      (ordered : Ordered s after loaded events) : Step fresh s after
  /-- Time passes, and ends of waits join the queue. -/
  | passes (timer : Countdown) {ends : List Event} (all : ∀ e ∈ ends, ∃ n, e = .elapsed n) :
      Step fresh s { s with timer, queue := s.queue ++ ends }
  /-- The player acts on the event queued first, or on the end of a wait. -/
  | acts {e : Event} {rest : List Event}
      (next : s.queue = e :: rest ∨ s.queue = rest ∧ ∃ n, e = .elapsed n)
      (awaited : fresh = true → e = .elapsed s.player.epoch → s.player.playback = .running) :
      Step fresh s (({ s with queue := rest } : Session σ).handle e)

theorem Step.waits {fresh : Bool} {s : Session σ} (timer : Countdown) :
    s.Step fresh { s with timer } := by
  have nothing : ∀ e ∈ ([] : List Event), ∃ n, e = .elapsed n := nofun
  have passed : s.Step fresh _ := .passes timer nothing
  rwa [List.append_nil] at passed

theorem Step.refl {fresh : Bool} (s : Session σ) : s.Step fresh s := .waits s.timer

/-- What holds of a session between two moments. -/
structure Sound (s : Session σ) : Prop where
  quiet : s.engine.board.published = []
  owner : s.console.owning = true ↔ s.engine.board.state = .consoleOwned
  playable : .start true ∈ s.queue → s.engine.board.program.Playable

/-- What the player does with an event, as the session shows it. -/
structure Acted (s after : Session σ) (e : Event) (events : List Event) : Prop where
  quiet : after.engine.board.published = []
  state : after.engine.board.state = events.foldl RunState.after s.engine.board.state
  queue : after.queue = s.queue ++ events.filter Event.isForPlayer
  log : after.log = events.reverse ++ s.log
  console : after.console = s.console
  program : after.engine.board.program = s.engine.board.program
  playback : after.player.playback = .idle ∨
    after.player.playback = s.player.playback.after e
  unstarted : ∀ n ∈ events, n.isNotice ∨ n = .ended

variable {fresh : Bool} {s after : Session σ} {e : Event} {events : List Event}

theorem handle_acted (quiet : s.engine.board.published = []) (e : Event) :
    ∃ events, Acted s (s.handle e) e events := by
  have acted {events : List Event} (told : s.engine.board.Publishes events
        (s.player.handle s.engine.board s.timer.remaining e).board)
      (playback : (s.handle e).player.playback = .idle ∨
        (s.handle e).player.playback = s.player.playback.after e)
      (unstarted : ∀ n ∈ events, n.isNotice ∨ n = .ended) : Acted s (s.handle e) e events := by
    obtain ⟨mid, handled, board, waits, logged⟩ : ∃ mid : Session σ, s.handle e = mid.collect ∧
        mid.engine.board = (s.player.handle s.engine.board s.timer.remaining e).board ∧
        mid.queue = s.queue ∧ mid.log = s.log := ⟨_, rfl, rfl, rfl, rfl⟩
    obtain ⟨empty, state, queue, log⟩ := collect_told quiet (board ▸ told)
    rw [waits] at queue
    rw [logged] at log
    rw [← handled] at empty state queue log
    exact ⟨empty, state, queue, log, rfl, s.player.program_handle _ _ e, playback, unstarted⟩
  cases s.player.handle_tells s.engine.board s.timer.remaining e with
  | ends notices silent told idle =>
      refine ⟨_, acted told (.inl idle) fun n member => ?_⟩
      rcases List.mem_append.mp member with notice | ended
      · exact .inl (silent n notice)
      · exact .inr (List.mem_singleton.mp ended)
  | goesOn notices silent told playback able =>
      exact ⟨_, acted told (.inr playback) fun n member => .inl (silent n member)⟩

namespace Acted

/-- A player starts nothing. -/
theorem isStart (acted : Acted s after e events) : ∀ n ∈ events, n.isStart = false := by
  intro n member
  rcases acted.unstarted n member with notice | rfl
  · cases n <;> first | rfl | cases notice
  · rfl

theorem ne_consoleTook (acted : Acted s after e events) : ∀ n ∈ events, n ≠ .consoleTook := by
  rintro _ member rfl
  rcases acted.unstarted _ member with notice | same
  · cases notice
  · cases same

/-- A player does not change who owns the relay. -/
theorem owned (acted : Acted s after e events) :
    after.engine.board.state = .consoleOwned ↔ s.engine.board.state = .consoleOwned := by
  rw [acted.state]
  refine RunState.foldl_after_owned (fun n member state => ?_) _
  rcases acted.unstarted n member with notice | rfl
  · rw [state.after_notice notice]
  · cases state <;> decide

/-- What a player does leaves a board stopped that is so. -/
theorem stays_stopped (acted : Acted s after e events) (stopped : s.engine.board.state = .stopped) :
    after.engine.board.state = .stopped := by
  rw [acted.state, stopped]
  exact RunState.foldl_after_stopped fun n member =>
    ⟨acted.isStart n member, acted.ne_consoleTook n member⟩

end Acted

theorem starts_le {s after : Session σ} (log : after.log = events.reverse ++ s.log) :
    s.starts ≤ after.starts ∧
      (after.starts = s.starts → ∀ e ∈ events, e.isStart = false) := by
  unfold starts
  rw [log, List.countP_append, List.countP_reverse]
  refine ⟨by omega, fun same e member => ?_⟩
  have uncounted : events.countP Event.isStart = 0 := by omega
  simpa using List.countP_eq_zero.mp uncounted e member

/-- The player acts on an event, and nothing is asked to start. -/
theorem starts_handle (quiet : s.engine.board.published = []) (e : Event) :
    (s.handle e).starts = s.starts := by
  obtain ⟨events, acted⟩ := handle_acted quiet e
  unfold starts
  rw [acted.log, List.countP_append, List.countP_reverse, List.countP_eq_zero.mpr, Nat.zero_add]
  simpa using acted.isStart

theorem Step.log (step : s.Step fresh after) (sound : s.Sound) :
    ∃ events : List Event, after.log = events.reverse ++ s.log := by
  cases step with
  | told ordered => exact ⟨_, ordered.log⟩
  | passes timer all => exact ⟨[], rfl⟩
  | @acts e rest next awaited =>
      obtain ⟨events, acted⟩ := handle_acted (s := { s with queue := rest }) sound.quiet e
      exact ⟨events, acted.log⟩

/-- To start is left to those who have a program for it. -/
theorem Sound.step (sound : s.Sound) (step : s.Step fresh after) : after.Sound := by
  cases step with
  | @told _ loaded events ordered =>
      refine ⟨ordered.quiet, ordered.owner, fun waits => ?_⟩
      rw [ordered.queue] at waits
      rw [ordered.program]
      cases loads : loaded with
      | some p =>
          exact ordered.playable p loads
      | none =>
          rcases List.mem_append.mp waits with before | new
          · exact sound.playable before
          · have started := ordered.started.mp (List.mem_filter.mp new).1
            rw [loads] at started
            cases started
  | passes timer all =>
      refine ⟨sound.quiet, sound.owner, fun waits => ?_⟩
      rcases List.mem_append.mp waits with before | ends
      · exact sound.playable before
      · obtain ⟨n, same⟩ := all _ ends
        cases same
  | @acts e rest next awaited =>
      obtain ⟨events, acted⟩ := handle_acted (s := { s with queue := rest }) sound.quiet e
      refine ⟨acted.quiet, ?_, fun waits => ?_⟩
      · rw [acted.console, acted.owned]
        exact sound.owner
      · rw [acted.queue] at waits
        rw [acted.program]
        rcases List.mem_append.mp waits with before | new
        · apply sound.playable
          rcases next with first | ⟨same, -⟩
          · rw [first]
            exact List.mem_cons_of_mem _ before
          · rw [same]
            exact before
        · have started := acted.isStart _ (List.mem_filter.mp new).1
          cases started

end Session

/-- What is queued brings the player to rest: a stop does that no start comes behind, or the player
is at rest already and there is no start. -/
inductive Settles : List Event → Playback → Prop
  | stops {before behind : List Event} {p : Playback}
      (unstarted : ∀ e ∈ behind, e.isStart = false) : Settles (before ++ .stop :: behind) p
  | rests {queue : List Event} {p : Playback} (unstarted : ∀ e ∈ queue, e.isStart = false)
      (rests : p ≠ .running) : Settles queue p

namespace Settles

variable {queue new : List Event} {p after : Playback} {e : Event}

theorem append (settles : Settles queue p) (unstarted : ∀ e ∈ new, e.isStart = false) :
    Settles (queue ++ new) p := by
  cases settles with
  | stops before =>
      rw [List.append_assoc]
      refine .stops fun e member => ?_
      rcases List.mem_append.mp member with old | late
      · exact before e old
      · exact unstarted e late
  | rests before rests =>
      refine .rests (fun e member => ?_) rests
      rcases List.mem_append.mp member with old | late
      · exact before e old
      · exact unstarted e late

theorem cons (settles : Settles queue p) (unstarted : e.isStart = false) :
    Settles (e :: queue) p := by
  cases settles with
  | stops late =>
      rw [← List.cons_append]
      exact .stops late
  | rests waiting rests => exact .rests (by simpa using ⟨unstarted, waiting⟩) rests

/-- The player acts on what is queued first. -/
theorem acted (settles : Settles (e :: queue) p) (playback : after = .idle ∨ after = p.after e) :
    Settles queue after := by
  generalize whole : e :: queue = all at settles
  cases settles with
  | @stops before behind _ unstarted =>
      cases before with
      | nil =>
          obtain ⟨rfl, rfl⟩ := List.cons.inj whole
          refine .rests unstarted ?_
          rcases playback with rfl | rfl
          · decide
          · cases p <;> decide
      | cons first others =>
          obtain ⟨rfl, rfl⟩ := List.cons.inj whole
          exact .stops unstarted
  | rests unstarted rests =>
      subst whole
      refine .rests (fun other member => unstarted other (List.mem_cons_of_mem _ member)) ?_
      rcases playback with rfl | rfl
      · decide
      · exact Playback.after_unstarted rests (unstarted e List.mem_cons_self)

theorem of_nil (settles : Settles [] p) : p ≠ .running := by
  generalize none : ([] : List Event) = queue at settles
  cases settles with
  | stops => simp at none
  | rests _ rests => exact rests

end Settles

namespace Session

variable {σ : Type} {fresh : Bool} {s after : Session σ}

/-- The console has given the relay back, and what is queued brings the player to rest. -/
structure Released (s : Session σ) : Prop where
  stopped : s.engine.board.state = .stopped
  settles : Settles s.queue s.player.playback

/-- The player is at rest, and nothing is queued to start it. -/
structure Resting (s : Session σ) : Prop where
  stopped : s.engine.board.state = .stopped
  unstarted : ∀ e ∈ s.queue, e.isStart = false
  rests : s.player.playback ≠ .running

theorem Ordered.stays_stopped {loaded : Option Program} {events : List Event}
    (ordered : Ordered s after loaded events) (stopped : s.engine.board.state = .stopped)
    (unstarted : ∀ e ∈ events, e.isStart = false) : after.engine.board.state = .stopped := by
  rw [ordered.state, stopped]
  refine RunState.foldl_after_stopped fun e member => ⟨unstarted e member, ?_⟩
  rintro rfl
  cases unstarted _ (ordered.took member)

theorem filter_unstarted {events : List Event} (unstarted : ∀ e ∈ events, e.isStart = false) :
    ∀ e ∈ events.filter Event.isForPlayer, e.isStart = false :=
  fun e member => unstarted e (List.mem_filter.mp member).1

/-- As long as nothing is started. -/
theorem Released.step (released : s.Released) (sound : s.Sound) (step : s.Step fresh after)
    (unasked : after.starts = s.starts) : after.Released := by
  cases step with
  | told ordered =>
      have unstarted := (starts_le ordered.log).2 unasked
      refine ⟨ordered.stays_stopped released.stopped unstarted, ?_⟩
      rw [ordered.queue, ordered.player]
      exact released.settles.append (filter_unstarted unstarted)
  | passes timer all =>
      refine ⟨released.stopped, released.settles.append fun e member => ?_⟩
      obtain ⟨n, rfl⟩ := all e member
      rfl
  | @acts e rest next awaited =>
      obtain ⟨events, acted⟩ := handle_acted (s := { s with queue := rest }) sound.quiet e
      refine ⟨acted.stays_stopped released.stopped, ?_⟩
      rw [acted.queue]
      refine Settles.append ?_ (filter_unstarted acted.isStart)
      have settles : Settles (e :: rest) s.player.playback := by
        rcases next with first | ⟨same, n, rfl⟩
        · rw [← first]
          exact released.settles
        · rw [← same]
          exact released.settles.cons rfl
      exact settles.acted acted.playback

/-- A player at rest stays so as long as nothing is started, and where no event gets too old, nothing
moves the contact or the counter. -/
theorem Resting.step (resting : s.Resting) (sound : s.Sound) (step : s.Step fresh after)
    (unasked : after.starts = s.starts) : after.Resting ∧ (fresh = true →
      after.engine.board.contact = s.engine.board.contact ∧
      after.engine.board.counter = s.engine.board.counter) := by
  cases step with
  | told ordered =>
      have unstarted := (starts_le ordered.log).2 unasked
      refine ⟨⟨ordered.stays_stopped resting.stopped unstarted, ?_, ?_⟩, fun _ =>
        ⟨ordered.contact, ordered.counter⟩⟩
      · intro e member
        rw [ordered.queue] at member
        rcases List.mem_append.mp member with before | new
        · exact resting.unstarted e before
        · exact filter_unstarted unstarted e new
      · rw [ordered.player]
        exact resting.rests
  | passes timer all =>
      refine ⟨⟨resting.stopped, fun e member => ?_, resting.rests⟩, fun _ => ⟨rfl, rfl⟩⟩
      rcases List.mem_append.mp member with before | ends
      · exact resting.unstarted e before
      · obtain ⟨n, rfl⟩ := all e ends
        rfl
  | @acts e rest next awaited =>
      have unstarted : e.isStart = false ∧ ∀ n ∈ rest, n.isStart = false := by
        rcases next with first | ⟨same, n, rfl⟩
        · have all := resting.unstarted
          rw [first] at all
          exact List.forall_mem_cons.mp all
        · rw [← same]
          exact ⟨rfl, resting.unstarted⟩
      obtain ⟨events, acted⟩ := handle_acted (s := { s with queue := rest }) sound.quiet e
      refine ⟨⟨acted.stays_stopped resting.stopped, ?_, ?_⟩, fun always => ?_⟩
      · rw [acted.queue]
        intro n member
        rcases List.mem_append.mp member with waits | new
        · exact unstarted.2 n waits
        · exact filter_unstarted acted.isStart n new
      · rcases acted.playback with idle | same
        · rw [idle]
          decide
        · rw [same]
          exact Playback.after_unstarted resting.rests unstarted.1
      · have deaf := Player.handle_deaf resting.rests s.engine.board s.timer.remaining (e := e)
          (fun f same => by rw [same] at unstarted; cases unstarted.1)
          (fun current => resting.rests (awaited always current))
        have still : ({ s with queue := rest } : Session σ).handle e =
            ({ s with queue := rest } : Session σ).collect := by
          unfold handle
          simp only [deaf]
          rfl
        rw [still]
        exact ⟨rfl, rfl⟩

/-- To quit gives the relay back and has the player stopped behind all that is queued. -/
theorem released_of_quit [ByteStore σ] (sound : s.Sound) (owns : s.console.owning = true)
    {line : String} (reads : Request.ofLine line = .ok .quit) (room : Option Nat) :
    (s.order (.line line room)).Released := by
  have done : Desk.process line (s.deskFor room) = (.ok (), { (s.deskFor room) with
      console := { s.console with owning := false }
      engine := s.engine.onBoard fun b => b.stop.publish .consoleLeft }) := by
    unfold Desk.process
    rw [reads]
    obtain ⟨engine, player, timer, ⟨lastProgram, owning⟩, queue, log⟩ := s
    cases owns
    rfl
  have owned := sound.owner.mp owns
  have left : s.order (.line line room) = _ := congrArg Prod.snd (processLine_apply done)
  rw [left]
  refine ⟨?_, ?_⟩
  · change (s.engine.board.state.after .stop).after .consoleLeft = .stopped
    rw [owned]
    rfl
  · change Settles (s.queue ++ (s.engine.board.published ++ [Event.stop] ++
      [Event.consoleLeft]).filter Event.isForPlayer) s.player.playback
    rw [sound.quiet]
    have nothing : ∀ e ∈ ([] : List Event), e.isStart = false := nofun
    exact .stops nothing

end Session

end RelayTimer
