import RelayTimer.Proofs.ConsoleLine
import RelayTimer.Proofs.StoredImage
import RelayTimer.Store.Ram

set_option autoImplicit false

/-!
The state that a board shows, and what its player does. The state moves when an event is published,
the player acts when the event is delivered: once all events are delivered the two agree, unless the
end of a program was told while the start of another one was still on its way.
-/
namespace RelayTimer

namespace Session

variable {σ : Type}

/-- What can happen to a session. -/
inductive Move
  | load (slot : Nat)
  | play (p : Program)
  | stop
  | resume
  | line (text : String) (room : Option Nat)
  /-- The event queued first is acted on. -/
  | deliver
  /-- The wait of the timer ends, and the event for that is queued behind some of those that are
  queued already, be it none or all of them. -/
  | expire (behind : Nat)
  | wait (ms : UInt32)

theorem pump_one (s : Session σ) : s.pump 1 = match s.queue with
    | [] => s
    | e :: rest => ({ s with queue := rest }).handle e := by
  obtain ⟨engine, player, timer, console, queue, log⟩ := s
  cases queue <;> rfl

variable [ByteStore σ]

def move (s : Session σ) : Move → Session σ
  | .load slot => (s.onEngine (Engine.load slot)).2
  | .play p => s.onBoard (·.play p)
  | .stop => s.onBoard Board.stop
  | .resume => s.onBoard Board.resume
  | .line text room => (s.processLine text room).2
  | .deliver => s.pump 1
  | .expire behind =>
    let (armed, timer) := s.timer.fire
    let ends := armed.toList.map fun a => Event.elapsed a.epoch
    { s with timer, queue := s.queue.take behind ++ ends ++ s.queue.drop behind }
  | .wait ms => { s with timer := s.timer.advance ms }

/-- An end of a wait that is acted on at once is one that is queued ahead of all others. -/
theorem fire_eq_move (s : Session σ) (armed : s.timer.armed.isSome) :
    s.fire.2 = (s.move (.expire 0)).move .deliver := by
  obtain ⟨a, here⟩ := Option.isSome_iff_exists.mp armed
  simp only [fire, Countdown.fire, move, here, Option.toList_some, List.map_cons, List.map_nil,
    List.take_zero, List.nil_append, List.drop_zero, List.singleton_append, pump]

/-- The events that are published when something happens. -/
def published (s : Session σ) (m : Move) : List Event :=
  ((s.move m).log.take ((s.move m).log.length - s.log.length)).reverse

end Session

/-- Whether the end of a program was told while a start from the first step was on its way, and
nothing has been asked to start since: what that was before, what is on its way, and what has been
published. -/
def overtakes (before : Bool) (queue published : List Event) : Bool :=
  published.foldl (fun overtaken e => match e with
    | .ended => queue.contains (.start true)
    | .start _ => false
    | _ => overtaken) before

/-- A session, and whether the end of a program has overtaken a start. -/
structure Watch (σ : Type) where
  session : Session σ
  overtaken : Bool := false

namespace Watch

variable {σ : Type} [ByteStore σ]

def move (w : Watch σ) (m : Session.Move) : Watch σ :=
  { session := w.session.move m
    overtaken := overtakes w.overtaken (w.session.move m).queue (w.session.published m) }

/-- All that happens to a session that has just been set up. -/
def run (store : σ) (relay : RelayOutput) (moves : List Session.Move) : Watch σ :=
  moves.foldl move { session := Session.ofStore store relay }

end Watch

section due

/-- What playback comes to when all that is on its way is acted on and no program ends meanwhile. -/
def Playback.due (p : Playback) (queue : List Event) : Playback := queue.foldl Playback.after p

/-- Whether the last command on its way is to start, or where there is none, whether something is
played already. -/
def wanted (running : Bool) (queue : List Event) : Bool :=
  queue.foldl (fun running e => match e with
    | .start _ => true
    | .stop => false
    | _ => running) running

theorem Playback.due_append (p : Playback) (first second : List Event) :
    p.due (first ++ second) = (p.due first).due second := List.foldl_append

theorem wanted_append (running : Bool) (first second : List Event) :
    wanted running (first ++ second) = wanted (wanted running first) second := List.foldl_append

theorem Playback.due_notices (p : Playback) {events : List Event}
    (notices : ∀ e ∈ events, e.isNotice) : p.due events = p := by
  induction events with
  | nil => rfl
  | cons e rest ih =>
      have silent : p.after e = p := by
        have notice := notices e List.mem_cons_self
        cases e <;> first | rfl | cases notice
      have step : p.due (e :: rest) = (p.after e).due rest := rfl
      rw [step, silent]
      exact ih fun other member => notices other (List.mem_cons_of_mem _ member)

theorem wanted_notices (running : Bool) {events : List Event}
    (notices : ∀ e ∈ events, e.isNotice) : wanted running events = running := by
  induction events with
  | nil => rfl
  | cons e rest ih =>
      have silent : wanted running (e :: rest) = wanted running rest := by
        have notice := notices e List.mem_cons_self
        cases e <;> first | rfl | cases notice
      rw [silent]
      exact ih fun other member => notices other (List.mem_cons_of_mem _ member)

/-- Nothing but a start from the first step gets an idle player to play. -/
theorem Playback.due_idle {queue : List Event} (unstarted : .start true ∉ queue) :
    Playback.idle.due queue = .idle := by
  induction queue with
  | nil => rfl
  | cons e rest ih =>
      have stays : Playback.idle.after e = .idle := by
        cases e with
        | start fromFirst =>
            cases fromFirst with
            | true => exact absurd List.mem_cons_self unstarted
            | false => rfl
        | _ => rfl
      have step : Playback.idle.due (e :: rest) = (Playback.idle.after e).due rest := rfl
      rw [step, stays]
      exact ih fun member => unstarted (List.mem_cons_of_mem _ member)

/-- What is acted on is no longer wanted but done, unless it ends a program. -/
theorem wanted_after (p : Playback) {e : Event} (able : e = .start false → p ≠ .idle)
    (rest : List Event) :
    wanted (p = .running) (e :: rest) = wanted (p.after e = .running) rest := by
  have step : wanted (p = .running) (e :: rest) = wanted (wanted (p = .running) [e]) rest :=
    wanted_append _ [e] rest
  have done : wanted (p = .running) [e] = decide (p.after e = .running) := by
    cases e with
    | start fromFirst =>
        cases fromFirst with
        | true => rfl
        | false =>
            cases p with
            | idle => exact absurd rfl (able rfl)
            | running => rfl
            | paused => rfl
    | stop => cases p <;> rfl
    | _ => cases p <;> rfl
  rw [step, done]

end due

/-- How the state that is shown, playback, what is on its way, and an overtaking go together. -/
structure InTune (state : RunState) (p : Playback) (queue : List Event) (overtaken : Bool) :
    Prop where
  started : state = .running → wanted (p = .running) queue
  -- A start where the player stopped may be on its way: it does nothing to a player that is idle by
  -- then, so what counts is what playback comes to.
  rests : state ≠ .running → state ≠ .consoleOwned → overtaken = false → p.due queue ≠ .running
  overtaken : overtaken = true → state ≠ .running

namespace InTune

variable {state after : RunState} {p : Playback} {queue : List Event} {overtaken : Bool}

theorem starts (state : RunState) (p : Playback) (queue : List Event) (fromFirst : Bool) :
    InTune (state.after (.start fromFirst)) p (queue ++ [.start fromFirst]) false := by
  refine ⟨fun _ => ?_, fun running owned => ?_, fun impossible => (nomatch impossible)⟩
  · rw [wanted_append]
    rfl
  · cases state <;> first | exact absurd rfl running | exact absurd rfl owned

theorem stops (rests : after ≠ .running) (p : Playback) (queue : List Event) (overtaken : Bool) :
    InTune after p (queue ++ [.stop]) overtaken := by
  refine ⟨fun running => absurd running rests, fun _ _ _ => ?_, fun _ => rests⟩
  have last : p.due (queue ++ [.stop]) = (p.due queue).after .stop := p.due_append queue _
  rw [last]
  cases p.due queue <;> decide

/-- What a console line does. -/
theorem line (tune : InTune state p queue overtaken) {owning left : Bool}
    (owner : owning = true ↔ state = .consoleOwned) {events : List Event}
    (effect : LineEffect owning events left) (later : List Event) :
    InTune (events.foldl RunState.after state) p (queue ++ events.filter Event.isForPlayer)
        (overtakes overtaken later events) ∧
      (left = true ↔ events.foldl RunState.after state = .consoleOwned) := by
  cases effect with
  | none =>
      refine ⟨?_, owner⟩
      rw [List.filter_nil, List.append_nil]
      exact tune
  | plays =>
      refine ⟨starts state p queue true, owner.trans ?_⟩
      cases state <;> decide
  | takes =>
      have owned : [Event.consoleTook, .start true].foldl RunState.after state = .consoleOwned := by
        cases state <;> rfl
      rw [owned]
      exact ⟨starts .consoleOwned p queue true, by decide⟩
  | leaves =>
      rw [owner.mp rfl]
      exact ⟨stops (by decide) p queue overtaken, by decide⟩
  | leavesAgain =>
      have others : state ≠ .consoleOwned := fun owned => Bool.noConfusion (owner.mpr owned)
      have same : [Event.consoleLeft].foldl RunState.after state = state := by
        cases state <;> first | rfl | exact absurd rfl others
      rw [same]
      refine ⟨?_, owner⟩
      have silent : [Event.consoleLeft].filter Event.isForPlayer = [] := rfl
      rw [silent, List.append_nil]
      exact tune

/-- Events that are not commands change nothing, wherever they are on their way. -/
theorem insert (front back : List Event) {notices : List Event}
    (tune : InTune state p (front ++ back) overtaken) (silent : ∀ e ∈ notices, e.isNotice) :
    InTune state p (front ++ notices ++ back) overtaken := by
  have due : p.due (front ++ notices ++ back) = p.due (front ++ back) := by
    rw [Playback.due_append, Playback.due_append, Playback.due_notices _ silent,
      Playback.due_append]
  have started : wanted (p = .running) (front ++ notices ++ back) =
      wanted (p = .running) (front ++ back) := by
    rw [wanted_append, wanted_append, wanted_notices _ silent, wanted_append]
  refine ⟨?_, ?_, tune.overtaken⟩
  · rw [started]
    exact tune.started
  · rw [due]
    exact tune.rests

theorem overtakes_notices (overtaken : Bool) (queue : List Event) {notices : List Event}
    (silent : ∀ e ∈ notices, e.isNotice) : overtakes overtaken queue notices = overtaken := by
  induction notices with
  | nil => rfl
  | cons e rest ih =>
      have notice := silent e List.mem_cons_self
      have same : overtakes overtaken queue (e :: rest) = overtakes overtaken queue rest := by
        cases e <;> first | rfl | cases notice
      rw [same]
      exact ih fun other member => silent other (List.mem_cons_of_mem _ member)

/-- The event that is first on its way is acted on. -/
theorem delivered {player : Player} {b : Board} {e : Event} {played : Played} {rest : List Event}
    (tune : InTune b.state player.playback (e :: rest) overtaken)
    (tells : player.Tells b e played) :
    ∃ events, b.Publishes events played.board ∧
      InTune (events.foldl RunState.after b.state) played.player.playback
        (rest ++ events.filter Event.isForPlayer)
        (overtakes overtaken (rest ++ events.filter Event.isForPlayer) events) ∧
      (events.foldl RunState.after b.state = .consoleOwned ↔ b.state = .consoleOwned) := by
  cases tells with
  | ends notices silent told idle =>
      have shown : (notices ++ [Event.ended]).foldl RunState.after b.state = b.state.after .ended := by
        rw [List.foldl_append, RunState.foldl_after_notices _ silent]
        rfl
      have rests : b.state.after .ended ≠ .running := by
        cases b.state <;> decide
      refine ⟨_, told, ?_, ?_⟩
      · have told (queue : List Event) : overtakes overtaken queue (notices ++ [.ended]) =
            queue.contains (.start true) := by
          unfold overtakes
          rw [List.foldl_append]
          rfl
        rw [shown, told, idle]
        -- A start from the first step could still get the idle player to play, and one that is on
        -- its way has just been overtaken.
        refine ⟨fun running => absurd running rests, fun _ _ unstarted => ?_, fun _ => rests⟩
        rw [Playback.due_idle (by simpa [List.contains_eq_mem] using unstarted)]
        decide
      · rw [shown]
        cases b.state <;> decide
  | goesOn notices silent told playback able =>
      refine ⟨notices, told, ?_, by rw [RunState.foldl_after_notices _ silent]⟩
      have acted : InTune b.state (player.playback.after e) (rest ++ []) overtaken := by
        rw [List.append_nil]
        refine ⟨fun running => ?_, tune.rests, tune.overtaken⟩
        rw [← wanted_after _ able]
        exact tune.started running
      have posted : ∀ n ∈ notices.filter Event.isForPlayer, n.isNotice :=
        fun n member => silent n (List.mem_filter.mp member).1
      have both := acted.insert rest [] posted
      rw [List.append_nil] at both
      rw [RunState.foldl_after_notices _ silent, overtakes_notices _ _ silent, playback]
      exact both

end InTune

namespace Session

variable {σ : Type} {s : Session σ} {b : Board} {events : List Event}

/-- What is published goes to the log, and to the queue if it is for the player. -/
theorem collect_told (quiet : b.published = []) (told : b.Publishes events s.engine.board) :
    s.collect.engine.board.published = [] ∧
      s.collect.engine.board.state = events.foldl RunState.after b.state ∧
      s.collect.queue = s.queue ++ events.filter Event.isForPlayer ∧
      s.collect.log = events.reverse ++ s.log := by
  have all : s.engine.board.published = events := by
    rw [told.published, quiet, List.nil_append]
  refine ⟨rfl, told.state, ?_, ?_⟩
  · rw [← all]
    rfl
  · rw [← all]
    rfl

variable [ByteStore σ]

theorem published_eq {m : Move} (log : (s.move m).log = events.reverse ++ s.log) :
    s.published m = events := by
  unfold published
  rw [log, List.length_append, Nat.add_sub_cancel, List.take_left, List.reverse_reverse]

end Session

namespace Watch

variable {σ : Type} [ByteStore σ] {w : Watch σ}

/-- What holds of a session that is watched, between two moments. -/
structure Sound (w : Watch σ) : Prop where
  quiet : w.session.engine.board.published = []
  owner : w.session.console.owning = true ↔ w.session.engine.board.state = .consoleOwned
  tune : InTune w.session.engine.board.state w.session.player.playback w.session.queue w.overtaken

theorem Sound.of_move {m : Session.Move} {events : List Event} {s : Session σ}
    (becomes : w.session.move m = s) (published : w.session.published m = events)
    (quiet : s.engine.board.published = [])
    (owner : s.console.owning = true ↔ s.engine.board.state = .consoleOwned)
    (tune : InTune s.engine.board.state s.player.playback s.queue
      (overtakes w.overtaken s.queue events)) : (w.move m).Sound := by
  subst becomes published
  exact ⟨quiet, owner, tune⟩

theorem Sound.collect (sound : w.Sound) {m : Session.Move} {events : List Event} {s : Session σ}
    (done : w.session.move m = s.collect) (log : s.log = w.session.log)
    (told : w.session.engine.board.Publishes events s.engine.board)
    (owner : s.console.owning = true ↔
      events.foldl RunState.after w.session.engine.board.state = .consoleOwned)
    (tune : InTune (events.foldl RunState.after w.session.engine.board.state) s.player.playback
      (s.queue ++ events.filter Event.isForPlayer)
      (overtakes w.overtaken (s.queue ++ events.filter Event.isForPlayer) events)) :
    (w.move m).Sound := by
  obtain ⟨quiet, state, queue, logged⟩ := Session.collect_told sound.quiet told
  have published : w.session.published m = events :=
    Session.published_eq (by rw [done, logged, log])
  refine .of_move done published quiet ?_ ?_
  · rw [state]
    exact owner
  · rw [state, queue]
    exact tune

/-- Nothing is published, and the queue has at most more events that are not commands. -/
theorem Sound.silent (sound : w.Sound) {m : Session.Move} (log : (w.session.move m).log = w.session.log)
    (engine : (w.session.move m).engine = w.session.engine)
    (console : (w.session.move m).console = w.session.console)
    (player : (w.session.move m).player = w.session.player)
    (tune : InTune w.session.engine.board.state w.session.player.playback
      (w.session.move m).queue w.overtaken) : (w.move m).Sound := by
  have published : w.session.published m = [] := Session.published_eq (by rw [log]; rfl)
  refine .of_move rfl published ?_ ?_ ?_
  · rw [engine]
    exact sound.quiet
  · rw [console, engine]
    exact sound.owner
  · rw [engine, player]
    exact tune

theorem Sound.plays (sound : w.Sound) {m : Session.Move} {fromFirst : Bool} {s : Session σ}
    (done : w.session.move m = s.collect) (log : s.log = w.session.log)
    (told : w.session.engine.board.Publishes [.start fromFirst] s.engine.board)
    (console : s.console = w.session.console) (player : s.player = w.session.player)
    (queue : s.queue = w.session.queue) : (w.move m).Sound := by
  apply sound.collect done log told
  · rw [console]
    refine sound.owner.trans ?_
    cases fromFirst <;> cases w.session.engine.board.state <;> decide
  · rw [player, queue]
    exact InTune.starts _ _ _ fromFirst

/-- Whatever happens. -/
theorem Sound.move (sound : w.Sound) (m : Session.Move) : (w.move m).Sound := by
  cases m with
  | load slot => exact sound.plays rfl rfl (Board.publishes_play _ _) rfl rfl rfl
  | play p => exact sound.plays rfl rfl (Board.publishes_play _ p) rfl rfl rfl
  | stop =>
      refine sound.collect rfl rfl (Board.publishes_publish _ .stop) ?_ ?_
      · refine sound.owner.trans ?_
        cases w.session.engine.board.state <;> decide
      · refine InTune.stops ?_ _ _ _
        cases w.session.engine.board.state <;> decide
  | resume => exact sound.plays rfl rfl (Board.publishes_publish _ _) rfl rfl rfl
  | line text room =>
      obtain ⟨events, told, effect⟩ := Desk.has_process text
        { console := w.session.console, engine := w.session.engine, output := { room } }
      obtain ⟨tune, owner⟩ := sound.tune.line sound.owner effect
        (w.session.queue ++ events.filter Event.isForPlayer)
      exact sound.collect rfl rfl told owner tune
  | deliver =>
      cases waiting : w.session.queue with
      | nil =>
          have same : w.session.move .deliver = w.session := by
            simp only [Session.move, Session.pump_one, waiting]
          refine sound.silent ?_ ?_ ?_ ?_ ?_ <;> rw [same]
          exact sound.tune
      | cons e rest =>
          have acts : w.session.move .deliver = ({ w.session with queue := rest }).handle e := by
            simp only [Session.move, Session.pump_one, waiting]
          have tune := sound.tune
          rw [waiting] at tune
          obtain ⟨events, told, later, owner⟩ := tune.delivered
            (w.session.player.handle_tells w.session.engine.board w.session.timer.remaining e)
          exact sound.collect acts rfl told (sound.owner.trans owner.symm) later
  | expire behind =>
      refine sound.silent rfl rfl rfl rfl ?_
      have whole : w.session.queue.take behind ++ w.session.queue.drop behind = w.session.queue :=
        List.take_append_drop behind _
      have tune := sound.tune
      rw [← whole] at tune
      refine tune.insert _ _ ?_
      intro e member
      obtain ⟨a, -, rfl⟩ := List.mem_map.mp member
      rfl
  | wait ms => exact sound.silent rfl rfl rfl rfl sound.tune

theorem Sound.new (store : σ) (relay : RelayOutput) :
    ({ session := Session.ofStore store relay } : Watch σ).Sound := by
  refine ⟨rfl, ?_, ?_⟩
  · exact iff_of_false Bool.false_ne_true (fun owned => RunState.noConfusion owned)
  · exact ⟨fun running => RunState.noConfusion running,
      fun _ _ _ plays => Playback.noConfusion plays, fun impossible => (nomatch impossible)⟩

theorem sound_run (store : σ) (relay : RelayOutput) (moves : List Session.Move) :
    (run store relay moves).Sound := by
  have all (w : Watch σ) (sound : w.Sound) : (moves.foldl move w).Sound := by
    induction moves generalizing w with
    | nil => exact sound
    | cons m rest ih => exact ih (w.move m) (sound.move m)
  exact all _ (.new store relay)

/-- Whatever happened to a session, and whatever programs were played meanwhile: once all events
are delivered and the console does not own the relay, the board shows that a program is running
exactly if the player plays one and no start was overtaken by the end of another program. -/
theorem shows_running_iff (store : σ) (relay : RelayOutput) (moves : List Session.Move)
    (delivered : (run store relay moves).session.queue = [])
    (released : (run store relay moves).session.engine.board.state ≠ .consoleOwned) :
    (run store relay moves).session.engine.board.state = .running ↔
      (run store relay moves).session.player.playback = .running ∧
        (run store relay moves).overtaken = false := by
  have tune := (sound_run store relay moves).tune
  rw [delivered] at tune
  generalize (run store relay moves).overtaken = overtaken at tune ⊢
  constructor
  · intro running
    refine ⟨of_decide_eq_true (tune.started running), ?_⟩
    cases overtaken with
    | false => rfl
    | true => exact absurd running (tune.overtaken rfl)
  · rintro ⟨plays, rfl⟩
    apply Decidable.byContradiction
    intro rests
    exact tune.rests rests released rfl plays

/-- A program is played, paused and gone on with, and the display says so. -/
theorem shows_running_iff_resumed :
    let w := run ({ image := Image.erased imageSize } : RamStore) (.resting false)
      [.play Program.failSafe, .deliver, .stop, .deliver, .wait 500, .resume, .deliver]
    w.session.queue = [] ∧ w.session.player.playback = .running ∧
      w.session.engine.board.state = .running := by
  intro w
  have delivered : w.session.queue = [] := rfl
  have released : w.session.engine.board.state ≠ .consoleOwned :=
    fun owned => RunState.noConfusion owned
  exact ⟨delivered, rfl, (shows_running_iff _ _ _ delivered released).mpr ⟨rfl, rfl⟩⟩

/-- A program is played once more just before it ends: the end is told while the start is still on
its way, and then the display says that nothing is played. -/
theorem stopped_while_playing :
    let p : Program := { steps := [⟨.opens, 0⟩] }
    let w := run ({ image := Image.erased imageSize } : RamStore) (.resting false)
      [.play p, .deliver, .play p, .expire 0, .deliver, .deliver]
    p.Playable ∧ w.session.queue = [] ∧ w.session.engine.board.state = .stopped ∧
      w.session.player.playback = .running := by
  refine ⟨⟨⟨.opens, 0⟩, rfl, by decide⟩, rfl, rfl, rfl⟩

end Watch

end RelayTimer
