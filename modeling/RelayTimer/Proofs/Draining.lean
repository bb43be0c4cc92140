import RelayTimer.Proofs.DeckLive
import RelayTimer.Proofs.PacedPrograms
import RelayTimer.Proofs.SessionStep

set_option autoImplicit false

/-!
A player posts an event to itself only where a program loops, and that event plays the first step,
which does not loop. So whatever is played, the queue of a session is soon empty once nothing joins it
from outside.
-/
namespace RelayTimer

namespace Program

/-- The program does not begin with a loop; there may be no step at all. -/
def Unlooped (p : Program) : Prop := ∀ step ∈ p.steps.head?, step.kind ≠ .loops

theorem Playable.unlooped {p : Program} (playable : p.Playable) : p.Unlooped := by
  obtain ⟨first, here, acts⟩ := playable
  intro step head
  rw [Option.mem_def.mp here] at head
  cases head
  exact acts

/-- Whether the next step to play is a loop. -/
def atLoop (p : Program) : Bool := p.next?.any (·.1.kind = .loops)

theorem steps_of_next? {p after : Program} {step : Step} (here : p.next? = some (step, after)) :
    after.steps = p.steps := by
  obtain ⟨found, -, same⟩ := Option.map_eq_some_iff.mp here
  cases same
  rfl

theorem Unlooped.atLoop {p : Program} (unlooped : p.Unlooped) (start : p.cursor = 0) :
    p.atLoop = false := by
  unfold Program.atLoop next?
  rw [start, ← List.head?_eq_getElem?]
  cases first : p.steps.head? with
  | none => rfl
  | some step => simpa using unlooped step first

end Program

namespace Player

/-- What an event makes of a player, and what the player posts to itself: the end of a time, if it
plays a loop. Then the first step is played next. -/
inductive Posts (p : Player) : Player → List Event → Prop
  | next {after : Player} (epoch : after.epoch = p.epoch + 1) : Posts p after []
  | stays {after : Player} (epoch : after.epoch = p.epoch)
      (loop : after.program.atLoop = true → p.program.atLoop = true) : Posts p after []
  | loops {after : Player} (epoch : after.epoch = p.epoch) (before : p.program.atLoop = true)
      (first : after.program.atLoop = false) : Posts p after [.elapsed p.epoch]

variable {p : Player} {b : Board}

/-- The player may have got itself ready first. -/
theorem Posts.of_ready {ready after : Player} {events : List Event} (posts : Posts ready after events)
    (epoch : ready.epoch = p.epoch)
    (loop : ready.program.atLoop = true → p.program.atLoop = true) : Posts p after events := by
  cases posts with
  | next next => exact .next (next.trans (by rw [epoch]))
  | stays same still => exact .stays (same.trans epoch) fun later => loop (still later)
  | loops same before first =>
      rw [epoch]
      exact .loops (same.trans epoch) (loop before) first

/-- What the next step does. -/
theorem posts_playNext (silent : b.published.filter Event.isForPlayer = [])
    (own : p.program.Unlooped) :
    Posts p (p.playNext b).player ((p.playNext b).board.published.filter Event.isForPlayer) ∧
      (p.playNext b).player.program.Unlooped := by
  cases here : p.program.next? with
  | none =>
      rw [playNext_ended here, Deck.published_publish, List.filter_append, silent]
      exact ⟨.stays rfl id, own⟩
  | some found =>
      obtain ⟨step, program⟩ := found
      have steps := Program.steps_of_next? here
      by_cases loops : step.kind = .loops
      · rw [playNext_looped here loops]
        have rewound : program.rewind.Unlooped := by
          unfold Program.Unlooped
          rw [Program.steps_rewind, steps]
          exact own
        refine ⟨?_, rewound⟩
        simp only [Deck.published_publish, Board.setCounter, List.filter_append, silent]
        have before : p.program.atLoop = true := by simp [Program.atLoop, here, loops]
        exact .loops rfl before (rewound.atLoop rfl)
      · rw [playNext_stepped here loops, Deck.published_act_filter b step.kind silent]
        refine ⟨.next rfl, ?_⟩
        unfold Program.Unlooped
        rw [steps]
        exact own

theorem posts_handle (quiet : b.published = []) (board : b.program.Unlooped)
    (own : p.program.Unlooped) (remainingMs : UInt32) (e : Event) :
    Posts p (p.handle b remainingMs e).player
        ((p.handle b remainingMs e).board.published.filter Event.isForPlayer) ∧
      (p.handle b remainingMs e).player.program.Unlooped := by
  have silent : b.published.filter Event.isForPlayer = [] := by rw [quiet]; rfl
  have outcome := handle_handled p b remainingMs e
  generalize p.handle b remainingMs e = played at outcome
  cases outcome with
  | advanced advance =>
      cases advance with
      | restart =>
          let begun : Player :=
            { p with program := b.program.rewind, timeLeftMs := 0, playback := .running }
          have counted : ((b.setCounter (some 0)).publish .counterChanged).published.filter
              Event.isForPlayer = [] := by
            rw [Deck.published_publish, List.filter_append]
            exact List.append_eq_nil_iff.mpr ⟨silent, rfl⟩
          obtain ⟨posts, unlooped⟩ := posts_playNext (p := begun) counted board
          have start : begun.program.atLoop = false :=
            Program.Unlooped.atLoop (p := b.program.rewind) board rfl
          exact ⟨posts.of_ready rfl fun loop => absurd loop (by simp [start]), unlooped⟩
      | resume paused nothing =>
          obtain ⟨posts, unlooped⟩ :=
            posts_playNext (p := { p with playback := .running }) silent own
          exact ⟨posts.of_ready rfl id, unlooped⟩
      | elapsed => exact posts_playNext silent own
  | rearmed =>
      rw [silent]
      exact ⟨.stays rfl id, own⟩
  | paused =>
      rw [silent]
      exact ⟨.next rfl, own⟩
  | refused =>
      rw [Deck.published_publish, List.filter_append, silent]
      exact ⟨.stays rfl id, own⟩
  | ignored =>
      rw [silent]
      exact ⟨.stays rfl id, own⟩

/-- So many epochs have begun since the player came from a loop to its first step. -/
structure Since (p : Player) (looped : UInt32) (epochs : Nat) : Prop where
  epoch : p.epoch = looped + UInt32.ofNat epochs
  first : epochs = 0 → p.program.atLoop = false

/-- No more than one epoch begins with an event. -/
theorem Since.posts {looped : UInt32} {epochs : Nat} (since : p.Since looped epochs) {after : Player}
    {events : List Event} (posts : Posts p after events) :
    ∃ later ≤ epochs + 1, after.Since looped later := by
  cases posts with
  | next epoch =>
      refine ⟨epochs + 1, Nat.le_refl _, ⟨?_, nofun⟩⟩
      rw [epoch, since.epoch, UInt32.ofNat_add, UInt32.add_assoc]
      rfl
  | stays epoch loop =>
      refine ⟨epochs, Nat.le_succ _, ⟨epoch.trans since.epoch, fun unposted => ?_⟩⟩
      have here := since.first unposted
      cases still : after.program.atLoop with
      | false => rfl
      | true => rw [loop still] at here; cases here
  | loops epoch before first =>
      exact ⟨epochs, Nat.le_succ _, ⟨epoch.trans since.epoch, fun _ => first⟩⟩

/-- What was posted by a loop plays the first step or comes too late. -/
theorem Since.silent {looped : UInt32} {epochs : Nat} (since : p.Since looped epochs)
    (fresh : epochs < UInt32.size) (quiet : b.published = []) (board : b.program.Unlooped)
    (own : p.program.Unlooped) (remainingMs : UInt32) :
    (p.handle b remainingMs (.elapsed looped)).board.published.filter Event.isForPlayer = [] := by
  by_cases current : looped = p.epoch
  · have unposted : epochs = 0 := by
      have same := congrArg UInt32.toNat (since.epoch.symm.trans current.symm)
      rw [UInt32.toNat_add, UInt32.toNat_ofNat_of_lt' fresh] at same
      simp only [UInt32.size] at fresh
      have := looped.toNat_lt
      omega
    have posts := (posts_handle quiet board own remainingMs (.elapsed looped)).1
    generalize (p.handle b remainingMs (.elapsed looped)).player = after,
      (p.handle b remainingMs (.elapsed looped)).board.published.filter _ = events at posts ⊢
    cases posts with
    | next => rfl
    | stays => rfl
    | loops epoch before first =>
        rw [since.first unposted] at before
        cases before
  · have stale : p.handle b remainingMs (.elapsed looped) = { player := p, board := b } := by
      simp only [handle, if_neg current]
    rw [stale, quiet]
    rfl

end Player

namespace Session

variable {σ : Type} {s : Session σ}

/-- The player acts on an event while others wait. -/
def actOn (s : Session σ) (e : Event) (waiting : List Event) : Session σ :=
  ({ s with queue := waiting } : Session σ).handle e

/-- Nothing waits to be collected, the console owns the relay exactly if the state of the board says
so, and neither the program that is to be played nor the one that is played begins with a loop. -/
structure Calm (s : Session σ) : Prop where
  quiet : s.engine.board.published = []
  owner : s.console.owning = true ↔ s.engine.board.state = .consoleOwned
  board : s.engine.board.program.Unlooped
  player : s.player.program.Unlooped

/-- All that acting on an event can come to. -/
theorem Calm.actOn (calm : s.Calm) (e : Event) (waiting : List Event) :
    (s.actOn e waiting).Calm ∧ ∃ posted, (s.actOn e waiting).queue = waiting ++ posted ∧
      s.player.Posts (s.actOn e waiting).player posted := by
  obtain ⟨posts, unlooped⟩ :=
    Player.posts_handle calm.quiet calm.board calm.player s.timer.remaining e
  obtain ⟨events, acted⟩ := handle_acted (s := { s with queue := waiting }) calm.quiet e
  refine ⟨⟨acted.quiet, ?_, ?_, unlooped⟩, _, rfl, posts⟩
  · unfold Session.actOn
    rw [acted.console, acted.owned]
    exact calm.owner
  · unfold Session.actOn
    rw [acted.program]
    exact calm.board

/-- The end of the time that a loop has posted lets the first step be played, or comes too late. -/
theorem Calm.actOn_looped (calm : s.Calm) {looped : UInt32} {epochs : Nat}
    (since : s.player.Since looped epochs) (fresh : epochs < UInt32.size) (waiting : List Event) :
    (s.actOn (.elapsed looped) waiting).queue = waiting := by
  have silent := since.silent fresh calm.quiet calm.board calm.player s.timer.remaining
  have queue : (s.actOn (.elapsed looped) waiting).queue = waiting ++
      (s.player.handle s.engine.board s.timer.remaining
        (.elapsed looped)).board.published.filter Event.isForPlayer := rfl
  rw [queue, silent, List.append_nil]

/-- How many events have to be acted on at most until the queue is empty, and one more. -/
def burden (s : Session σ) : Nat := 2 * s.queue.length + s.player.program.atLoop.toNat

/-- Each event that is acted on makes the burden less. -/
theorem Calm.burden_actOn (calm : s.Calm) {e : Event} {rest : List Event}
    (waiting : s.queue = e :: rest) : (s.actOn e rest).burden < s.burden := by
  obtain ⟨-, posted, queue, posts⟩ := calm.actOn e rest
  unfold burden
  rw [queue, waiting, List.length_append, List.length_cons]
  generalize s.actOn e rest = after at posts ⊢
  have small := Bool.toNat_le after.player.program.atLoop
  cases posts with
  | next => simp only [List.length_nil]; omega
  | stays => simp only [List.length_nil]; omega
  | loops epoch before first =>
      simp only [List.length_singleton, before, first, Bool.toNat_true, Bool.toNat_false]
      omega

/-- As many events are acted on as that takes, or more. -/
theorem Calm.pump (calm : s.Calm) {limit : Nat} (enough : s.burden ≤ limit + 1) :
    (s.pump limit).queue = [] := by
  induction limit generalizing s with
  | zero =>
      have empty : s.queue = [] := by
        rw [← List.length_eq_zero_iff]
        unfold burden at enough
        omega
      simp [Session.pump, empty]
  | succ limit ih =>
      cases waiting : s.queue with
      | nil => simp [Session.pump, waiting]
      | cons e rest =>
          have step : s.pump (limit + 1) = (s.actOn e rest).pump limit := by
            rw [Session.pump.eq_def]
            simp only [waiting]
            rfl
          have lower := calm.burden_actOn waiting
          rw [step]
          exact ih (calm.actOn e rest).1 (by omega)

end Session

/-- A session, how many events have been put into its queue from outside, and how many of those in
the queue have been acted on. -/
structure Tally (σ : Type) where
  session : Session σ
  given : Nat := 0
  handled : Nat := 0

namespace Tally

variable {σ : Type}

/-- What can happen to a session. -/
inductive Move
  | order (o : Session.Order)
  /-- The player is asked for a sign of life. -/
  | check
  | flip
  | rewire (wiring : Wiring)
  /-- An end of a time, of whatever epoch, joins the queue behind some of what is in it. -/
  | report (epoch : UInt32) (behind : Nat)
  /-- Time passes, and the timer is however it is then. -/
  | clock (timer : Countdown)
  /-- The event queued first is acted on. -/
  | deliver

/-- Something comes from outside; what it puts into the queue counts as given. -/
def told (t : Tally σ) (after : Session σ) : Tally σ :=
  { t with session := after, given := t.given + (after.queue.length - t.session.queue.length) }

def move [ByteStore σ] (t : Tally σ) : Move → Tally σ
  | .order o => t.told (t.session.order o)
  | .check => t.told (t.session.onBoard (·.publish .healthCheck))
  | .flip => t.told (t.session.onBoard Board.flipContact)
  | .rewire wiring => t.told (t.session.onBoard (·.rewireContact wiring))
  | .report epoch behind => t.told { t.session with
      queue := t.session.queue.take behind ++ [.elapsed epoch] ++ t.session.queue.drop behind }
  | .clock timer => t.told { t.session with timer }
  | .deliver => { t with
      session := t.session.pump 1
      handled := t.handled + min 1 t.session.queue.length }

/-- One thing happens after another. A program that others give to be played is one that can be. -/
inductive Becomes [ByteStore σ] (t : Tally σ) : Tally σ → Prop
  | refl : Becomes t t
  | move {u : Tally σ} (before : Becomes t u) (m : Move)
      (playable : ∀ p, m = .order (.play p) → p.Playable) : Becomes t (u.move m)

/-- All that can become of a session that has just been set up. -/
def Reachable [ByteStore σ] (t : Tally σ) : Prop :=
  ∃ store relay, Becomes { session := Session.ofStore store relay } t

variable {t u : Tally σ}

/-- All that a move can be: something comes from outside, the event queued first is acted on, or there
is none. -/
inductive Changes (t : Tally σ) : Tally σ → Prop
  | outside {after : Session σ} (calm : after.Calm) (player : after.player = t.session.player)
      (longer : t.session.queue.length ≤ after.queue.length) : Changes t (t.told after)
  | acts {e : Event} {rest : List Event} (waiting : t.session.queue = e :: rest) :
      Changes t { t with session := t.session.actOn e rest, handled := t.handled + 1 }
  | nothing : Changes t t

/-- Others do something to the board that tells nothing of its program or of who owns the relay. -/
theorem changes_onBoard (calm : t.session.Calm) {change : Board → Board}
    (program : (change t.session.engine.board).program = t.session.engine.board.program)
    (state : (change t.session.engine.board).state = t.session.engine.board.state) :
    t.Changes (t.told (t.session.onBoard change)) := by
  refine .outside ⟨rfl, ?_, ?_, calm.player⟩ rfl ?_
  · refine calm.owner.trans ?_
    change _ ↔ (change t.session.engine.board).state = _
    rw [state]
  · change (change t.session.engine.board).program.Unlooped
    rw [program]
    exact calm.board
  · change _ ≤ (t.session.queue ++ _).length
    rw [List.length_append]
    exact Nat.le_add_right _ _

theorem changes_move [ByteStore σ] (calm : t.session.Calm) {m : Move}
    (playable : ∀ p, m = .order (.play p) → p.Playable) : t.Changes (t.move m) := by
  cases m with
  | order o =>
      obtain ⟨loaded, events, ordered⟩ := Session.order_ordered calm.quiet calm.owner
        (o := o) fun p same => playable p (by rw [same])
      refine .outside ⟨ordered.quiet, ordered.owner, ?_, ?_⟩ ordered.player ?_
      · rw [ordered.program]
        cases loads : loaded with
        | none => exact calm.board
        | some p => exact (ordered.playable p loads).unlooped
      · rw [ordered.player]
        exact calm.player
      · rw [ordered.queue, List.length_append]
        exact Nat.le_add_right _ _
  | check => exact changes_onBoard calm rfl (RunState.after_notice _ rfl)
  | flip => exact changes_onBoard calm rfl rfl
  | rewire wiring => exact changes_onBoard calm rfl rfl
  | report epoch behind =>
      refine .outside ⟨calm.quiet, calm.owner, calm.board, calm.player⟩ rfl ?_
      simp only [List.length_append, List.length_take, List.length_singleton, List.length_drop]
      omega
  | clock timer =>
      exact .outside ⟨calm.quiet, calm.owner, calm.board, calm.player⟩ rfl (Nat.le_refl _)
  | deliver =>
      have delivers : t.move .deliver = { t with
        session := t.session.pump 1, handled := t.handled + min 1 t.session.queue.length } := rfl
      rw [delivers, Session.pump_one]
      cases waiting : t.session.queue with
      | nil => exact .nothing
      | cons e rest =>
          have one : min 1 (e :: rest).length = 1 := by simp
          rw [one]
          exact .acts waiting

theorem Changes.calm (changes : t.Changes u) (calm : t.session.Calm) : u.session.Calm := by
  cases changes with
  | outside after => exact after
  | acts => exact (calm.actOn _ _).1
  | nothing => exact calm

/-- What a session was given pays for all that it has acted on and has yet to act on. -/
def Paid (t : Tally σ) : Prop := t.handled + t.session.burden ≤ 2 * t.given

theorem Changes.paid (changes : t.Changes u) (calm : t.session.Calm) (paid : t.Paid) : u.Paid := by
  unfold Paid at *
  cases changes with
  | outside after player longer =>
      simp only [Tally.told, Session.burden, player] at paid ⊢
      omega
  | acts waiting =>
      have lower := calm.burden_actOn waiting
      dsimp only
      omega
  | nothing => exact paid

/-- With each event that is acted on no more than one epoch begins. -/
theorem Changes.since (changes : t.Changes u) (calm : t.session.Calm) {looped : UInt32}
    (since : ∃ epochs ≤ t.handled, t.session.player.Since looped epochs) :
    ∃ epochs ≤ u.handled, u.session.player.Since looped epochs := by
  obtain ⟨epochs, young, since⟩ := since
  cases changes with
  | outside after player longer => exact ⟨epochs, young, by rw [Tally.told, player]; exact since⟩
  | @acts e rest waiting =>
      obtain ⟨-, posted, -, posts⟩ := calm.actOn e rest
      obtain ⟨later, bound, still⟩ := since.posts posts
      exact ⟨later, Nat.le_trans bound (Nat.succ_le_succ young), still⟩
  | nothing => exact ⟨epochs, young, since⟩

section run

variable [ByteStore σ]

/-- What each change keeps is kept by all that happens. -/
theorem Becomes.keep {P : Tally σ → Prop}
    (kept : ∀ {v w : Tally σ}, v.Changes w → v.session.Calm → P v → P w) (becomes : t.Becomes u)
    (calm : t.session.Calm) (holds : P t) : u.session.Calm ∧ P u := by
  induction becomes with
  | refl => exact ⟨calm, holds⟩
  | move _ m playable ih =>
      have changes := changes_move ih.1 playable
      exact ⟨changes.calm ih.1, kept changes ih.1 ih.2⟩

theorem Reachable.calm_paid (reachable : t.Reachable) : t.session.Calm ∧ t.Paid := by
  obtain ⟨store, relay, becomes⟩ := reachable
  have owner : (Session.ofStore store relay).console.owning = true ↔
      (Session.ofStore store relay).engine.board.state = .consoleOwned :=
    iff_of_false Bool.false_ne_true fun owned => RunState.noConfusion owned
  exact becomes.keep (fun changes => changes.paid) ⟨rfl, owner, nofun, nofun⟩ (Nat.le_refl _)

/-- A session does not keep itself busy. -/
structure NeverSpins (t : Tally σ) : Prop where
  /-- Whatever event is acted on and whatever waits meanwhile: at most one is posted, and that one
  posts none when it is acted on itself, be it at once or after much else. -/
  posts : ∀ e waiting, (t.session.actOn e waiting).queue = waiting ∨
    ∃ n, (t.session.actOn e waiting).queue = waiting ++ [.elapsed n] ∧
      ∀ u : Tally σ, ({ session := t.session.actOn e waiting } : Tally σ).Becomes u →
        u.handled < UInt32.size → ∀ later,
          (u.session.actOn (.elapsed n) later).queue = later
  handled : t.handled ≤ 2 * t.given
  drains : (t.session.pump (2 * t.session.queue.length)).queue = []

theorem Reachable.never_spins (reachable : t.Reachable) : t.NeverSpins := by
  obtain ⟨calm, paid⟩ := reachable.calm_paid
  refine ⟨?_, ?_, ?_⟩
  · intro e waiting
    obtain ⟨after, posted, queue, posts⟩ := calm.actOn e waiting
    rw [queue]
    cases posts with
    | next => exact .inl (List.append_nil _)
    | stays => exact .inl (List.append_nil _)
    | loops epoch before first =>
        refine .inr ⟨_, rfl, fun u becomes fresh later => ?_⟩
        have since : ∃ epochs ≤ 0,
            (t.session.actOn e waiting).player.Since t.session.player.epoch epochs :=
          ⟨0, Nat.le_refl _, by rw [epoch]; exact (UInt32.add_zero _).symm, fun _ => first⟩
        obtain ⟨still, epochs, young, now⟩ := becomes.keep
          (P := fun v => ∃ epochs ≤ v.handled,
            v.session.player.Since t.session.player.epoch epochs)
          (fun changes calm since => changes.since calm since) after since
        exact still.actOn_looped now (Nat.lt_of_le_of_lt young fresh) later
  · unfold Paid at paid
    omega
  · apply calm.pump
    have small := Bool.toNat_le t.session.player.program.atLoop
    unfold Session.burden
    omega

/-- Whatever is stored, typed or entered, what comes to be played is paced, and no session with such
programs keeps itself busy. -/
theorem content_never_spins (σ : Type) [ByteStore σ] :
    (∀ (e : Engine σ) slot, (Engine.load slot e).2.board.Plays) ∧
    (∀ (e : Engine σ) times, ((Engine.storeManual times e).1 = .ok () ∧
        (Engine.storeManual times e).2.board.Plays) ∨
      ∃ error, (Engine.storeManual times e).1 = .error error ∧
        (Engine.storeManual times e).2.board = e.board) ∧
    (∀ e : Engine σ, (Engine.boot e).2.board = e.board ∨ (Engine.boot e).2.board.Plays) ∧
    (∀ (d : Desk σ) line, (∀ p, Request.ofLine line = .ok (.program p) →
        (Desk.process line d).2.engine.board.program = p ∧
          (Desk.process line d).2.engine.board.Plays) ∧
      ((Desk.process line d).2.engine.board.program = d.engine.board.program ∨
        (Desk.process line d).2.engine.board.Plays)) ∧
    ∀ t : Tally σ, t.Reachable → t.NeverSpins :=
  ⟨Engine.load_plays, Engine.storeManual_plays, Engine.boot_plays, Desk.process_plays,
    fun _ => Reachable.never_spins⟩

/-- A program that loops is typed and has come to its end: two events were given to the session, and
the one that the player has posted to itself is the last. -/
theorem content_never_spins_looped :
    let start : Tally RamStore :=
      { session := Session.ofStore { image := Image.erased imageSize } (.resting false) }
    let t := ((((start.move (.order (.line "o 1s *" none))).move .deliver).move (.report 1 0)).move
      .deliver)
    t.session.queue = [.elapsed 1] ∧ t.given = 2 ∧ t.handled = 2 ∧
      (t.session.pump 2).queue = [] ∧ t.NeverSpins := by
  intro start t
  have becomes : start.Becomes t :=
    (((Becomes.refl.move (.order (.line "o 1s *" none)) nofun).move .deliver nofun).move
      (.report 1 0) nofun).move .deliver nofun
  obtain ⟨-, -, -, -, never⟩ := content_never_spins RamStore
  have calm : t.NeverSpins := never t ⟨_, _, becomes⟩
  have queue : t.session.queue = [.elapsed 1] := by decide +kernel
  refine ⟨queue, by decide +kernel, by decide +kernel, ?_, calm⟩
  have drains := calm.drains
  rw [queue] at drains
  exact drains

end run

end Tally

end RelayTimer
