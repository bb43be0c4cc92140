import RelayTimer.Proofs.Clockwork
import RelayTimer.Proofs.DeckQueue

set_option autoImplicit false

/-!
A running player waits for exactly one end of a wait, wherever that is. All that is on its way to
the player is the mail of a deck, and the turns of a clockwork do to it what the actions of a deck
do, but that they take their time: what is queued, what the timer holds and what it is to be told.
-/
namespace RelayTimer

namespace Clockwork

open Firmware (playerQueueSize)

variable {c : Clockwork}

/-- Ends of waits that have been on their way for so many epochs. -/
def ends (epochs : List UInt32) (age : Nat) : List Message :=
  epochs.map fun epoch => { event := .elapsed epoch, age }

/-- All that is on its way to the player, as the mail of a deck. -/
def deck (c : Clockwork) : Deck :=
  { player := c.board.player
    board := c.board.engine.board
    mail := c.mail ++ ends c.board.told 0 ++ ends c.board.heldUp c.age }

/-- A program that is started can be played, and no end of a wait is on its way for a whole round of
the epochs: it would be taken for a new one then. Only one that a full queue holds up in the timer
task can get so old. -/
structure Steady (c : Clockwork) : Prop where
  playable : c.board.playerQueue.head? = some (.start true) →
    c.board.engine.board.program.Playable
  fresh : c.act.deck.Fresh

/-- What holds of a clockwork between two turns. What the timer serves while it is told something
else is nothing that the player waits for. -/
structure Sound (c : Clockwork) : Prop where
  queued : c.mail.map (·.event) = c.board.playerQueue
  bounded : c.board.playerQueue.length ≤ playerQueueSize
  deck : c.deck.Sound
  balance : c.deck.live = Deck.awaited c.board.player
  replaced : c.board.timerCommand.isSome → c.board.player.epoch ∉ c.board.heldUp

theorem live_deck (queued : c.mail.map (·.event) = c.board.playerQueue) :
    c.deck.live = c.board.onTheWay.count (.elapsed c.board.player.epoch) := by
  have mail : c.deck.mail.map (·.event) = c.board.onTheWay := by
    simp only [deck, ends, List.map_append, List.map_map, queued, Firmware.onTheWay]
    rfl
  unfold Deck.live Deck.inFlight
  rw [mail]
  rfl

theorem map_event_new (events : List Event) :
    (events.map fun event => ({ event } : Message)).map (·.event) = events := by
  rw [List.map_map]
  exact List.map_id _

theorem Sound.beside (sound : c.Sound) {after : Firmware} (others : c.board.Others after) :
    (c.beside after).Sound := by
  obtain ⟨events, queue, unposted⟩ := others.queue
  let new : List Message := events.map fun event => { event }
  have joins : c.beside after = { c with board := after, mail := c.mail ++ new } := by
    rw [Clockwork.beside, joined_eq queue]
  have queued : (c.mail ++ new).map (·.event) = after.playerQueue := by
    rw [List.map_append, sound.queued, queue, map_event_new]
  have told : after.told = c.board.told := by rw [Firmware.told, others.timerCommand]; rfl
  have heldUp : after.heldUp = c.board.heldUp := by rw [Firmware.heldUp, others.timer]; rfl
  have perm : (c.beside after).deck.mail.Perm (new ++ c.deck.mail) := by
    rw [joins]
    simp only [Clockwork.deck, told, heldUp, List.append_assoc]
    rw [← List.append_assoc, ← List.append_assoc new]
    exact List.perm_append_comm.append_right _
  have dead : ∀ m ∈ new, ∀ n, m.event ≠ .elapsed n := by
    intro m member n
    obtain ⟨e, posted, rfl⟩ := List.mem_map.mp member
    exact unposted e posted n
  have player : (c.beside after).deck.player = c.deck.player := others.player
  obtain ⟨kept, live⟩ := sound.deck.of_joined dead player others.quiet rfl perm
  rw [joins] at kept live ⊢
  refine ⟨queued, others.bounded sound.bounded, kept, ?_, ?_⟩
  · rw [live, sound.balance, others.player]
  · rw [others.timerCommand, others.player, heldUp]
    exact sound.replaced

/-! ## The timer's turn -/

theorem told_takeCommand (f : Firmware) : f.takeCommand.told = [] := by
  rw [Firmware.takeCommand_eq]
  rfl

/-- What the timer has been told is what it serves then. -/
theorem heldUp_takeCommand {f : Firmware} (waits : f.timerCommand.isSome) :
    f.takeCommand.heldUp = f.told := by
  rw [Firmware.takeCommand_eq]
  unfold Firmware.heldUp Firmware.told
  cases told : f.timerCommand with
  | none =>
      rw [told] at waits
      cases waits
  | some command => cases command <;> rfl

/-- The timer forgets at most what the player does not wait for any more. -/
theorem Sound.forgotten (sound : c.Sound) : ∃ forgotten : List Message,
    c.deck.mail.Perm (forgotten ++ c.taken.deck.mail) ∧
      (forgotten.map (·.event)).count (.elapsed c.board.player.epoch) = 0 := by
  have told := told_takeCommand c.board
  cases waits : c.board.timerCommand.isSome with
  | false =>
      have uncommanded : c.board.timerCommand = none := Option.isNone_iff_eq_none.mp (by simpa using waits)
      have before : c.board.told = [] := by rw [Firmware.told, uncommanded]
      have heldUp : c.board.takeCommand.heldUp = c.board.heldUp := by
        rw [Firmware.takeCommand_eq, uncommanded]
        rfl
      refine ⟨[], ?_, rfl⟩
      simp only [Clockwork.deck, taken, told, before, heldUp, waits, Bool.false_eq_true, ↓reduceIte]
      exact .refl _
  | true =>
      have heldUp := heldUp_takeCommand waits
      refine ⟨ends c.board.heldUp c.age, ?_, ?_⟩
      · simp only [Clockwork.deck, taken, told, heldUp, waits, ↓reduceIte]
        rw [show ends [] 0 = [] from rfl, List.append_nil]
        exact List.perm_append_comm
      · rw [List.count_eq_zero, ends, List.map_map]
        intro member
        obtain ⟨epoch, held, same⟩ := List.mem_map.mp member
        cases same
        exact sound.replaced waits held

theorem Sound.taken (sound : c.Sound) : c.taken.Sound := by
  have takes := c.board.takeCommand_eq
  have queue : c.board.takeCommand.playerQueue = c.board.playerQueue := by rw [takes]
  have player : c.board.takeCommand.player = c.board.player := by rw [takes]
  have engine : c.board.takeCommand.engine = c.board.engine := by rw [takes]
  have silent : c.board.takeCommand.timerCommand = none := by rw [takes]
  have quiet : c.taken.deck.board.published = [] := by
    change c.board.takeCommand.engine.board.published = []
    rw [engine]
    exact sound.deck.quiet
  obtain ⟨forgotten, perm, dead⟩ := sound.forgotten
  obtain ⟨kept, live⟩ := sound.deck.of_perm forgotten player quiet rfl perm
  refine ⟨sound.queued.trans queue.symm, queue ▸ sound.bounded, kept, ?_, ?_⟩
  · change _ = Deck.awaited c.board.takeCommand.player
    have same : c.deck.live = c.taken.deck.live :=
      live.symm.trans (congrArg (c.taken.deck.live + ·) dead)
    rw [player, ← same, sound.balance]
  · intro waits
    change c.board.takeCommand.timerCommand.isSome at waits
    rw [silent] at waits
    cases waits

/-- The timer serves the wait whose end it has to post. -/
theorem heldUp_of_due {f : Firmware} {epoch : UInt32} (due : f.due? = some epoch) :
    f.heldUp = [epoch] := by
  unfold Firmware.due? at due
  unfold Firmware.heldUp
  cases serves : f.timer with
  | idle =>
      rw [serves] at due
      cases due
  | armed deadline own =>
      rw [serves] at due
      dsimp only at due
      split at due
      · rw [Option.some.inj due]
      · cases due
  | posting own =>
      rw [serves] at due
      rw [Option.some.inj due]

theorem Sound.posted (sound : c.Sound) {epoch : UInt32} (due : c.board.due? = some epoch)
    (room : c.board.playerQueue.length < playerQueueSize) : (c.posted epoch).Sound := by
  let message : Message := { event := .elapsed epoch, age := c.age }
  have perm : c.deck.mail.Perm ([] ++ (c.posted epoch).deck.mail) := by
    have before : c.deck.mail = c.mail ++ ends c.board.told 0 ++ [message] := by
      rw [Clockwork.deck, heldUp_of_due due]
      rfl
    have after : (c.posted epoch).deck.mail =
        c.mail ++ [message] ++ ends c.board.told 0 ++ [] := rfl
    rw [before, after, List.nil_append, List.append_nil, List.append_assoc, List.append_assoc]
    exact List.perm_append_comm.append_left _
  have player : (c.posted epoch).deck.player = c.deck.player := rfl
  obtain ⟨kept, live⟩ := sound.deck.of_perm [] player sound.deck.quiet rfl perm
  have queued : (c.posted epoch).mail.map (·.event) = (c.posted epoch).board.playerQueue := by
    change (c.mail ++ [message]).map (·.event) = c.board.playerQueue ++ [Event.elapsed epoch]
    rw [List.map_append, sound.queued]
    rfl
  have bounded : (c.posted epoch).board.playerQueue.length ≤ playerQueueSize := by
    change (c.board.playerQueue ++ [Event.elapsed epoch]).length ≤ _
    rw [List.length_append, List.length_singleton]
    omega
  exact ⟨queued, bounded, kept, live.trans sound.balance, fun _ => nofun⟩

theorem Sound.blocked (sound : c.Sound) {epoch : UInt32} (due : c.board.due? = some epoch) :
    (c.blocked epoch).Sound := by
  have heldUp : (c.blocked epoch).board.heldUp = c.board.heldUp := (heldUp_of_due due).symm
  have same : (c.blocked epoch).deck = c.deck := by
    unfold Clockwork.deck
    rw [heldUp]
    rfl
  exact ⟨sound.queued, sound.bounded, same ▸ sound.deck, same ▸ sound.balance,
    heldUp ▸ sound.replaced⟩

theorem Sound.runTimer (sound : c.Sound) : c.runTimer.Sound := by
  have served := c.served_runTimer
  generalize c.runTimer = after at served
  cases served with
  | takes unexpired => exact sound.taken
  | posts due room => exact (sound.posted due room).taken
  | blocks due full => exact sound.blocked due

/-! ## The player's turn -/

/-- A player that asks its timer for nothing stays in its epoch, and one that has it stop has
paused. -/
theorem request_handled {p : Player} {b : Board} {remainingMs : UInt32} {e : Event} {played : Played}
    (outcome : Player.Handled p b remainingMs e played) :
    (played.request = none → played.player.epoch = p.epoch) ∧
      (played.request = some .stop → played.player.playback = .paused) := by
  have plays (own : Player) (board : Board) (epoch : own.epoch = p.epoch) :
      ((own.playNext board).request = none → (own.playNext board).player.epoch = p.epoch) ∧
        ((own.playNext board).request = some .stop →
          (own.playNext board).player.playback = .paused) := by
    cases here : own.program.next? with
    | none =>
        rw [Player.playNext_ended here]
        exact ⟨fun _ => epoch, nofun⟩
    | some found =>
        obtain ⟨step, program⟩ := found
        by_cases loops : step.kind = .loops
        · rw [Player.playNext_looped here loops]
          exact ⟨fun _ => epoch, nofun⟩
        · rw [Player.playNext_stepped here loops]
          exact ⟨nofun, nofun⟩
  cases outcome with
  | advanced advance => cases advance <;> exact plays _ _ rfl
  | rearmed => exact ⟨nofun, nofun⟩
  | paused => exact ⟨nofun, fun _ => rfl⟩
  | refused => exact ⟨fun _ => rfl, nofun⟩
  | ignored => exact ⟨fun _ => rfl, nofun⟩

theorem aged_ends (epochs : List UInt32) (age : Nat) (before after : UInt32) :
    Deck.aged (ends epochs age) before after =
      ends epochs (if after = before then age else age + 1) := by
  unfold Deck.aged ends
  split
  · rfl
  · rw [List.map_map]
    rfl

/-- The end of the wait that the timer is told of and that which it serves are on their way. -/
theorem count_told_le (f : Firmware) (epoch : UInt32) :
    f.told.count epoch + f.heldUp.count epoch ≤ f.onTheWay.count (.elapsed epoch) := by
  have ends (epochs : List UInt32) :
      (epochs.map Event.elapsed).count (.elapsed epoch) = epochs.count epoch := by
    rw [List.count, List.countP_map]
    exact List.countP_congr fun n _ => by simp
  rw [Firmware.onTheWay, List.count_append, List.count_append, ends, ends]
  omega

/-- The end that the timer waits for when it does what the player asks for. -/
def asks : TimerRequest → List UInt32
  | .start _ epoch => [epoch]
  | .stop => []

/-- What has been posted has not been on its way. -/
def fresh (events : List Event) : List Message :=
  (events.filter Event.isForPlayer).map fun event => { event }

/-- All that the player's turn makes of a clockwork: the player acts on the event queued first, and
what it asks for takes the place of what waited in the timer's cell. -/
structure Acts (c : Clockwork) (m : Message) (rest : List Message) (played : Played)
    (next : Clockwork) : Prop where
  takes : c.mail = m :: rest
  outcome : ∃ remainingMs,
    Player.Handled c.board.player c.board.engine.board remainingMs m.event played
  mail : next.mail = Deck.aged rest c.board.player.epoch played.player.epoch ++
    fresh played.board.published
  queued : next.mail.map (·.event) = next.board.playerQueue
  bounded : next.board.playerQueue.length ≤ playerQueueSize
  quiet : next.board.engine.board.published = []
  player : next.board.player = played.player
  told : next.board.told = played.request.elim c.board.told asks
  command : played.request = none → next.board.timerCommand = c.board.timerCommand
  heldUp : next.board.heldUp = c.board.heldUp
  age : next.age = if played.player.epoch = c.board.player.epoch then c.age else c.age + 1

theorem Sound.acts_act (sound : c.Sound) {e : Event} {queue : List Event}
    (waits : c.board.playerQueue = e :: queue) :
    ∃ m rest played, m.event = e ∧ c.Acts m rest played c.act := by
  let ready : Firmware := { c.board with playerQueue := queue }
  have room : ready.playerQueue.length < playerQueueSize := by
    have bounded := sound.bounded
    rw [waits, List.length_cons] at bounded
    exact bounded
  have quiet : ready.engine.board.published = [] := sound.deck.quiet
  have acted := ready.acted_handleEvent e
  have joins := ready.queue_handleEvent quiet e room
  have act : c.act = c.acted ready e := by
    unfold Clockwork.act
    rw [waits]
  obtain ⟨m, rest, takes, rfl, queued⟩ := List.map_eq_cons_iff.mp (sound.queued.trans waits)
  refine ⟨m, rest, ready.played m.event, rfl, ?_⟩
  rw [act, c.acted_eq joins, takes]
  refine ⟨takes, ⟨_, Player.handle_handled _ _ _ _⟩, rfl, ?_, acted.joins.bounded (Nat.le_of_lt room),
    by rw [acted.board], acted.player, ?_, fun unasked => ?_, by rw [Firmware.heldUp, acted.timer]; rfl,
    rfl⟩
  · rw [List.tail_cons, List.map_append, Deck.map_event_aged, queued, map_event_new, joins]
  · unfold Firmware.told
    rw [acted.timerCommand]
    cases (ready.played m.event).request with
    | none => rfl
    | some request => cases request <;> rfl
  · rw [acted.timerCommand, unasked]
    rfl

variable {m : Message} {rest : List Message} {played : Played} {next : Clockwork}

/-- All that is on its way when the player has acted on the first of it, before the timer is told of
anything. -/
theorem Acts.mail_absorb (acts : c.Acts m rest played next) :
    ((c.deck.prepared .deliver).absorb played).mail =
      Deck.aged rest c.board.player.epoch played.player.epoch ++
        ends c.board.told (if played.player.epoch = c.board.player.epoch then 0 else 1) ++
        ends c.board.heldUp next.age ++ fresh played.board.published := by
  change Deck.aged c.deck.mail.tail _ _ ++ _ = _
  rw [Clockwork.deck, acts.takes]
  change Deck.aged (rest ++ ends c.board.told 0 ++ ends c.board.heldUp c.age) _ _ ++ _ = _
  rw [Deck.aged_append, Deck.aged_append, aged_ends, aged_ends, acts.age]
  rfl

/-- All that is on its way once the timer has been told. -/
theorem Acts.mail_deck (acts : c.Acts m rest played next) :
    next.deck.mail = Deck.aged rest c.board.player.epoch played.player.epoch ++
      Clockwork.fresh played.board.published ++ ends (played.request.elim c.board.told asks) 0 ++
        ends c.board.heldUp next.age := by
  rw [Clockwork.deck, acts.mail, acts.told, acts.heldUp]

/-- Nothing that was on its way has got too old, if nothing that is on its way then is. What the timer
is told of is new, and gone if an epoch begins. -/
theorem Acts.fresh (acts : c.Acts m rest played next) (young : next.deck.Fresh) :
    ((c.deck.prepared .deliver).absorb played).Fresh := by
  have kept : ∀ other ∈ next.deck.mail, other.age < UInt32.size := young
  rw [acts.mail_deck] at kept
  intro other member
  rw [acts.mail_absorb] at member
  rcases List.mem_append.mp member with others | posted
  · rcases List.mem_append.mp others with before | held
    · rcases List.mem_append.mp before with waiting | told
      · exact kept other (by simp [waiting])
      · obtain ⟨epoch, -, rfl⟩ := List.mem_map.mp told
        change (if _ then 0 else 1 : Nat) < _
        split <;> decide
    · exact kept other (by simp [held])
  · exact kept other (by simp [posted])

/-- The end of the wait that the player has asked for stands behind all else, whether it asks for
one or has the timer stop. -/
theorem mail_asked (d : Deck) (idle : d.timer = {}) (played : Played) :
    ((d.absorb played).prepared .expire).mail =
      (d.absorb played).mail ++ ends (played.request.elim [] asks) 0 := by
  have timer : (d.absorb played).timer = played.request.elim {} ({} : Countdown).apply := by
    unfold Deck.absorb
    rw [idle]
    cases played.request <;> rfl
  change (d.absorb played).mail ++ (d.absorb played).timer.armed.toList.map _ = _
  rw [timer]
  cases played.request with
  | none => rfl
  | some request => cases request <;> rfl

/-- All that is on its way once the player has acted is what was so, but for a wait that it has
replaced by another one. -/
theorem Acts.perm (acts : c.Acts m rest played next)
    (stays : played.request = none → played.player.epoch = c.board.player.epoch) :
    ∃ replaced, (((c.deck.prepared .deliver).absorb played).prepared .expire).mail.Perm
        (replaced ++ next.deck.mail) ∧ (played.request = none → replaced = []) := by
  rw [mail_asked _ rfl, acts.mail_absorb, acts.mail_deck]
  cases asked : played.request with
  | none =>
      rw [stays asked]
      refine ⟨[], List.perm_iff_count.mpr fun x => ?_, fun _ => rfl⟩
      simp only [List.count_append, Option.elim_none, ↓reduceIte, List.nil_append]
      rw [show ends [] 0 = [] from rfl, List.count_nil]
      omega
  | some request =>
      refine ⟨ends c.board.told (if played.player.epoch = c.board.player.epoch then 0 else 1),
        List.perm_iff_count.mpr fun x => ?_, nofun⟩
      simp only [List.count_append, Option.elim_some]
      omega

/-- All that is on its way stays what it has to be, and the player waits for no less of it than
there is. -/
theorem Acts.deck (acts : c.Acts m rest played next) (sound : c.Sound)
    (playable : m.event = .start true → c.board.engine.board.program.Playable)
    (young : next.deck.Fresh) :
    next.deck.Sound ∧ next.deck.live ≤ Deck.awaited played.player ∧
      (played.request = none → next.deck.live = Deck.awaited played.player) := by
  obtain ⟨remainingMs, outcome⟩ := acts.outcome
  -- The deck without the event in hand, then with the event acted on, then with the timer told.
  obtain ⟨less, -, before⟩ := sound.deck.prepared .deliver (by simp)
  have handed : c.deck.handled? .deliver = some m.event := by
    rw [Clockwork.deck, acts.takes]
    rfl
  rw [handed, Option.elim_some, sound.balance] at before
  obtain ⟨kept, live⟩ := less.absorb_handled outcome before playable (acts.fresh young)
  obtain ⟨expired, -, same⟩ := kept.prepared .expire (by simp)
  obtain ⟨replaced, perm, unasked⟩ := acts.perm (request_handled outcome).1
  have player : next.deck.player = played.player := acts.player
  obtain ⟨deck, fewer⟩ := expired.of_perm replaced player acts.quiet rfl perm
  have all := same.trans live
  refine ⟨deck, by omega, fun silent => ?_⟩
  rw [unasked silent] at fewer
  exact fewer.trans all

/-- A player that has asked for something waits for that at most. -/
theorem awaited_le_told {request : TimerRequest} {p : Player}
    (current : ∀ epoch ∈ asks request, epoch = p.epoch)
    (paused : request = .stop → p.playback = .paused) :
    Deck.awaited p ≤ (asks request).count p.epoch := by
  cases request with
  | start durationMs epoch =>
      rw [current epoch (List.mem_singleton_self _)]
      change _ ≤ [p.epoch].count p.epoch
      rw [List.count_singleton_self]
      unfold Deck.awaited
      split <;> omega
  | stop =>
      rw [Deck.awaited, paused rfl]
      exact Nat.zero_le _

/-- What the timer serves when the player has asked for something is no longer waited for. -/
theorem Acts.asked (acts : c.Acts m rest played next) (deck : next.deck.Sound)
    (few : next.deck.live ≤ Deck.awaited played.player) {request : TimerRequest}
    (asked : played.request = some request) : next.deck.live = Deck.awaited played.player ∧
      next.board.player.epoch ∉ next.board.heldUp := by
  obtain ⟨remainingMs, outcome⟩ := acts.outcome
  have told : next.board.told = asks request := by rw [acts.told, asked]; rfl
  have current : ∀ epoch ∈ asks request, epoch = played.player.epoch := by
    intro epoch member
    have here : { event := .elapsed epoch } ∈ next.deck.mail := by
      rw [← told] at member
      exact List.mem_append_left _ (List.mem_append_right _ (List.mem_map.mpr ⟨epoch, member, rfl⟩))
    have dated : epoch + UInt32.ofNat 0 = next.board.player.epoch := deck.dated _ here epoch rfl
    rw [acts.player] at dated
    exact (UInt32.add_zero epoch).symm.trans dated
  have waited := awaited_le_told current fun stop => (request_handled outcome).2 (by rw [asked, stop])
  have parts := count_told_le next.board next.board.player.epoch
  rw [← live_deck acts.queued, told, acts.player] at parts
  rw [acts.player, ← List.count_eq_zero]
  omega

theorem Acts.sound (acts : c.Acts m rest played next) (sound : c.Sound)
    (playable : m.event = .start true → c.board.engine.board.program.Playable)
    (young : next.deck.Fresh) : next.Sound := by
  obtain ⟨remainingMs, outcome⟩ := acts.outcome
  obtain ⟨deck, few, unasked⟩ := acts.deck sound playable young
  have rest : next.deck.live = Deck.awaited played.player ∧
      (next.board.timerCommand.isSome → next.board.player.epoch ∉ next.board.heldUp) := by
    cases asked : played.request with
    | none =>
        rw [acts.command asked, acts.heldUp, acts.player, (request_handled outcome).1 asked]
        exact ⟨unasked asked, sound.replaced⟩
    | some request => exact (acts.asked deck few asked).imp_right fun dead _ => dead
  rw [← acts.player] at rest
  exact ⟨acts.queued, acts.bounded, deck, rest.1, rest.2⟩

theorem Sound.act (sound : c.Sound) (steady : c.Steady) : c.act.Sound := by
  cases waits : c.board.playerQueue with
  | nil =>
      unfold Clockwork.act
      rwa [waits]
  | cons e queue =>
      obtain ⟨m, rest, played, rfl, acts⟩ := sound.acts_act waits
      have playable := steady.playable
      rw [waits] at playable
      exact acts.sound sound (fun start => playable (by rw [start]; rfl)) steady.fresh

/-! ## All turns -/

theorem sound_new {f : Firmware} (new : f.New) : Sound { board := f } := by
  let c : Clockwork := { board := f }
  have told : f.told = [] := by rw [Firmware.told, new.timerCommand]
  have heldUp : f.heldUp = [] := by rw [Firmware.heldUp, new.timer]
  have empty : c.deck.mail = [] := by
    change [] ++ ends f.told 0 ++ ends f.heldUp 0 = []
    rw [told, heldUp]
    rfl
  have queued : c.mail.map (·.event) = f.playerQueue := new.queue.symm
  have dated : Deck.Dated c.deck.mail c.deck.player.epoch := by
    rw [empty]
    exact nofun
  have deck : c.deck.Sound := ⟨new.quiet, dated, nofun⟩
  have live : c.deck.live = 0 := by
    rw [live_deck queued, Firmware.onTheWay, told, heldUp]
    change (f.playerQueue ++ [] ++ []).count _ = 0
    rw [new.queue]
    rfl
  refine ⟨queued, ?_, deck, ?_, fun waits => ?_⟩
  · change f.playerQueue.length ≤ _
    rw [new.queue]
    exact Nat.zero_le _
  · rw [live, new.player]
    rfl
  · rw [new.timerCommand] at waits
    cases waits

theorem Becomes.sound {admits : Clockwork → Prop} {v : Clockwork}
    (steady : ∀ u, admits u → u.Steady) (becomes : Becomes admits c v) (sound : c.Sound) :
    v.Sound := by
  induction becomes with
  | refl => exact sound
  | timer _ ih => exact ih.runTimer
  | player _ admitted ih => exact ih.act (steady _ admitted)
  | others _ others ih => exact ih.beside others

end Clockwork

end RelayTimer
