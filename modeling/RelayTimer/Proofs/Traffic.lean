import Mathlib.Data.List.Induction
import Mathlib.Data.List.Perm.Basic
import RelayTimer.Proofs.DeckQueue
import RelayTimer.Proofs.SessionStep

set_option autoImplicit false

/-!
A session whose timer is slow to tell: the end of a wait may take its time until it joins the queue,
while the console, the engine and the player go on. However the events are interleaved, a player
that runs waits for exactly one end of a time, and once the console has given the relay back and the
queue is empty, no end of a time that is still to come moves anything.
-/
namespace RelayTimer

/-- A session, and for everything on its way to the player how many epochs have begun since it was
posted. -/
structure Traffic (σ : Type) where
  session : Session σ
  /-- What is queued. -/
  mail : List Message := []
  /-- The ends of waits that are over and have not joined the queue. -/
  late : List Message := []

namespace Traffic

variable {σ : Type}

/-- What can happen to a session with a slow timer. -/
inductive Move
  | order (o : Session.Order)
  | wait (ms : UInt32)
  /-- The event queued first is acted on. -/
  | deliver
  /-- The wait of the timer is over. -/
  | lapse
  /-- The end of a wait joins the queue. -/
  | arrive (i : Nat)
  /-- The end of a wait is acted on ahead of the queue. -/
  | strike (i : Nat)

/-- The session becomes another one: what has joined its queue is new, and all that was on its way
gets older if an epoch has begun. -/
def goOn (t : Traffic σ) (after : Session σ) : Traffic σ :=
  { session := after
    mail := Deck.aged t.mail t.session.player.epoch after.player.epoch ++
      (after.queue.drop t.mail.length).map fun event => { event }
    late := Deck.aged t.late t.session.player.epoch after.player.epoch }

/-- No event is on its way for a whole round of the epochs. -/
def Fresh (t : Traffic σ) : Prop := ∀ m ∈ t.mail ++ t.late, m.age < UInt32.size

/-- The player of a session with all that is on its way to it, as a deck. -/
def deck (t : Traffic σ) : Deck :=
  { player := t.session.player, board := t.session.engine.board, timer := t.session.timer
    mail := t.mail ++ t.late, log := t.session.log }

/-- What holds of a session with a slow timer between two moments. Where no event gets too old, the
player waits for one end of a time at most. -/
structure Sound (fresh : Bool) (t : Traffic σ) : Prop where
  session : t.session.Sound
  queued : t.mail.map (·.event) = t.session.queue
  late : ∀ m ∈ t.late, ∃ n, m.event = .elapsed n
  timed : fresh = true → t.deck.Sound ∧ t.deck.live = Deck.awaited t.session.player

variable {fresh : Bool} {t : Traffic σ}

/-- The player acts on an event as that of a deck does, but for the order of what it posts. -/
theorem goOn_handle (queued : t.mail.map (·.event) = t.session.queue) (e : Event) :
    let u := t.goOn (t.session.handle e)
    u.mail.map (·.event) = u.session.queue ∧ u.deck.player = (t.deck.handle e).player ∧
      u.deck.board.published = [] ∧ u.deck.timer = (t.deck.handle e).timer ∧
      (t.deck.handle e).mail.Perm u.deck.mail := by
  intro u
  let posted := (t.session.player.handle t.session.engine.board t.session.timer.remaining
    e).board.published.filter Event.isForPlayer
  have queue : u.session.queue = t.session.queue ++ posted := rfl
  have joined : (t.session.handle e).queue.drop t.mail.length = posted := by
    have length : t.mail.length = t.session.queue.length := by
      rw [← queued, List.length_map]
    rw [length]
    exact List.drop_left
  have mail : u.mail = Deck.aged t.mail t.session.player.epoch u.session.player.epoch ++
      posted.map fun event => ({ event } : Message) := by
    rw [← joined]
    rfl
  refine ⟨?_, rfl, rfl, rfl, ?_⟩
  · rw [mail, queue, List.map_append, Deck.map_event_aged, queued, List.map_map]
    exact congrArg _ (List.map_id posted)
  · have late : u.late = Deck.aged t.late t.session.player.epoch u.session.player.epoch := rfl
    have both : (t.deck.handle e).mail =
        Deck.aged (t.mail ++ t.late) t.session.player.epoch u.session.player.epoch ++
          posted.map fun event => ({ event } : Message) := rfl
    change List.Perm _ (u.mail ++ u.late)
    rw [mail, late, both, Deck.aged_append, List.append_assoc, List.append_assoc]
    exact List.Perm.append_left _ List.perm_append_comm

/-- The player acts on something that was on its way. -/
theorem goOn_sound (queued : t.mail.map (·.event) = t.session.queue) (sound : t.deck.Sound)
    {e : Event} (balance : t.deck.live + Deck.liveIn t.session.player.epoch e =
      Deck.awaited t.session.player)
    (playable : e = .start true → t.session.engine.board.program.Playable)
    (young : (t.goOn (t.session.handle e)).Fresh) :
    (t.goOn (t.session.handle e)).deck.Sound ∧
      (t.goOn (t.session.handle e)).deck.live = Deck.awaited (t.session.handle e).player := by
  obtain ⟨-, player, quiet, timer, mail⟩ := goOn_handle queued e
  have handled := sound.handle e balance playable fun m member => young m (mail.mem_iff.mp member)
  obtain ⟨kept, same⟩ := handled.1.of_perm [] player quiet (congrArg _ timer) mail
  exact ⟨kept, same.trans handled.2⟩

theorem aged_late {late : List Message} (ends : ∀ m ∈ late, ∃ n, m.event = .elapsed n)
    (before after : UInt32) : ∀ m ∈ Deck.aged late before after, ∃ n, m.event = .elapsed n := by
  intro m member
  unfold Deck.aged at member
  split at member
  · exact ends m member
  · obtain ⟨old, was, rfl⟩ := List.mem_map.mp member
    exact ends old was

/-- An end of a time is the one that a running player waits for, if it is of its epoch. -/
theorem running_of_live {live : Nat} {p : Player} {e : Event}
    (balance : live + Deck.liveIn p.epoch e = Deck.awaited p) :
    e = .elapsed p.epoch → p.playback = .running := by
  rintro rfl
  apply Decidable.byContradiction
  intro rests
  simp [Deck.liveIn, Deck.awaited, rests] at balance

/-- The player acts on what was queued first, or on a late end of a wait. -/
theorem Sound.acts {e : Event} {rest : List Event} {mail late : List Message}
    (sound : t.Sound fresh)
    (queued : mail.map (·.event) = rest)
    (next : t.session.queue = e :: rest ∨ t.session.queue = rest ∧ ∃ n, e = .elapsed n)
    (split : ∃ m, m.event = e ∧ (t.mail ++ t.late).Perm (m :: (mail ++ late)))
    (ends : ∀ m ∈ late, ∃ n, m.event = .elapsed n) :
    let before : Traffic σ := { session := { t.session with queue := rest }, mail, late }
    let after := before.goOn (before.session.handle e)
    (fresh = true → after.Fresh) → t.session.Step fresh after.session ∧ after.Sound fresh := by
  intro before after young
  obtain ⟨m, rfl, perm⟩ := split
  have same : before.deck.player = t.deck.player := rfl
  have timed (always : fresh = true) : before.deck.Sound ∧ before.deck.live +
      Deck.liveIn t.session.player.epoch m.event = Deck.awaited t.session.player := by
    obtain ⟨steady, balance⟩ := sound.timed always
    obtain ⟨deck, live⟩ := steady.of_perm [m] same sound.session.quiet rfl perm
    refine ⟨deck, ?_⟩
    rw [← balance, ← live]
    simp [Deck.liveIn, List.count_singleton, Traffic.deck]
  have step : t.session.Step fresh after.session :=
    .acts next fun always => running_of_live (timed always).2
  have playable : m.event = .start true → t.session.engine.board.program.Playable := by
    intro start
    apply sound.session.playable
    rcases next with first | ⟨-, n, same⟩
    · rw [first, start]
      exact List.mem_cons_self
    · rw [start] at same
      cases same
  exact ⟨step, sound.session.step step, (goOn_handle queued m.event).1, aged_late ends _ _,
    fun always => goOn_sound queued (timed always).1 (timed always).2 playable (young always)⟩

/-- Nothing is played, nothing is waited for, and nothing that is on its way is acted on. -/
structure AtRest (t : Traffic σ) : Prop where
  stopped : t.session.engine.board.state = .stopped
  rests : t.session.player.playback ≠ .running
  unarmed : t.session.timer.armed = none
  deaf : ∀ m ∈ t.mail ++ t.late,
    t.session.player.handle t.session.engine.board t.session.timer.remaining m.event =
      { player := t.session.player, board := t.session.engine.board }

theorem Sound.atRest (sound : t.Sound true) (resting : t.session.Resting) : t.AtRest := by
  obtain ⟨deck, balance⟩ := sound.timed rfl
  have dead : t.deck.live = 0 := by
    rw [balance]
    simp [Deck.awaited, resting.rests]
  obtain ⟨unarmed, unposted⟩ := Deck.none_live deck dead
  refine ⟨resting.stopped, resting.rests, unarmed, fun m member => ?_⟩
  apply Player.handle_deaf resting.rests
  · intro f start
    rcases List.mem_append.mp member with queued | late
    · have inside := List.mem_map_of_mem (f := (·.event)) queued
      rw [sound.queued] at inside
      have unstarted := resting.unstarted _ inside
      rw [start] at unstarted
      cases unstarted
    · obtain ⟨n, ends⟩ := sound.late m late
      rw [start] at ends
      cases ends
  · intro current
    rw [List.count_eq_zero] at unposted
    exact unposted (current ▸ List.mem_map_of_mem (f := (·.event)) member)

/-- No event has been on its way for more than so many epochs. -/
def Young (t : Traffic σ) (n : Nat) : Prop := ∀ m ∈ t.mail ++ t.late, m.age ≤ n

theorem Young.goOn {n : Nat} (young : t.Young n) (after : Session σ) :
    (t.goOn after).Young (n + 1) := by
  have mail := Deck.age_aged_le (fun m member => young m (List.mem_append_left _ member))
    t.session.player.epoch after.player.epoch
  have late := Deck.age_aged_le (fun m member => young m (List.mem_append_right _ member))
    t.session.player.epoch after.player.epoch
  intro m member
  rcases List.mem_append.mp member with queued | behind
  · rcases List.mem_append.mp queued with old | new
    · exact mail m old
    · obtain ⟨e, -, rfl⟩ := List.mem_map.mp new
      exact Nat.zero_le _
  · exact late m behind

variable [ByteStore σ]

def move (t : Traffic σ) : Move → Traffic σ
  | .order o => t.goOn (t.session.order o)
  | .wait ms => { t with session := { t.session with timer := t.session.timer.advance ms } }
  | .deliver => { t with mail := t.mail.tail }.goOn (t.session.pump 1)
  | .lapse =>
    let (armed, timer) := t.session.timer.fire
    let ends := armed.toList.map fun a => { event := .elapsed a.epoch }
    { t with session := { t.session with timer }, late := t.late ++ ends }
  | .arrive i =>
    match t.late[i]? with
    | some m =>
      { session := { t.session with queue := t.session.queue ++ [m.event] }
        mail := t.mail ++ [m]
        late := t.late.eraseIdx i }
    | none => t
  | .strike i =>
    match t.late[i]? with
    | some m => { t with late := t.late.eraseIdx i }.goOn (t.session.handle m.event)
    | none => t

/-- A program that others give to be played is one that can be. Whether events may be on their way
for a whole round of the epochs is left open. -/
structure Admits (fresh : Bool) (t : Traffic σ) (m : Move) : Prop where
  playable : ∀ p, m = .order (.play p) → p.Playable
  young : fresh = true → (t.move m).Fresh

/-- One thing happens after another. -/
inductive Becomes (fresh : Bool) (t : Traffic σ) : Traffic σ → Prop
  | refl : Becomes fresh t t
  | move {u : Traffic σ} (before : Becomes fresh t u) (m : Move) (admits : u.Admits fresh m) :
      Becomes fresh t (u.move m)

/-- All that can become of a session that has just been set up. -/
def Reachable (fresh : Bool) (t : Traffic σ) : Prop :=
  ∃ store relay, Becomes fresh { session := Session.ofStore store relay } t

/-- The session is told something. -/
theorem Sound.order (sound : t.Sound fresh) {o : Session.Order}
    (playable : ∀ p, o = .play p → p.Playable) :
    t.session.Step fresh (t.session.order o) ∧ (t.move (.order o)).Sound fresh := by
  obtain ⟨loaded, events, ordered⟩ :=
    Session.order_ordered sound.session.quiet sound.session.owner playable
  have step : t.session.Step fresh (t.session.order o) := .told ordered
  refine ⟨step, ?_⟩
  let new := (events.filter Event.isForPlayer).map fun event => ({ event } : Message)
  have joined : (t.session.order o).queue.drop t.mail.length = events.filter Event.isForPlayer := by
    have length : t.mail.length = t.session.queue.length := by
      rw [← sound.queued, List.length_map]
    rw [length, ordered.queue]
    exact List.drop_left
  have becomes : t.move (.order o) =
      { session := t.session.order o, mail := t.mail ++ new, late := t.late } := by
    simp only [move, goOn, ordered.player, Deck.aged_same, joined, new]
  have unposted : ∀ m ∈ new, ∀ n, m.event ≠ .elapsed n := by
    intro m member n same
    obtain ⟨e, posted, rfl⟩ := List.mem_map.mp member
    subst same
    exact ordered.unposted n (List.mem_filter.mp posted).1
  have perm : (t.mail ++ new ++ t.late).Perm (new ++ (t.mail ++ t.late)) := by
    rw [← List.append_assoc]
    exact List.perm_append_comm.append_right _
  rw [becomes]
  let after : Traffic σ := { session := t.session.order o, mail := t.mail ++ new, late := t.late }
  have player : after.deck.player = t.deck.player := ordered.player
  refine ⟨sound.session.step step, ?_, sound.late, fun always => ?_⟩
  · rw [List.map_append, sound.queued, ordered.queue, List.map_map]
    exact congrArg _ (List.map_id _)
  · obtain ⟨steady, balance⟩ := sound.timed always
    obtain ⟨deck, live⟩ := steady.of_joined unposted player ordered.quiet
      (congrArg Countdown.armed ordered.timer) perm
    exact ⟨deck, by rw [live, balance, ordered.player]⟩

theorem Sound.still (sound : t.Sound fresh) {m : Move} (same : t.move m = t) :
    t.session.Step fresh (t.move m).session ∧ (t.move m).Sound fresh := by
  rw [same]
  exact ⟨.refl _, sound⟩

theorem Sound.deliver (sound : t.Sound fresh) (young : fresh = true → (t.move .deliver).Fresh) :
    t.session.Step fresh (t.move .deliver).session ∧ (t.move .deliver).Sound fresh := by
  have acts : t.move .deliver =
      ({ t with mail := t.mail.tail } : Traffic σ).goOn (t.session.pump 1) := rfl
  rw [Session.pump_one] at acts
  cases waiting : t.session.queue with
  | nil =>
      apply sound.still
      have unqueued : t.mail = [] := by
        rw [← List.map_eq_nil_iff, sound.queued, waiting]
      rw [acts]
      obtain ⟨session, mail, late⟩ := t
      have empty : session.queue = [] := waiting
      have nothing : mail = [] := unqueued
      simp [goOn, empty, nothing]
  | cons e rest =>
      obtain ⟨m, mail, whole, rfl, queued⟩ := List.map_eq_cons_iff.mp (sound.queued.trans waiting)
      simp only [waiting, whole, List.tail_cons] at acts
      rw [acts] at young ⊢
      exact sound.acts queued (.inl waiting) ⟨m, rfl, by rw [whole]; rfl⟩ sound.late young

theorem Sound.lapse (sound : t.Sound fresh) :
    t.session.Step fresh (t.move .lapse).session ∧ (t.move .lapse).Sound fresh := by
  have same : (t.move .lapse).deck = t.deck.prepared .expire := by
    simp only [Traffic.move, Traffic.deck, Deck.prepared, List.append_assoc]
  have step : t.session.Step fresh (t.move .lapse).session := .waits t.session.timer.fire.2
  refine ⟨step, sound.session.step step, sound.queued, ?_, fun always => ?_⟩
  · intro m member
    rcases List.mem_append.mp member with before | ends
    · exact sound.late m before
    · obtain ⟨a, -, rfl⟩ := List.mem_map.mp ends
      exact ⟨a.epoch, rfl⟩
  · obtain ⟨steady, balance⟩ := sound.timed always
    obtain ⟨deck, -, live⟩ := steady.prepared .expire (by simp)
    rw [same]
    exact ⟨deck, live.trans balance⟩

theorem perm_taken {late : List Message} {i : Nat} {m : Message} (found : late[i]? = some m) :
    late.Perm (m :: late.eraseIdx i) := by
  obtain ⟨inside, rfl⟩ := List.getElem?_eq_some_iff.mp found
  exact (List.getElem_cons_eraseIdx_perm inside).symm

theorem Sound.arrive (sound : t.Sound fresh) (i : Nat) :
    t.session.Step fresh (t.move (.arrive i)).session ∧ (t.move (.arrive i)).Sound fresh := by
  cases found : t.late[i]? with
  | none => exact sound.still (by simp only [Traffic.move, found])
  | some m =>
      let u : Traffic σ :=
        { session := { t.session with queue := t.session.queue ++ [m.event] }
          mail := t.mail ++ [m], late := t.late.eraseIdx i }
      have joins : t.move (.arrive i) = u := by
        simp only [Traffic.move, found, u]
      have ends : ∀ e ∈ [m.event], ∃ n, e = .elapsed n := by
        intro e member
        rw [List.mem_singleton.mp member]
        exact sound.late m (List.mem_of_getElem? found)
      have step : t.session.Step fresh u.session := .passes t.session.timer ends
      have perm : t.deck.mail.Perm ([] ++ u.deck.mail) := by
        change (t.mail ++ t.late).Perm (t.mail ++ [m] ++ t.late.eraseIdx i)
        rw [List.append_assoc]
        exact (perm_taken found).append_left t.mail
      have player : u.deck.player = t.deck.player := rfl
      rw [joins]
      refine ⟨step, sound.session.step step, ?_, ?_, fun always => ?_⟩
      · change (t.mail ++ [m]).map (·.event) = _
        rw [List.map_append, sound.queued]
        rfl
      · exact fun other member => sound.late other (List.mem_of_mem_eraseIdx member)
      · obtain ⟨steady, balance⟩ := sound.timed always
        obtain ⟨deck, live⟩ := steady.of_perm [] player sound.session.quiet rfl perm
        exact ⟨deck, live.trans balance⟩

theorem Sound.strike (sound : t.Sound fresh) {i : Nat}
    (young : fresh = true → (t.move (.strike i)).Fresh) :
    t.session.Step fresh (t.move (.strike i)).session ∧ (t.move (.strike i)).Sound fresh := by
  cases found : t.late[i]? with
  | none => exact sound.still (by simp only [Traffic.move, found])
  | some m =>
      have acts : t.move (.strike i) =
          ({ t with late := t.late.eraseIdx i } : Traffic σ).goOn (t.session.handle m.event) := by
        simp only [Traffic.move, found]
      rw [acts] at young ⊢
      refine sound.acts sound.queued (.inr ⟨rfl, sound.late m (List.mem_of_getElem? found)⟩)
        ⟨m, rfl, ?_⟩ (fun other member => sound.late other (List.mem_of_mem_eraseIdx member)) young
      exact ((perm_taken found).append_left t.mail).trans List.perm_middle

/-- Whatever happens, the session takes a step and all stays in order. -/
theorem Sound.move (sound : t.Sound fresh) {m : Move} (admits : t.Admits fresh m) :
    t.session.Step fresh (t.move m).session ∧ (t.move m).Sound fresh := by
  cases m with
  | order o => exact sound.order fun p same => admits.playable p (by rw [same])
  | wait ms =>
      have step : t.session.Step fresh (t.move (.wait ms)).session :=
        .waits (t.session.timer.advance ms)
      refine ⟨step, sound.session.step step, sound.queued, sound.late, fun always => ?_⟩
      obtain ⟨steady, balance⟩ := sound.timed always
      obtain ⟨deck, -, live⟩ := steady.prepared (.wait ms) (by simp)
      exact ⟨deck, live.trans balance⟩
  | deliver => exact sound.deliver admits.young
  | lapse => exact sound.lapse
  | arrive i => exact sound.arrive i
  | strike i => exact sound.strike admits.young

theorem Becomes.sound {u : Traffic σ} (becomes : t.Becomes fresh u) (sound : t.Sound fresh) :
    u.Sound fresh := by
  induction becomes with
  | refl => exact sound
  | move _ m admits ih => exact (ih.move admits).2

theorem Reachable.sound (reachable : t.Reachable fresh) : t.Sound fresh := by
  obtain ⟨store, relay, becomes⟩ := reachable
  apply becomes.sound
  have owner : (Session.ofStore store relay).console.owning = true ↔
      (Session.ofStore store relay).engine.board.state = .consoleOwned :=
    iff_of_false Bool.false_ne_true (fun owned => RunState.noConfusion owned)
  exact ⟨⟨rfl, owner, nofun⟩, rfl, nofun, fun _ => ⟨⟨rfl, nofun, nofun⟩, rfl⟩⟩

theorem Becomes.starts_le {u : Traffic σ} (becomes : t.Becomes fresh u) (sound : t.Sound fresh) :
    t.session.starts ≤ u.session.starts := by
  induction becomes with
  | refl => exact Nat.le_refl _
  | @move u before m admits ih =>
      have steady := before.sound sound
      obtain ⟨events, log⟩ := (steady.move admits).1.log steady.session
      exact Nat.le_trans ih (Session.starts_le log).1

/-- What is kept while nothing is started. -/
theorem Becomes.keep {P : Session σ → Prop} (kept : ∀ {s after : Session σ}, s.Sound →
      s.Step fresh after → after.starts = s.starts → P s → P after) {u : Traffic σ}
    (becomes : t.Becomes fresh u) (sound : t.Sound fresh) (holds : P t.session)
    (unstarted : u.session.starts = t.session.starts) : P u.session := by
  induction becomes with
  | refl => exact holds
  | @move u before m admits ih =>
      have steady := before.sound sound
      obtain ⟨step, -⟩ := steady.move admits
      obtain ⟨events, log⟩ := step.log steady.session
      -- Starts are only ever added, so there was none on either leg.
      have first := before.starts_le sound
      have last := (Session.starts_le log).1
      exact kept steady.session step (by omega) (ih (by omega))

/-- The console owns the relay exactly if the state of the board says so. Once it is told to quit, and
nothing is started after that, and all that was queued is acted on, the board shows that nothing is
played and the player does not run, and whatever else happens then, ends of waits that come late
included, it stays so. As long as no event is on its way for a whole round of the epochs, the timer
is at rest with the player, and nothing moves the contact or the counter until something is
started: an end that is older than that is taken for one of the player's epoch. -/
theorem Reachable.quit_releases (reachable : t.Reachable fresh) :
    (t.session.console.owning = true ↔ t.session.engine.board.state = .consoleOwned) ∧
    ∀ line room, Request.ofLine line = .ok .quit → t.session.console.owning = true →
      let left := t.move (.order (.line line room))
      ∀ u, left.Becomes fresh u → u.session.starts = left.session.starts → u.session.queue = [] →
        u.session.engine.board.state = .stopped ∧ u.session.player.playback ≠ .running ∧
        (fresh = true → u.AtRest) ∧
        ∀ v, u.Becomes fresh v → v.session.starts = u.session.starts →
          v.session.engine.board.state = .stopped ∧ v.session.player.playback ≠ .running ∧
          (fresh = true → v.AtRest ∧
            v.session.engine.board.contact = u.session.engine.board.contact ∧
            v.session.engine.board.counter = u.session.engine.board.counter) := by
  have sound := reachable.sound
  refine ⟨sound.session.owner, ?_⟩
  intro line room reads owns left u becomes unstarted drained
  obtain ⟨-, gone⟩ := sound.order (o := .line line room) nofun
  have released : u.session.Released := becomes.keep
    (fun sound step unstarted released => released.step sound step unstarted) gone
    (Session.released_of_quit sound.session owns reads room) unstarted
  have steady := becomes.sound gone
  have resting : u.session.Resting := by
    refine ⟨released.stopped, by simp [drained], ?_⟩
    have settles := released.settles
    rw [drained] at settles
    exact settles.of_nil
  refine ⟨resting.stopped, resting.rests, ?_, ?_⟩
  · rintro rfl
    exact steady.atRest resting
  intro v later still
  obtain ⟨rests, spared⟩ := later.keep (P := fun s => s.Resting ∧ (fresh = true →
      s.engine.board.contact = u.session.engine.board.contact ∧
      s.engine.board.counter = u.session.engine.board.counter))
    (fun sound step unstarted before => by
      obtain ⟨rests, spared⟩ := before.1.step sound step unstarted
      refine ⟨rests, fun always => ?_⟩
      obtain ⟨contact, counter⟩ := spared always
      exact ⟨contact.trans (before.2 always).1, counter.trans (before.2 always).2⟩)
    steady ⟨resting, fun _ => ⟨rfl, rfl⟩⟩ still
  refine ⟨rests.stopped, rests.rests, ?_⟩
  rintro rfl
  exact ⟨(later.sound steady).atRest rests, spared rfl⟩

theorem Young.move {n : Nat} (young : t.Young n) (m : Move) : (t.move m).Young (n + 1) := by
  have older : t.Young (n + 1) := fun m member => Nat.le_succ_of_le (young m member)
  cases m with
  | order o => exact young.goOn _
  | wait ms => exact older
  | deliver =>
      refine Young.goOn (t := { t with mail := t.mail.tail }) (fun m member => young m ?_) _
      rcases List.mem_append.mp member with queued | late
      · exact List.mem_append_left _ (List.mem_of_mem_tail queued)
      · exact List.mem_append_right _ late
  | lapse =>
      intro m member
      rw [Traffic.move, ← List.append_assoc] at member
      rcases List.mem_append.mp member with before | ends
      · exact older m before
      · obtain ⟨a, -, rfl⟩ := List.mem_map.mp ends
        exact Nat.zero_le _
  | arrive i =>
      cases found : t.late[i]? with
      | none => simpa only [Traffic.move, found] using older
      | some m =>
          have joins : t.move (.arrive i) =
              { session := { t.session with queue := t.session.queue ++ [m.event] }
                mail := t.mail ++ [m], late := t.late.eraseIdx i } := by
            simp only [Traffic.move, found]
          rw [joins]
          intro other member
          apply older
          have perm := (perm_taken found).append_left t.mail
          rw [perm.mem_iff]
          simpa using member
  | strike i =>
      cases found : t.late[i]? with
      | none => simpa only [Traffic.move, found] using older
      | some m =>
          have acts : t.move (.strike i) =
              ({ t with late := t.late.eraseIdx i } : Traffic σ).goOn
                (t.session.handle m.event) := by
            simp only [Traffic.move, found]
          rw [acts]
          refine Young.goOn (t := { t with late := t.late.eraseIdx i }) (fun m member => young m ?_) _
          rcases List.mem_append.mp member with queued | late
          · exact List.mem_append_left _ queued
          · exact List.mem_append_right _ (List.mem_of_mem_eraseIdx late)

/-- Fewer moves than there are epochs are too few for an event to get too old. -/
theorem becomes_foldl {n : Nat} (young : t.Young n) (moves : List Move)
    (short : n + moves.length < UInt32.size)
    (playable : ∀ p, .order (.play p) ∈ moves → p.Playable) :
    t.Becomes true (moves.foldl move t) ∧ (moves.foldl move t).Young (n + moves.length) := by
  induction moves using List.reverseRecOn with
  | nil => exact ⟨.refl, young⟩
  | append_singleton before m ih =>
      rw [List.length_append, List.length_singleton] at short ⊢
      obtain ⟨becomes, kept⟩ := ih (by omega) fun p member =>
        playable p (List.mem_append_left _ member)
      have later := kept.move m
      rw [List.foldl_append]
      refine ⟨becomes.move m ⟨?_, ?_⟩, later⟩
      · rintro p rfl
        exact playable p (List.mem_append_right _ (List.mem_singleton.mpr rfl))
      · intro _ other member
        have := later other member
        omega

/-- The wait after a step of a typed program is over just before the console quits, and its end joins
the queue only when the player has stopped. -/
theorem quit_releases_before_late_end :
    let start : Traffic RamStore :=
      { session := Session.ofStore { image := Image.erased imageSize } (.resting false) }
    let t := [.order (.line "c 1s o 1s" none), .deliver, .lapse].foldl move start
    let left := t.move (.order (.line "q" none))
    let u := [.deliver].foldl move left
    let v := [.arrive 0, .deliver].foldl move u
    u.late = [⟨.elapsed 1, 1⟩] ∧ u.AtRest ∧ v.AtRest ∧
      v.session.engine.board.contact = u.session.engine.board.contact ∧
      v.session.engine.board.counter = u.session.engine.board.counter := by
  intro start t left u v
  have new : start.Young 0 := nofun
  obtain ⟨before, young⟩ := becomes_foldl new
    [.order (.line "c 1s o 1s" none), .deliver, .lapse] (by decide) (by simp)
  have reachable : t.Reachable true := ⟨_, _, before⟩
  have gone := young.move (.order (.line "q" none))
  obtain ⟨drains, later⟩ := becomes_foldl gone [.deliver] (by decide) (by simp)
  obtain ⟨arrives, -⟩ := becomes_foldl later [.arrive 0, .deliver] (by decide) (by simp)
  have reads : Request.ofLine "q" = .ok .quit :=
    Request.ofLine_of_tokens [⟨0, "q".toList⟩] (by decide +kernel)
  obtain ⟨-, -, rests, after⟩ := reachable.quit_releases.2 "q" none reads (by decide +kernel) u
    drains (by decide +kernel) (by decide +kernel)
  obtain ⟨-, -, spared⟩ := after v arrives (by decide +kernel)
  exact ⟨by decide +kernel, rests rfl, spared rfl⟩

section round

/-- The player is stopped and goes on, so many times. -/
def pauses (n : Nat) : List Move :=
  (List.replicate n [Move.order .stop, .deliver, .order .resume, .deliver]).flatten

/-- The player has begun to wait, all of the time is left, and the console owns the relay. -/
structure Waits (t : Traffic σ) (ms : UInt32) : Prop where
  quiet : t.session.engine.board.published = []
  owned : t.session.engine.board.state = .consoleOwned
  running : t.session.player.playback = .running
  timeLeft : t.session.player.timeLeftMs = 0
  armed : t.session.timer.armed = some ⟨ms, t.session.player.epoch⟩
  elapsed : t.session.timer.elapsedMs = 0
  unqueued : t.session.queue = []
  unposted : t.mail = []

/-- The same session so many epochs later. -/
def later (t : Traffic σ) (ms : UInt32) (n : Nat) : Traffic σ :=
  let epoch := t.session.player.epoch + UInt32.ofNat n
  { t with
    session := { t.session with
      player := { t.session.player with epoch }
      timer := { armed := some ⟨ms, epoch⟩, elapsedMs := 0, starts := t.session.timer.starts + n }
      log := (List.replicate n [Event.start false, .stop]).flatten ++ t.session.log }
    late := t.late.map fun m => { m with age := m.age + n } }

variable {ms : UInt32}

omit [ByteStore σ] in
theorem Waits.later (waits : Waits t ms) (n : Nat) : Waits (t.later ms n) ms :=
  ⟨waits.quiet, waits.owned, waits.running, waits.timeLeft, rfl, rfl, waits.unqueued, waits.unposted⟩

/-- The same session, stopped while it waits. -/
def stopped (t : Traffic σ) (ms : UInt32) : Traffic σ :=
  let epoch := t.session.player.epoch + 1
  { t with
    session := { t.session with
      player := { t.session.player with playback := .paused, timeLeftMs := ms, epoch }
      timer := { armed := none, elapsedMs := 0, starts := t.session.timer.starts }
      log := .stop :: t.session.log }
    late := t.late.map fun m => { m with age := m.age + 1 } }

theorem Waits.move_stop (waits : Waits t ms) :
    [Move.order .stop, .deliver].foldl move t = t.stopped ms := by
  obtain ⟨⟨⟨catalog, ⟨contact, active, state, counter, published⟩⟩,
    ⟨program, playback, epoch, timeLeft⟩, ⟨armed, elapsed, starts⟩, console, queue, log⟩,
    mail, late⟩ := t
  obtain ⟨quiet, owned, running, nothing, waiting, begun, unqueued, unposted⟩ := waits
  simp only at quiet owned running nothing waiting begun unqueued unposted
  subst quiet owned running nothing waiting begun unqueued unposted
  have handed : [Event.stop].filter Event.isForPlayer = [.stop] := rfl
  have left : Countdown.remaining ⟨some ⟨ms, epoch⟩, 0, starts⟩ = ms := by
    simp [Countdown.remaining]
  simp [Traffic.move, goOn, stopped, Session.order, Session.onBoard, Session.collect,
    Session.pump_one, Session.handle, Engine.onBoard, Board.stop, Board.publish, RunState.after,
    handed, Player.handle, Player.pause, Deck.aged_next, left, Countdown.apply]

theorem Waits.move_resume (waits : Waits t ms) (long : ms ≠ 0) :
    [Move.order .resume, .deliver].foldl move (t.stopped ms) = t.later ms 1 := by
  obtain ⟨⟨⟨catalog, ⟨contact, active, state, counter, published⟩⟩,
    ⟨program, playback, epoch, timeLeft⟩, ⟨armed, elapsed, starts⟩, console, queue, log⟩,
    mail, late⟩ := t
  obtain ⟨quiet, owned, running, nothing, waiting, begun, unqueued, unposted⟩ := waits
  simp only at quiet owned running nothing waiting begun unqueued unposted
  subst quiet owned running nothing waiting begun unqueued unposted
  have handed : [Event.start false].filter Event.isForPlayer = [.start false] := rfl
  simp [Traffic.move, goOn, stopped, Traffic.later, Session.order, Session.onBoard, Session.collect,
    Session.pump_one, Session.handle, Engine.onBoard, Board.resume, Board.publish, RunState.after,
    handed, Player.handle, Player.resume, long, Countdown.apply]

theorem Waits.move_pause (waits : Waits t ms) (long : ms ≠ 0) :
    [Move.order .stop, .deliver, .order .resume, .deliver].foldl move t = t.later ms 1 := by
  change [Move.order .resume, .deliver].foldl move ([Move.order .stop, .deliver].foldl move t) = _
  rw [waits.move_stop, waits.move_resume long]

omit [ByteStore σ] in
theorem Waits.later_zero (waits : Waits t ms) : t.later ms 0 = t := by
  obtain ⟨⟨engine, player, ⟨armed, elapsed, starts⟩, console, queue, log⟩, mail, late⟩ := t
  obtain ⟨-, -, -, -, waiting, begun, -, -⟩ := waits
  simp only at waiting begun
  subst waiting begun
  simp [Traffic.later]

theorem Waits.foldl_pauses (waits : Waits t ms) (long : ms ≠ 0) (n : Nat) :
    (pauses n).foldl move t = t.later ms n := by
  have next (n : Nat) : [Move.order .stop, .deliver, .order .resume, .deliver].foldl move
      (t.later ms n) = t.later ms (n + 1) := by
    rw [(waits.later n).move_pause long]
    simp [Traffic.later, UInt32.ofNat_add, UInt32.add_assoc, Nat.add_assoc, List.replicate_succ]
  have rounds := Deck.foldl_rounds next n
  rw [waits.later_zero] at rounds
  exact rounds

/-- Where events may get as old as they like, all moves are in order that give no program. -/
theorem Becomes.foldl_unplayed {u : Traffic σ} (becomes : t.Becomes false u) (moves : List Move)
    (unplayed : ∀ p, .order (.play p) ∉ moves) : t.Becomes false (moves.foldl Traffic.move u) := by
  induction moves generalizing u with
  | nil => exact becomes
  | cons m rest ih =>
      have admits : u.Admits false m := by
        refine ⟨?_, nofun⟩
        rintro p rfl
        exact absurd List.mem_cons_self (unplayed p)
      exact ih (becomes.move m admits) fun p member => unplayed p (List.mem_cons_of_mem _ member)

theorem unplayed_pauses (n : Nat) (p : Program) : .order (.play p) ∉ pauses n := by
  simp [pauses]

/-- To act on an event starts nothing. -/
theorem starts_deliver (quiet : t.session.engine.board.published = []) :
    (t.move .deliver).session.starts = t.session.starts := by
  change (t.session.pump 1).starts = _
  rw [Session.pump_one]
  cases t.session.queue with
  | nil => rfl
  | cons e rest => exact Session.starts_handle (s := { t.session with queue := rest }) quiet e

theorem starts_strike (quiet : t.session.engine.board.published = []) (i : Nat) :
    (t.move (.strike i)).session.starts = t.session.starts := by
  cases found : t.late[i]? with
  | none => simp only [Traffic.move, found]
  | some m =>
      simp only [Traffic.move, found]
      exact Session.starts_handle quiet m.event

/-- A typed program is stopped and goes on again and again, until the end of its first wait, which has
not joined the queue, is as old as there are epochs and the console quits. That end moves the
contact. -/
theorem quit_moved_after_round :
    let start : Traffic RamStore :=
      { session := Session.ofStore { image := Image.erased imageSize } (.resting false) }
    let overtaken := [.order (.line "c 1s o 1s c 1s" none), .deliver, .lapse, .order .stop, .deliver,
      .order .resume, .deliver].foldl move start
    let t := (pauses (UInt32.size - 3)).foldl move overtaken
    let left := t.move (.order (.line "q" none))
    let u := left.move .deliver
    let v := u.move (.strike 0)
    t.Reachable false ∧ Request.ofLine "q" = .ok .quit ∧ t.session.console.owning = true ∧
      left.Becomes false u ∧ u.session.starts = left.session.starts ∧ u.session.queue = [] ∧
      u.Becomes false v ∧ v.session.starts = u.session.starts ∧
      v.session.engine.board.contact ≠ u.session.engine.board.contact := by
  intro start overtaken t left u v
  have waits : Waits overtaken 1000 := by
    refine ⟨?_, ?_, ?_, ?_, ?_, ?_, ?_, ?_⟩ <;> decide +kernel
  have later : t = overtaken.later 1000 (UInt32.size - 3) :=
    waits.foldl_pauses (by decide) (UInt32.size - 3)
  have reachable : t.Reachable false := by
    refine ⟨_, _, Becomes.foldl_unplayed (Becomes.foldl_unplayed .refl _ ?_) _ (unplayed_pauses _)⟩
    simp
  have reads : Request.ofLine "q" = .ok .quit :=
    Request.ofLine_of_tokens [⟨0, "q".toList⟩] (by decide +kernel)
  have delivers : left.Becomes false u := Becomes.refl.move .deliver ⟨nofun, nofun⟩
  have strikes : u.Becomes false v := Becomes.refl.move (.strike 0) ⟨nofun, nofun⟩
  have gone := (reachable.sound.order (o := .line "q" none) nofun).2
  have drained := delivers.sound gone
  have owns : t.session.console.owning = true := by rw [later]; decide +kernel
  have empty : u.session.queue = [] := by
    simp only [u, left, later]
    decide +kernel
  have moved : v.session.engine.board.contact ≠ u.session.engine.board.contact := by
    simp only [v, u, left, later]
    decide +kernel
  exact ⟨reachable, reads, owns, delivers, starts_deliver gone.session.quiet, empty, strikes,
    starts_strike drained.session.quiet 0, moved⟩

end round

end Traffic

end RelayTimer
