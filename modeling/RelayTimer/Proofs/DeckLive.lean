import Mathlib.Data.List.Perm.Basic
import RelayTimer.Proofs.Deck

set_option autoImplicit false

/-!
A running player waits for exactly one end of a time, and a player that does not run for none.
-/
namespace RelayTimer.Deck

@[simp]
theorem aged_same (mail : List Message) (epoch : UInt32) : aged mail epoch epoch = mail := by
  simp [aged]

theorem aged_next (mail : List Message) (epoch : UInt32) :
    aged mail epoch (epoch + 1) = mail.map fun m => { m with age := m.age + 1 } := by
  simp [aged]

/-- What is done over and over leads on from one state to the next, if each round does. -/
theorem foldl_rounds {S A : Type} {act : S → A → S} {round : List A} {after : Nat → S}
    (next : ∀ n, round.foldl act (after n) = after (n + 1)) (n : Nat) :
    (List.replicate n round).flatten.foldl act (after 0) = after n := by
  induction n with
  | zero => rfl
  | succ n ih =>
      rw [List.replicate_succ', List.flatten_append, List.foldl_append, ih, List.flatten_singleton]
      exact next n

/-- Every end of a time that is on its way tells the epoch of its posting. -/
def Dated (mail : List Message) (epoch : UInt32) : Prop :=
  ∀ m ∈ mail, ∀ n, m.event = .elapsed n → n + UInt32.ofNat m.age = epoch

theorem Dated.aged_next {mail : List Message} {epoch : UInt32} (dated : Dated mail epoch) :
    Dated (aged mail epoch (epoch + 1)) (epoch + 1) := by
  rw [Deck.aged_next]
  intro m member n ends
  obtain ⟨old, inside, rfl⟩ := List.mem_map.mp member
  have before := dated old inside n ends
  rw [← before, UInt32.ofNat_add, UInt32.add_assoc]
  rfl

/-- What was on its way when an epoch began is no end of a time in that epoch. -/
theorem Dated.count_aged_next {mail : List Message} {epoch : UInt32} (dated : Dated mail epoch)
    (fresh : ∀ m ∈ aged mail epoch (epoch + 1), m.age < UInt32.size) :
    ((aged mail epoch (epoch + 1)).map (·.event)).count (.elapsed (epoch + 1)) = 0 := by
  rw [List.count_eq_zero]
  intro member
  obtain ⟨m, inside, ends⟩ := List.mem_map.mp member
  have young := fresh m inside
  rw [Deck.aged_next] at inside
  obtain ⟨old, was, rfl⟩ := List.mem_map.mp inside
  have before := congrArg UInt32.toNat (dated old was _ ends)
  simp only [UInt32.toNat_add, UInt32.toNat_ofNat] at before
  have := epoch.toNat_lt
  simp only [UInt32.size] at young
  simp at before
  omega

@[simp]
theorem player_absorb (d : Deck) (played : Played) : (d.absorb played).player = played.player := rfl

/-- What holds of a deck between two moments, apart from what is live. -/
structure Sound (d : Deck) : Prop where
  quiet : d.board.published = []
  dated : Dated d.mail d.player.epoch
  armed : ∀ a ∈ d.timer.armed, a.epoch = d.player.epoch

/-- How many ends of a time a player waits for. -/
def awaited (p : Player) : Nat := if p.playback = .running then 1 else 0

/-- One if the event is an end of a time in the epoch, and none otherwise. -/
def liveIn (epoch : UInt32) (e : Event) : Nat := if e = .elapsed epoch then 1 else 0

theorem live_eq (d : Deck) (sound : d.Sound) :
    d.live = d.timer.armed.toList.length + (d.mail.map (·.event)).count (.elapsed d.player.epoch) := by
  unfold live inFlight
  rw [List.count_append]
  cases armed : d.timer.armed with
  | none => simp
  | some a =>
      have current := sound.armed a armed
      simp [current]

theorem published_publish (b : Board) (e : Event) : (b.publish e).published = b.published ++ [e] :=
  rfl

@[simp]
theorem isForPlayer_counterChanged : Event.counterChanged.isForPlayer = false := rfl

@[simp]
theorem isForPlayer_ended : Event.ended.isForPlayer = false := rfl

@[simp]
theorem isForPlayer_elapsed (epoch : UInt32) : (Event.elapsed epoch).isForPlayer = true := rfl

/-- Driving the contact tells the player nothing. -/
theorem published_act_filter (b : Board) (kind : StepKind)
    (quiet : b.published.filter Event.isForPlayer = []) :
    (Player.act b kind).published.filter Event.isForPlayer = [] := by
  unfold Player.act
  split
  · rename_i intent _
    simp only [Board.driveContact, Board.withContact, Contact.set, List.filter_append, quiet,
      List.nil_append]
    split <;> rfl
  · exact quiet

/-- What is left of the mail once nothing in flight is live. -/
theorem none_live {d : Deck} (sound : d.Sound) (dead : d.live = 0) :
    d.timer.armed = none ∧ (d.mail.map (·.event)).count (.elapsed d.player.epoch) = 0 := by
  rw [live_eq d sound] at dead
  refine ⟨?_, by omega⟩
  cases armed : d.timer.armed with
  | none => rfl
  | some a => simp [armed] at dead

/-- Within an epoch nothing in flight is lost, and what is published for the player joins it. -/
theorem live_absorb_same (d : Deck) (played : Played)
    (same : played.player.epoch = d.player.epoch) (silent : played.request = none) :
    (d.absorb played).live =
      d.live + (played.board.published.filter Event.isForPlayer).count (.elapsed d.player.epoch) := by
  simp only [live, inFlight, absorb, same, silent, aged_same, List.map_append, List.map_map,
    List.count_append, Function.comp_def, List.map_id']
  omega

theorem Sound.absorb_same {d : Deck} (sound : d.Sound) (played : Played)
    (same : played.player.epoch = d.player.epoch) (silent : played.request = none)
    (own : ∀ n, Event.elapsed n ∈ played.board.published → n = d.player.epoch) :
    (d.absorb played).Sound := by
  refine ⟨rfl, ?_, ?_⟩
  · intro m member n ends
    simp only [absorb, same, aged_same, List.mem_append] at member
    rcases member with old | fresh
    · simpa only [absorb, same] using sound.dated m old n ends
    · obtain ⟨e, inside, rfl⟩ := List.mem_map.mp fresh
      have posted : e = .elapsed n := ends
      subst posted
      have current := own n (List.mem_filter.mp inside).1
      simp [absorb, same, current]
  · intro a armed
    simp only [absorb, silent] at armed
    simpa only [absorb, same] using sound.armed a armed

/-- A timer that is armed anew within its epoch waits for the one live end of a time. -/
theorem Sound.absorb_rearmed {d : Deck} (sound : d.Sound) (dead : d.live = 0) (played : Played)
    (same : played.player.epoch = d.player.epoch) (quiet : played.board.published = [])
    (ms : UInt32) (starts : played.request = some (.start ms d.player.epoch)) :
    (d.absorb played).Sound ∧ (d.absorb played).live = 1 := by
  have fixed : (d.absorb played).Sound := by
    refine ⟨rfl, ?_, ?_⟩
    · intro m member n ends
      simp only [absorb, same, aged_same, quiet, List.filter_nil, List.map_nil,
        List.append_nil] at member
      simpa only [absorb, same] using sound.dated m member n ends
    · intro a armed
      simp only [absorb, starts, Countdown.apply, Option.mem_def, Option.some.injEq] at armed
      simp only [← armed, absorb, same]
  refine ⟨fixed, ?_⟩
  rw [live_eq _ fixed]
  simp [absorb, starts, same, quiet, Countdown.apply, (none_live sound dead).2]

/-- With a new epoch all that was in flight is dead, and the timer alone decides what is live. -/
theorem Sound.absorb_next {d : Deck} (sound : d.Sound) (played : Played)
    (next : played.player.epoch = d.player.epoch + 1)
    (quiet : played.board.published.filter Event.isForPlayer = [])
    (request : TimerRequest) (asks : played.request = some request)
    (own : ∀ ms epoch, request = .start ms epoch → epoch = d.player.epoch + 1)
    (fresh : (d.absorb played).Fresh) :
    (d.absorb played).Sound ∧
      (d.absorb played).live = (d.timer.apply request).armed.toList.length := by
  have mail : (d.absorb played).mail = aged d.mail d.player.epoch (d.player.epoch + 1) := by
    simp only [absorb, next, quiet, List.map_nil, List.append_nil]
  have fixed : (d.absorb played).Sound := by
    refine ⟨rfl, ?_, ?_⟩
    · rw [mail]
      simpa only [absorb, next] using sound.dated.aged_next
    · intro a armed
      simp only [absorb, asks] at armed
      cases request with
      | stop => simp [Countdown.apply] at armed
      | start ms epoch =>
          simp only [Countdown.apply, Option.mem_def, Option.some.injEq] at armed
          simp only [← armed, absorb, next, own ms epoch rfl]
  refine ⟨fixed, ?_⟩
  have dead := sound.dated.count_aged_next (by rw [← mail]; exact fresh)
  rw [live_eq _ fixed, mail]
  simp only [absorb, asks, next, dead, Nat.add_zero]

/-- The next step of a running player, on a deck with nothing live: the step is waited for, the
event after a looping step is, or the program has ended and nothing is. -/
theorem Sound.absorb_playNext {d : Deck} (sound : d.Sound) (own : Player) (board : Board)
    (epoch : own.epoch = d.player.epoch) (running : own.playback = .running)
    (quiet : ∀ e ∈ board.published, e = .counterChanged)
    (startable : d.live = 0 ∨ ∃ step program, own.program.next? = some (step, program) ∧
      step.kind ≠ .loops)
    (fresh : (d.absorb (own.playNext board)).Fresh) :
    (d.absorb (own.playNext board)).Sound ∧
      (d.absorb (own.playNext board)).live = awaited (own.playNext board).player := by
  have unposted : board.published.filter Event.isForPlayer = [] := by
    rw [List.filter_eq_nil_iff]
    intro e member
    rw [quiet e member]
    decide
  cases here : own.program.next? with
  | none =>
      have dead : d.live = 0 := by simpa [here] using startable
      rw [Player.playNext_ended here] at fresh ⊢
      have published : ((board.publish .ended).published).filter Event.isForPlayer = [] := by
        rw [published_publish, List.filter_append, unposted]
        rfl
      refine ⟨sound.absorb_same _ epoch rfl ?_, ?_⟩
      · intro n member
        rw [published_publish, List.mem_append] at member
        rcases member with old | ended
        · cases quiet _ old
        · simp at ended
      · rw [live_absorb_same d _ epoch rfl, published, dead]
        rfl
  | some next =>
      obtain ⟨step, program⟩ := next
      by_cases loops : step.kind = .loops
      · have dead : d.live = 0 := by simpa [here, loops] using startable
        rw [Player.playNext_looped here loops] at fresh ⊢
        refine ⟨sound.absorb_same _ epoch rfl ?_, ?_⟩
        · intro n member
          simp only [published_publish, Board.setCounter, List.mem_append, List.mem_singleton,
            Event.elapsed.injEq, reduceCtorEq, or_false] at member
          rcases member with old | posted
          · cases quiet _ old
          · rw [posted, epoch]
        · rw [live_absorb_same d _ epoch rfl, dead]
          simp only [published_publish, Board.setCounter, List.filter_append, unposted, epoch]
          simp [List.filter_cons, awaited, running]
      · rw [Player.playNext_stepped here loops] at fresh ⊢
        have started := sound.absorb_next _ (by simp only [epoch])
          (published_act_filter board step.kind unposted) _ rfl
          (by intro ms n same; cases same; rw [epoch]) fresh
        refine ⟨started.1, ?_⟩
        rw [started.2]
        simp [awaited, running, Countdown.apply]

/-- Whatever the player is handed and whatever time it believes is left, the deck is as it was: one
end of a time is live for a running player, none for another. The event in hand counts as in flight
before. -/
theorem Sound.absorb_handled {d : Deck} (sound : d.Sound) {remainingMs : UInt32} {e : Event}
    {played : Played} (outcome : Player.Handled d.player d.board remainingMs e played)
    (balance : d.live + liveIn d.player.epoch e = awaited d.player)
    (playable : e = .start true → d.board.program.Playable) (fresh : (d.absorb played).Fresh) :
    (d.absorb played).Sound ∧ (d.absorb played).live = awaited played.player := by
  have unpublished : ∀ e ∈ d.board.published, e = Event.counterChanged := by simp [sound.quiet]
  cases outcome with
  | advanced advance =>
      cases advance with
      | restart =>
          obtain ⟨step, first, acts⟩ := (playable rfl).next?
          refine sound.absorb_playNext _ _ rfl rfl ?_ (.inr ⟨step, _, first, acts⟩) fresh
          simp [published_publish, Board.setCounter, sound.quiet]
      | resume paused nothing =>
          have dead : d.live = 0 := by
            simp only [awaited, paused, reduceCtorEq, ↓reduceIte] at balance
            omega
          exact sound.absorb_playNext _ _ rfl rfl unpublished (.inl dead) fresh
      | elapsed =>
          simp only [liveIn, ↓reduceIte, awaited] at balance
          split at balance
          · rename_i running
            exact sound.absorb_playNext _ _ rfl running unpublished (.inl (by omega)) fresh
          · omega
  | rearmed command paused left =>
      have dead : d.live = 0 := by
        simp only [awaited, paused, reduceCtorEq, ↓reduceIte] at balance
        omega
      exact sound.absorb_rearmed dead _ rfl sound.quiet _ rfl
  | paused command running =>
      refine sound.absorb_next _ rfl (by simp [sound.quiet]) _ rfl ?_ fresh
      intro ms epoch same
      cases same
  | refused command idle =>
      subst command
      refine ⟨sound.absorb_same _ rfl rfl ?_, ?_⟩
      · simp [published_publish, sound.quiet]
      · rw [live_absorb_same d _ rfl rfl]
        simpa [published_publish, sound.quiet, liveIn] using balance
  | ignored stale other =>
      refine ⟨sound.absorb_same _ rfl rfl (by simp [sound.quiet]), ?_⟩
      rw [live_absorb_same d _ rfl rfl]
      simpa [sound.quiet, liveIn, stale] using balance

theorem Sound.handle {d : Deck} (sound : d.Sound) (e : Event)
    (balance : d.live + liveIn d.player.epoch e = awaited d.player)
    (playable : e = .start true → d.board.program.Playable) (fresh : (d.handle e).Fresh) :
    (d.handle e).Sound ∧ (d.handle e).live = awaited (d.handle e).player :=
  sound.absorb_handled (Player.handle_handled _ _ _ e) balance playable fresh

/-- Mail is taken out, and the rest is put into another order. -/
theorem Sound.of_perm {d other : Deck} (sound : d.Sound) (taken : List Message)
    (player : other.player = d.player) (quiet : other.board.published = [])
    (armed : other.timer.armed = d.timer.armed) (mail : d.mail.Perm (taken ++ other.mail)) :
    other.Sound ∧ other.live + (taken.map (·.event)).count (.elapsed d.player.epoch) = d.live := by
  refine ⟨⟨quiet, ?_, ?_⟩, ?_⟩
  · intro m member n ends
    rw [player]
    exact sound.dated m (mail.mem_iff.mpr (List.mem_append_right _ member)) n ends
  · rw [armed, player]
    exact sound.armed
  · unfold live inFlight
    rw [player, armed, List.count_append, List.count_append, (mail.map _).count_eq, List.map_append,
      List.count_append]
    omega

/-- Events that are no ends of a time join the mail. -/
theorem Sound.of_joined {d other : Deck} (sound : d.Sound) {joined : List Message}
    (unposted : ∀ m ∈ joined, ∀ n, m.event ≠ .elapsed n) (player : other.player = d.player)
    (quiet : other.board.published = []) (armed : other.timer.armed = d.timer.armed)
    (mail : other.mail.Perm (joined ++ d.mail)) : other.Sound ∧ other.live = d.live := by
  refine ⟨⟨quiet, ?_, ?_⟩, ?_⟩
  · intro m member n ends
    rw [player]
    rcases List.mem_append.mp (mail.mem_iff.mp member) with new | old
    · exact absurd ends (unposted m new n)
    · exact sound.dated m old n ends
  · rw [armed, player]
    exact sound.armed
  · have dead : (joined.map (·.event)).count (.elapsed d.player.epoch) = 0 := by
      rw [List.count_eq_zero]
      intro member
      obtain ⟨m, new, same⟩ := List.mem_map.mp member
      exact unposted m new _ same
    unfold live inFlight
    rw [player, armed, List.count_append, List.count_append, (mail.map _).count_eq, List.map_append,
      List.count_append, dead, Nat.zero_add]

/-- What is in flight, and what the player is handed, is what was in flight before. -/
theorem Sound.prepared {d : Deck} (sound : d.Sound) (a : Action)
    (command : ∀ epoch, a ≠ .post (.elapsed epoch) ∧ a ≠ .jump (.elapsed epoch)) :
    (d.prepared a).Sound ∧ (d.prepared a).player = d.player ∧
      (d.prepared a).live + (d.handled? a).elim 0 (liveIn d.player.epoch) = d.live := by
  cases a with
  | post e =>
      have dead : ∀ epoch, e ≠ .elapsed epoch := by
        rintro epoch rfl
        exact (command epoch).1 rfl
      refine ⟨⟨sound.quiet, ?_, sound.armed⟩, rfl, ?_⟩
      · intro m member n ends
        rcases List.mem_append.mp member with old | posted
        · exact sound.dated m old n ends
        · rw [List.mem_singleton.mp posted] at ends
          exact absurd ends (dead n)
      · simp [live, inFlight, Deck.prepared, handled?, dead]
  | jump e =>
      have dead : ∀ epoch, e ≠ .elapsed epoch := by
        rintro epoch rfl
        exact (command epoch).2 rfl
      exact ⟨sound, rfl, by simp [Deck.prepared, handled?, liveIn, dead]⟩
  | deliver =>
      cases mail : d.mail with
      | nil => exact ⟨⟨sound.quiet, by simp [Deck.prepared, mail, Dated], sound.armed⟩, rfl,
          by simp [live, inFlight, Deck.prepared, handled?, mail]⟩
      | cons m rest =>
          refine ⟨⟨sound.quiet, ?_, sound.armed⟩, rfl, ?_⟩
          · intro other member
            exact sound.dated other (List.mem_of_mem_tail member)
          · simp only [live, inFlight, Deck.prepared, handled?, mail, List.tail_cons, List.head?_cons,
              Option.map_some, Option.elim_some, List.map_cons, List.count_append,
              List.count_cons, liveIn, beq_iff_eq]
            omega
  | expire =>
      cases armed : d.timer.armed with
      | none =>
          refine ⟨⟨sound.quiet, ?_, by simp [Deck.prepared, Countdown.fire]⟩, rfl, ?_⟩
          · simpa [Deck.prepared, Countdown.fire, armed] using sound.dated
          · simp [live, inFlight, Deck.prepared, handled?, Countdown.fire, armed]
      | some a =>
          have current := sound.armed a armed
          refine ⟨⟨sound.quiet, ?_, by simp [Deck.prepared, Countdown.fire]⟩, rfl, ?_⟩
          · intro m member n ends
            simp only [Deck.prepared, Countdown.fire, armed, Option.toList_some, List.map_cons,
              List.map_nil, List.mem_append, List.mem_singleton] at member
            rcases member with old | posted
            · exact sound.dated m old n ends
            · rw [posted] at ends
              cases ends
              simp [posted, Deck.prepared, current]
          · simp only [live, inFlight, Deck.prepared, handled?, Countdown.fire, armed, current,
              Option.toList_some, Option.toList_none, List.map_cons, List.map_nil, List.map_append,
              List.count_append, List.count_nil, Option.elim_none]
            omega
  | strike =>
      refine ⟨⟨sound.quiet, sound.dated, by simp [Deck.prepared, Countdown.fire]⟩, rfl, ?_⟩
      cases armed : d.timer.armed with
      | none => simp [live, inFlight, Deck.prepared, handled?, Countdown.fire, armed]
      | some a =>
          simp only [live, inFlight, Deck.prepared, handled?, Countdown.fire, armed,
            Option.map_some, Option.toList_some, Option.toList_none, Option.elim_some,
            List.map_cons, List.map_nil, List.count_append, List.count_nil, liveIn,
            List.count_cons, beq_iff_eq]
          omega
  | wait ms => exact ⟨⟨sound.quiet, sound.dated, sound.armed⟩, rfl, rfl⟩
  | change board => exact ⟨⟨rfl, sound.dated, sound.armed⟩, rfl, rfl⟩

theorem Sound.act {d : Deck} (sound : d.Sound) (balance : d.live = awaited d.player) (a : Action)
    (admits : d.Admits a) : (d.act a).Sound ∧ (d.act a).live = awaited (d.act a).player := by
  obtain ⟨fixed, same, before⟩ := sound.prepared a admits.command
  have fresh := admits.fresh
  have playable := admits.playable
  unfold Deck.act at fresh ⊢
  cases handed : d.handled? a with
  | none =>
      simp only [handed, Option.elim_none, Nat.add_zero] at before
      exact ⟨fixed, by rw [before, balance, same]⟩
  | some e =>
      simp only [handed] at fresh playable
      simp only [handed, Option.elim_some] at before
      refine fixed.handle e (by rw [same, before, balance]) ?_ fresh
      intro restart
      have program : (d.prepared a).board.program = d.board.program := by
        cases a <;> first | rfl | simp [handled?] at handed
      rw [program]
      exact playable (by rw [restart])

theorem Reachable.sound {d : Deck} (reachable : d.Reachable) :
    d.Sound ∧ d.live = awaited d.player := by
  induction reachable with
  | new board quiet => exact ⟨⟨quiet, by simp [Dated], by simp⟩, rfl⟩
  | act before a admits ih => exact ih.1.act ih.2 a admits

/-- An end of a time that is not of the player's epoch changes nothing at all. -/
theorem handle_stale {d : Deck} (sound : d.Sound) (epoch : UInt32) (stale : epoch ≠ d.player.epoch) :
    d.handle (.elapsed epoch) = d := by
  obtain ⟨player, ⟨contact, program, state, counter, published⟩, timer, mail, log⟩ := d
  have quiet : published = [] := sound.quiet
  subst quiet
  simp only at stale
  simp [Deck.handle, Player.handle, stale, absorb]

/-- In every deck that comes of a new player, whatever is commanded, posted, delayed or delivered
in any order, a running player waits for exactly one end of a time and another player for none.
So nothing else in flight can act once an end of a time is acted on, none acts while the player is
paused or idle, and a running player always has something to wait for. -/
theorem Reachable.one_live {d : Deck} (reachable : d.Reachable) :
    d.live = (if d.player.playback = .running then 1 else 0) ∧
      (∀ a, d.Admits a → d.handled? a = some (.elapsed d.player.epoch) →
        (d.prepared a).live = 0) ∧
      (d.player.playback ≠ .running → ∀ a epoch, d.Admits a →
        d.handled? a = some (.elapsed epoch) → d.act a = d.prepared a) ∧
      (d.player.playback = .running → Event.elapsed d.player.epoch ∈ d.inFlight) := by
  obtain ⟨sound, balance⟩ := reachable.sound
  refine ⟨balance, ?_, ?_, ?_⟩
  · intro a admits current
    obtain ⟨-, -, before⟩ := sound.prepared a admits.command
    have atMost : awaited d.player ≤ 1 := by
      unfold awaited
      split <;> omega
    rw [balance, current] at before
    simp only [Option.elim_some, liveIn, ↓reduceIte] at before
    omega
  · intro still a epoch admits handed
    obtain ⟨fixed, same, before⟩ := sound.prepared a admits.command
    have stale : epoch ≠ (d.prepared a).player.epoch := by
      rintro rfl
      rw [balance, handed, same] at before
      simp [liveIn, awaited, still] at before
    unfold Deck.act
    rw [handed]
    exact handle_stale fixed epoch stale
  · intro running
    apply List.count_pos_iff.mp
    change 0 < d.live
    simp [balance, awaited, running]

/-- A pause overtakes the end of a time that is already posted, and the program goes on without
it: one end of a time is on its way and dead, and the timer waits for the live one. -/
theorem one_live_after_overtaking :
    let program : Program := { steps := [⟨.opens, 5000⟩, ⟨.closes, 5000⟩] }
    let board : Board := { contact := { relay := .resting false }, program }
    let d := [Action.jump (.start true), .wait 5000, .expire, .jump .stop, .jump (.start false)].foldl
      Deck.act { board }
    d.Reachable ∧ d.mail = [⟨.elapsed 1, 2⟩] ∧ d.player.playback = .running ∧ d.live = 1 := by
  intro program board d
  have start : Reachable { board } := .new board rfl
  have started := start.act (.jump (.start true))
    ⟨fun _ => ⟨nofun, nofun⟩, fun _ => ⟨_, rfl, by decide⟩, by decide⟩
  have waited := started.act (.wait 5000) ⟨fun _ => ⟨nofun, nofun⟩, nofun, by decide⟩
  have expired := waited.act .expire ⟨fun _ => ⟨nofun, nofun⟩, nofun, by decide⟩
  have paused := expired.act (.jump .stop) ⟨fun _ => ⟨nofun, nofun⟩, nofun, by decide⟩
  have resumed := paused.act (.jump (.start false)) ⟨fun _ => ⟨nofun, nofun⟩, nofun, by decide⟩
  exact ⟨resumed, by decide, by decide, resumed.one_live.1⟩

end RelayTimer.Deck
