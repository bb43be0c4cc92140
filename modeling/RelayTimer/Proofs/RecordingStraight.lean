import RelayTimer.Proofs.RecordingRun

set_option autoImplicit false

/-!
The player that nobody stops, and what every other run of the program has in common with it.
-/
namespace RelayTimer.Recording

open Program (unrollFrom)

section consequences

variable {p : Program} {r : Recording}

theorem length_steps (r : Recording) : r.steps.length = r.played.length := by
  simp [steps]

theorem Timeline.unrolled (line : Timeline p r) : p.unrolled r.played.length = r.steps := by
  simpa [unrollFrom] using line.place 0

/-- Past the end of a program there are no more steps. -/
theorem Timeline.unrolled_of_idle (line : Timeline p r) (idle : r.deck.player.playback = .idle)
    (k : Nat) : p.unrolled (r.played.length + k) = r.steps := by
  simpa [line.ended idle] using line.place k

/-- No recording of a program is longer than one in which it has ended. -/
theorem Timeline.length_le_of_idle {other : Recording} (line : Timeline p r)
    (idle : r.deck.player.playback = .idle) (another : Timeline p other) :
    other.played.length ≤ r.played.length := by
  apply Decidable.byContradiction
  intro longer
  obtain ⟨k, more⟩ := Nat.exists_eq_add_of_le (Nat.le_of_not_le longer)
  have same : other.steps = r.steps := by
    rw [← another.unrolled, more, line.unrolled_of_idle idle k]
  have := congrArg List.length same
  simp only [length_steps] at this
  omega

/-- A program that loops never ends, and one that ends has been played as a whole. -/
theorem Timeline.whole_of_idle (line : Timeline p r) (idle : r.deck.player.playback = .idle) :
    (∀ step ∈ p.steps, step.kind ≠ .loops) ∧ r.steps = p.steps := by
  have straight : ∀ step ∈ p.steps, step.kind ≠ .loops := by
    intro step member loops
    have long := Program.length_unrollFrom_of_loop p.steps p.steps (r.played.length + 1)
      ⟨step, member, loops⟩ ⟨step, member, loops⟩
    have all := congrArg List.length (line.unrolled_of_idle idle 1)
    rw [length_steps] at all
    unfold Program.unrolled at all
    omega
  refine ⟨straight, ?_⟩
  have all := line.unrolled_of_idle idle p.steps.length
  rw [← all]
  unfold Program.unrolled
  rw [Program.unrollFrom_of_no_loop _ _ _ straight]
  exact List.take_of_length_le (by omega)

theorem Timeline.idle_iff_told (line : Timeline p r) :
    r.deck.player.playback = .idle ↔ Event.ended ∈ r.deck.log := by
  refine ⟨line.told, ?_⟩
  intro told
  apply Decidable.byContradiction
  intro active
  exact line.untold active told

/-- Once a program that does not loop has been played as a whole, no step of it is left. -/
theorem Timeline.next?_of_whole (line : Timeline p r)
    (straight : ∀ step ∈ p.steps, step.kind ≠ .loops) (whole : r.steps = p.steps) :
    r.deck.player.program.next? = none := by
  have place := line.place 1
  unfold Program.unrolled at place
  rw [Program.unrollFrom_of_no_loop _ _ _ straight, whole, ← length_steps, whole,
    List.take_of_length_le (by omega)] at place
  have nothing : unrollFrom p.steps 1 (p.steps.drop r.deck.player.program.cursor) = [] := by
    simpa using place.symm
  cases left : p.steps.drop r.deck.player.program.cursor with
  | nil =>
      rw [← line.program] at left
      simpa [Program.next?] using left
  | cons step rest =>
      rw [left] at nothing
      cases nothing

/-- The end of a time that is acted on makes the player play its next step. -/
theorem act_elapsed {b : Action} (command : ∀ epoch, b ≠ .jump (.elapsed epoch))
    (handed : r.deck.handled? b = some (.elapsed r.deck.player.epoch)) :
    ∃ mail timer, r.act b = { r with deck := { r.deck with mail, timer } }.absorb
      (r.deck.player.playNext r.deck.board) := by
  unfold Recording.act
  rw [handed]
  unfold Recording.handle
  cases b with
  | jump e =>
      simp only [Deck.handled?, Option.some.injEq] at handed
      exact absurd (by rw [handed]) (command r.deck.player.epoch)
  | deliver =>
      refine ⟨r.deck.mail.tail, r.deck.timer, ?_⟩
      simp [Recording.prepared, Deck.prepared, Player.handle]
  | strike =>
      refine ⟨r.deck.mail, r.deck.timer.fire.2, ?_⟩
      simp [Recording.prepared, Deck.prepared, Player.handle]
  | _ => cases handed

/-- A program that has been played as a whole ends with the end of its last time. -/
theorem Timeline.ends (line : Timeline p r) (once : ∀ step ∈ p.steps, step.kind ≠ .loops)
    (whole : r.steps = p.steps) {b : Action} (command : ∀ epoch, b ≠ .jump (.elapsed epoch))
    (handed : r.deck.handled? b = some (.elapsed r.deck.player.epoch)) :
    (r.act b).deck.player.playback = .idle := by
  obtain ⟨mail, timer, done⟩ := act_elapsed command handed
  rw [done, Player.playNext_ended (line.next?_of_whole once whole)]
  rfl

/-- A player that becomes idle says so once. -/
theorem log_absorb_playNext {own : Player} {board : Board} (deck : Deck)
    (active : own.playback ≠ .idle) (quiet : board.published = [])
    (idle : (own.playNext board).player.playback = .idle) :
    (deck.absorb (own.playNext board)).log = .ended :: deck.log := by
  cases here : own.program.next? with
  | none =>
      rw [Player.playNext_ended here]
      simp [Deck.absorb, Deck.published_publish, quiet]
  | some next =>
      obtain ⟨step, program⟩ := next
      by_cases loops : step.kind = .loops
      · rw [Player.playNext_looped here loops] at idle
        exact absurd idle active
      · rw [Player.playNext_stepped here loops] at idle
        exact absurd idle active

theorem log_handle {d : Deck} (e : Event) (quiet : d.board.published = [])
    (unbroken : e ≠ .start true)
    (active : d.player.playback ≠ .idle) (idle : (d.handle e).player.playback = .idle) :
    (d.handle e).log = .ended :: d.log := by
  unfold Deck.handle at idle ⊢
  have outcome := Player.handle_handled d.player d.board d.timer.remaining e
  generalize d.player.handle d.board d.timer.remaining e = done at idle outcome ⊢
  cases outcome with
  | advanced advance =>
      cases advance with
      | restart => exact absurd rfl unbroken
      | resume paused nothing => exact log_absorb_playNext d nofun quiet idle
      | elapsed => exact log_absorb_playNext d active quiet idle
  | rearmed command paused left => cases idle
  | paused command running => cases idle
  | refused command idle => exact absurd idle active
  | ignored stale other => exact absurd idle active

theorem Follows.ends_once {fresh punctual : Bool} (follows : Follows fresh punctual p r) {b : Action}
    (timely : Timely r.deck b) (active : r.deck.player.playback ≠ .idle)
    (idle : (r.act b).deck.player.playback = .idle) : (r.act b).deck.log.count .ended = 1 := by
  have untold := List.count_eq_zero.mpr (follows.line.untold active)
  have same : (r.deck.prepared b).player = r.deck.player := by
    cases b <;> rfl
  have log : (r.deck.prepared b).log = r.deck.log := by
    cases b <;> rfl
  rw [act_deck] at idle ⊢
  unfold Deck.act at idle ⊢
  cases handed : r.deck.handled? b with
  | none =>
      rw [handed] at idle
      exact absurd (by rw [← same]; exact idle) active
  | some e =>
      rw [handed] at idle
      simp only at idle ⊢
      have silent := quiet_prepared follows.quiet b
      rw [log_handle e silent ?_ (by rw [same]; exact active) idle, log]
      · simp [untold]
      · rintro rfl
        exact timely.unbroken handed

end consequences

section straight

/-- Nothing is on its way but the live end of a time. -/
structure Orderly (d : Deck) : Prop where
  unpaused : d.player.playback ≠ .paused
  mail : d.mail = [] ∨
    d.player.playback = .running ∧ d.mail = [{ event := .elapsed d.player.epoch }]

theorem Orderly.fresh {d : Deck} (orderly : Orderly d) : d.Fresh := by
  intro m member
  rcases orderly.mail with none | ⟨-, one⟩
  · simp [none] at member
  · rw [one, List.mem_singleton] at member
    simp [member]

/-- An orderly deck waits with its timer or has its mail, and not both. -/
theorem Orderly.waits {d : Deck} (orderly : Orderly d) (sound : d.Sound)
    (balance : d.live = Deck.awaited d.player) :
    d.mail = [] ∧ (d.player.playback = .running → ∃ ms, d.timer.armed = some ⟨ms, d.player.epoch⟩) ∨
      d.player.playback = .running ∧ d.mail = [{ event := .elapsed d.player.epoch }] ∧
        d.timer.armed = none := by
  rw [Deck.live_eq d sound] at balance
  rcases orderly.mail with empty | ⟨running, one⟩
  · refine .inl ⟨empty, ?_⟩
    intro running
    cases armed : d.timer.armed with
    | none => simp [armed, empty, Deck.awaited, running] at balance
    | some a =>
        have current := sound.armed a armed
        obtain ⟨ms, epoch⟩ := a
        exact ⟨ms, by rw [← current]⟩
  · refine .inr ⟨running, one, ?_⟩
    cases armed : d.timer.armed with
    | none => rfl
    | some a => simp [armed, one, Deck.awaited, running] at balance

theorem timely_of_unhandled {d : Deck} {a : Action} (unhandled : d.handled? a = none)
    (command : ∀ epoch, a ≠ .post (.elapsed epoch)) (untouched : ∀ board, a ≠ .change board)
    (due : a = .expire ∨ a = .strike → d.timer.remaining = 0) : Timely d a := by
  refine ⟨?_, ?_, untouched, due⟩
  · intro epoch
    refine ⟨command epoch, ?_⟩
    rintro rfl
    cases unhandled
  · simp [unhandled]

/-- What comes of the next step of a running player with no mail is orderly, and the recording is
longer by that step. -/
theorem orderly_playNext {p : Program} {q : Recording} (line : Timeline p q) (playable : p.Playable)
    (quiet : q.deck.board.published = []) (empty : q.deck.mail = [])
    (running : q.deck.player.playback = .running) :
    let after := q.absorb (q.deck.player.playNext q.deck.board)
    Orderly after.deck ∧ (after.deck.player.playback = .idle ∧
      after.played.length = q.played.length ∨ after.played.length = q.played.length + 1) := by
  intro after
  have played : after.played =
      (q.deck.player.program.next?.map Prod.fst).toList.map (·, 0) ++ q.played := by
    simp only [after, absorb, line.stepTo?_playNext playable q.deck.player rfl]
  cases here : q.deck.player.program.next? with
  | none =>
      simp only [here, Option.map_none, Option.toList_none, List.map_nil, List.nil_append] at played
      refine ⟨?_, ?_⟩
      · simp only [after, Player.playNext_ended here]
        refine ⟨by simp [absorb, Deck.absorb], .inl ?_⟩
        simp [absorb, Deck.absorb, empty, Deck.published_publish, quiet]
      · refine .inl ⟨?_, by rw [played]⟩
        simp only [after, Player.playNext_ended here]
        rfl
  | some next =>
      obtain ⟨step, program⟩ := next
      simp only [here, Option.map_some, Option.toList_some, List.map_cons, List.map_nil,
        List.singleton_append] at played
      refine ⟨?_, .inr (by rw [played, List.length_cons])⟩
      by_cases loops : step.kind = .loops
      · simp only [after, Player.playNext_looped here loops]
        refine ⟨by simp [absorb, Deck.absorb, running], .inr ⟨running, ?_⟩⟩
        simp [absorb, Deck.absorb, empty, Deck.published_publish, Board.setCounter, quiet]
      · have unposted := Deck.published_act_filter q.deck.board step.kind (by simp [quiet])
        simp only [after, Player.playNext_stepped here loops]
        refine ⟨by simp [absorb, Deck.absorb, running], .inl ?_⟩
        simp [absorb, Deck.absorb, Deck.aged_next, empty, unposted]

/-- To wait for as long as the timer does is prompt. -/
theorem Orderly.prompt {d : Deck} (orderly : Orderly d) (sound : d.Sound)
    (balance : d.live = Deck.awaited d.player) : Punctual d (.wait d.timer.remaining) := by
  intro ms same lasting
  simp only [Action.wait.injEq] at same
  rcases orderly.waits sound balance with ⟨empty, -⟩ | ⟨-, -, unarmed⟩
  · exact ⟨by simp [empty], fun _ => by simp [same]⟩
  · exact absurd (by rw [← same, Countdown.remaining_of_unarmed unarmed]) lasting

/-- Once the wait of an orderly deck is over, its mail is the end of that time, if it runs. -/
theorem Orderly.expired {d : Deck} (orderly : Orderly d) (sound : d.Sound)
    (balance : d.live = Deck.awaited d.player) (ms : UInt32) :
    (((d.act (.wait ms)).act .expire).mail =
      if d.player.playback = .running then [{ event := .elapsed d.player.epoch }] else []) := by
  change d.mail ++ (d.timer.armed.toList.map fun a => { event := .elapsed a.epoch }) = _
  rcases orderly.waits sound balance with ⟨empty, armed⟩ | ⟨running, one, unarmed⟩
  · split
    · rename_i running
      obtain ⟨ms, waits⟩ := armed running
      simp [empty, waits]
    · rename_i still
      have dead : d.live = 0 := by simp [balance, Deck.awaited, still]
      simp [empty, (Deck.none_live sound dead).1]
  · simp [running, one, unarmed]

/-- To wait for the timer and end its wait is prompt, and plays no step. -/
theorem Timed.expire {r : Recording} (timed : Timed true r) (orderly : Orderly r.deck) :
    let expired := (r.act (.wait r.deck.timer.remaining)).act .expire
    (∀ first, Run true true first r → Run true true first expired) ∧
      expired.played.length = r.played.length := by
  intro expired
  let waited := r.act (.wait r.deck.timer.remaining)
  have young : expired.deck.Fresh := by
    intro m member
    change m ∈ ((r.deck.act (.wait r.deck.timer.remaining)).act .expire).mail at member
    rw [orderly.expired timed.sound timed.balance] at member
    split at member
    · simp [List.mem_singleton.mp member]
    · cases member
  have passed : waited.deck.timer.remaining = 0 := by
    apply UInt32.toNat_inj.mp
    have waits := Countdown.remaining_advance r.deck.timer r.deck.timer.remaining
    simpa [waited, Recording.act, Deck.handled?, Recording.prepared, Deck.prepared] using waits
  have first : Timely r.deck (.wait r.deck.timer.remaining) :=
    timely_of_unhandled rfl (by simp) (by simp) (by simp)
  have second : Timely waited.deck .expire :=
    timely_of_unhandled rfl (by simp) (by simp) fun _ => passed
  refine ⟨?_, ?_⟩
  · intro start run
    have passes := run.act _ first (fun _ => orderly.fresh)
      fun _ => orderly.prompt timed.sound timed.balance
    exact passes.act _ second (fun _ => young) fun _ => by simp [Punctual]
  · have same := congrArg List.length (map_fst_extend r.deck.timer.remaining.toNat r.played)
    change (if r.deck.player.playback = .running then _ else _ : List (Step × Nat)).length = _
    split
    · simpa using same
    · rfl

/-- A beat is prompt, and leaves the deck orderly. -/
theorem Follows.beat {p : Program} {r : Recording} (follows : Follows true true p r)
    (playable : p.Playable) (orderly : Orderly r.deck) :
    (∀ first, Run true true first r → Run true true first r.beat) ∧ Orderly r.beat.deck ∧
      (r.beat.deck.player.playback = .idle ∧ r.beat.played.length = r.played.length ∨
        r.beat.played.length = r.played.length + 1) := by
  let expired := (r.act (.wait r.deck.timer.remaining)).act .expire
  let opened := expired.prepared .deliver
  have timed := follows.timed rfl
  obtain ⟨goesOn, length⟩ := timed.expire orderly
  have mail : expired.deck.mail = if r.deck.player.playback = .running then
      [{ event := .elapsed r.deck.player.epoch }] else [] :=
    orderly.expired timed.sound timed.balance r.deck.timer.remaining
  have line : Timeline p opened :=
    ((follows.line.prepared (.wait r.deck.timer.remaining) (by simp)).prepared .expire
      (by simp)).prepared .deliver (by simp)
  have empty : opened.deck.mail = [] := by
    change expired.deck.mail.tail = []
    rw [mail]
    split <;> rfl
  suffices after : Timely expired.deck .deliver ∧ Orderly r.beat.deck ∧
      (r.beat.deck.player.playback = .idle ∧ r.beat.played.length = r.played.length ∨
        r.beat.played.length = r.played.length + 1) by
    refine ⟨?_, after.2⟩
    intro start run
    exact (goesOn start run).act _ after.1 (fun _ => after.2.1.fresh) fun _ => by simp [Punctual]
  by_cases running : r.deck.player.playback = .running
  · have handed : expired.deck.handled? .deliver = some (.elapsed r.deck.player.epoch) := by
      simp [Deck.handled?, mail, running]
    have done : r.beat = opened.absorb (opened.deck.player.playNext opened.deck.board) := by
      change expired.act .deliver = _
      unfold Recording.act
      rw [handed]
      change opened.absorb (if opened.deck.player.epoch = opened.deck.player.epoch then _ else _) = _
      rw [if_pos rfl]
    have played := orderly_playNext line playable follows.quiet empty running
    have kept : opened.played.length = r.played.length := length
    rw [← done, kept] at played
    exact ⟨⟨by simp, by simp [handed], by simp, by simp⟩, played⟩
  · have unhandled : expired.deck.handled? .deliver = none := by
      simp [Deck.handled?, mail, running]
    have done : r.beat = opened := by
      change expired.act .deliver = _
      unfold Recording.act
      rw [unhandled]
    have idle : r.deck.player.playback = .idle := by
      have unpaused := orderly.unpaused
      cases playback : r.deck.player.playback with
      | idle => rfl
      | running => exact absurd playback running
      | paused => exact absurd playback unpaused
    rw [done]
    exact ⟨timely_of_unhandled unhandled (by simp) (by simp) (by simp),
      ⟨orderly.unpaused, .inl empty⟩, .inl ⟨idle, length⟩⟩

variable {board : Board}

theorem straight_zero (quiet : board.published = []) (playable : board.program.Playable) :
    Follows true true board.program (straight board 0) ∧ Orderly (straight board 0).deck ∧
      (straight board 0).played.length = 1 := by
  have new : Deck.Reachable { board } := .new board quiet
  obtain ⟨sound, balance⟩ := new.sound
  have can := playable
  obtain ⟨step, first, acts⟩ := playable
  obtain ⟨rest, all⟩ := List.head?_eq_some_iff.mp first
  have handed : Deck.handled? { board } (.jump (.start true)) = some (.start true) := rfl
  have after : (straight board 0).deck = Deck.absorb { board } (Player.restart {} board) := rfl
  rw [restart_stepped first acts] at after
  have unposted := Deck.published_act_filter (opening board) step.kind (by
    simp [opening, Board.setCounter, Deck.published_publish, quiet])
  have empty : (straight board 0).deck.mail = [] := by
    rw [after]
    simp [Deck.absorb, Deck.aged, unposted]
  have running : (straight board 0).deck.player.playback = .running := by
    rw [after]
    rfl
  have orderly : Orderly (straight board 0).deck := ⟨by simp [running], .inl empty⟩
  refine ⟨follows_start true quiet can handed fun _ => ⟨sound, balance, orderly.fresh⟩, orderly, ?_⟩
  change (((straight board 0).deck.player.program.steps.head?).toList.map _).length = 1
  rw [after]
  simp [Deck.absorb, all]

/-- The player that nobody stops is prompt, and plays a step with every beat until the end. -/
theorem straight_spec (quiet : board.published = []) (playable : board.program.Playable) (n : Nat) :
    Follows true true board.program (straight board n) ∧ Orderly (straight board n).deck ∧
      Run true true (straight board 0) (straight board n) ∧
      ((straight board n).deck.player.playback = .idle ∧ (straight board n).played.length ≤ n + 1 ∨
        (straight board n).played.length = n + 1) := by
  induction n with
  | zero =>
      obtain ⟨follows, orderly, one⟩ := straight_zero quiet playable
      exact ⟨follows, orderly, .refl fun _ => orderly.fresh, .inr one⟩
  | succ n ih =>
      obtain ⟨follows, orderly, run, length⟩ := ih
      obtain ⟨goesOn, again, longer⟩ := follows.beat playable orderly
      have further := goesOn _ run
      have first := (straight_zero quiet playable).1
      refine ⟨further.follows first playable, again, further, ?_⟩
      change (straight board n).beat.deck.player.playback = .idle ∧
        (straight board n).beat.played.length ≤ n + 1 + 1 ∨
        (straight board n).beat.played.length = n + 1 + 1
      rcases length with ⟨idle, short⟩ | one
      · rcases longer with ⟨stays, same⟩ | more
        · exact .inl ⟨stays, by omega⟩
        · have most := (follows.line.length_le_of_idle idle
            (further.follows first playable).line)
          change (straight board n).beat.played.length ≤ _ at most
          omega
      · rcases longer with ⟨stays, same⟩ | more
        · exact .inl ⟨stays, by omega⟩
        · exact .inr (by omega)

/-- Any run of a program has played and driven what the player has that nobody stops. -/
theorem straight_matches (quiet : board.published = []) (playable : board.program.Playable)
    {r : Recording} (line : Timeline board.program r) :
    let undisturbed := straight board (r.played.length - 1)
    undisturbed.steps = r.steps ∧ undisturbed.driven = r.driven := by
  intro undisturbed
  obtain ⟨follows, -, -, length⟩ := straight_spec quiet playable (r.played.length - 1)
  have begun : r.played.length ≠ 0 := by simpa using line.begun
  have same : undisturbed.played.length = r.played.length := by
    rcases length with ⟨idle, short⟩ | one
    · have most := follows.line.length_le_of_idle idle line
      change (straight board (r.played.length - 1)).played.length = _
      omega
    · change (straight board (r.played.length - 1)).played.length = _
      omega
  have steps : undisturbed.steps = r.steps := by
    rw [← follows.line.unrolled, ← line.unrolled]
    exact congrArg _ same
  exact ⟨steps, by rw [follows.line.driven, line.driven]; exact congrArg _ steps⟩

/-- The player that nobody stops gets to the end of a program that does not loop. -/
theorem straight_ends (quiet : board.published = []) (playable : board.program.Playable)
    (once : ∀ step ∈ board.program.steps, step.kind ≠ .loops) :
    (straight board board.program.steps.length).deck.player.playback = .idle := by
  obtain ⟨follows, -, -, length⟩ := straight_spec quiet playable board.program.steps.length
  rcases length with ⟨idle, -⟩ | one
  · exact idle
  · have all := follows.line.unrolled
    unfold Program.unrolled at all
    rw [Program.unrollFrom_of_no_loop _ _ _ once] at all
    have short := congrArg List.length all
    rw [List.length_take, length_steps] at short
    omega

end straight

theorem Clock.finished_kept {punctual : Bool} {r : Recording} (clock : Clock punctual r) :
    ∀ x ∈ r.finished, Kept punctual x 0 := by
  intro x member
  unfold Recording.finished at member
  split at member
  · rename_i idle
    cases played : r.played with
    | nil => simp [played] at member
    | cons head tail =>
        rw [played] at member
        rcases List.mem_cons.mp member with rfl | earlier
        · have kept := clock.current x (by simp [played])
          simpa only [left, idle] using kept
        · exact clock.finished x (by simp [played, earlier])
  · exact clock.finished x member

/-- A program that is started on a quiet board is played as its timeline says, whatever is commanded,
delayed or delivered from then on. The steps are those that the program comes to first, the contact
is driven by them alone, and both are as when nobody stops the player. The counter tells how many
loops there have been. The program ends if it does not loop, once all of it has been played, and
then it says so. The epochs come round, so an end of a time that is on its way for all of them is
taken for that of a later step. As long as none is, each step that is over has run for no less than
its time, nor for more where nothing is late. All times are whole milliseconds, and a pause loses
none of what is left. -/
theorem Run.plays_timeline {d : Deck} (quiet : d.board.published = [])
    (playable : d.board.program.Playable) {a : Action} (handed : d.handled? a = some (.start true))
    {fresh punctual : Bool} {r : Recording} (run : Run fresh punctual (start d a) r) :
    let p := d.board.program
    let undisturbed := straight d.board (r.played.length - 1)
    (r.steps = p.unrolled r.played.length ∧
      r.driven = (r.steps.filterMap fun step => Player.intentOf step.kind) ∧
      undisturbed.steps = r.steps ∧ undisturbed.driven = r.driven) ∧
    r.deck.board.counter.map UInt32.toNat = some (min r.loops (UInt32.size - 1)) ∧
    (fresh = true → d.Reachable → ∀ x ∈ r.finished, x.1.kind ≠ .loops →
      x.1.delayMs.toNat ≤ x.2 ∧ (punctual = true → x.2 = x.1.delayMs.toNat)) ∧
    (r.deck.player.playback = .idle ↔ Event.ended ∈ r.deck.log) ∧
    (r.deck.player.playback = .idle → (∀ step ∈ p.steps, step.kind ≠ .loops) ∧ r.steps = p.steps) ∧
    (∀ b, Timely r.deck b → r.deck.player.playback ≠ .idle →
      (r.act b).deck.player.playback = .idle → (r.act b).deck.log.count .ended = 1) ∧
    ((∀ step ∈ p.steps, step.kind ≠ .loops) →
      (straight d.board p.steps.length).deck.player.playback = .idle ∧
      ∀ b, Timely r.deck b → r.deck.handled? b = some (.elapsed r.deck.player.epoch) →
        r.steps = p.steps → (r.act b).deck.player.playback = .idle) := by
  intro p undisturbed
  have plain : Run false punctual (start d a) r := run.weaken
  have follows := plain.follows (follows_start punctual quiet playable handed nofun) playable
  have line := follows.line
  refine ⟨⟨line.unrolled.symm, line.driven, straight_matches quiet playable line⟩,
    line.counter, ?_, line.idle_iff_told, line.whole_of_idle, ?_, ?_⟩
  · rintro rfl reachable x member acts
    obtain ⟨sound, balance⟩ := reachable.sound
    have begun : Follows true punctual p (start d a) :=
      follows_start punctual quiet playable handed fun _ => ⟨sound, balance, run.first⟩
    have timed := (run.follows begun playable).timed rfl
    exact timed.clock.finished_kept x member acts
  · intro b timely active idle
    exact follows.ends_once timely active idle
  · intro once
    refine ⟨straight_ends quiet playable once, ?_⟩
    intro b timely ends whole
    exact line.ends once whole (fun epoch => (timely.command epoch).2) ends

/-- A command that starts no program and is no end of a time can come at any moment. -/
theorem timely_command (r : Recording) {command : Event} (own : command ≠ .start true)
    (dead : ∀ epoch, command ≠ .elapsed epoch) : Timely r.deck (.jump command) where
  command epoch := ⟨by simp, by simpa using dead epoch⟩
  unbroken := by simpa [Deck.handled?] using own
  untouched := by simp
  due := by simp

/-- A step of five seconds runs for five seconds, with a pause of seven after the second. -/
theorem plays_timeline_over_pause :
    let program : Program := { steps := [⟨.opens, 5000⟩, ⟨.closes, 3000⟩] }
    let board : Board := { contact := { relay := .resting false }, program }
    let r := [Action.wait 2000, .jump .stop, .wait 7000, .jump (.start false), .wait 3000, .expire,
      .deliver].foldl Recording.act (start { board } (.jump (.start true)))
    Run true true (start { board } (.jump (.start true))) r ∧
      r.finished = [(⟨.opens, 5000⟩, 5000)] ∧ r.driven = [.opened, .closed] ∧
      (straight board (r.played.length - 1)).driven = r.driven ∧
      ∀ x ∈ r.finished, x.1.kind ≠ .loops → x.2 = x.1.delayMs.toNat := by
  intro program board r
  have run : Run true true (start { board } (.jump (.start true))) r := by
    have begun : Run true true (start { board } (.jump (.start true)))
        (start { board } (.jump (.start true))) := .refl fun _ => by decide
    have ran := begun.act (.wait 2000) ⟨fun _ => ⟨nofun, nofun⟩, by decide, by simp, nofun⟩
      (fun _ => by decide) (fun _ _ same _ => by cases same; decide)
    have paused := ran.act (.jump .stop) (timely_command _ (by simp) (by simp))
      (fun _ => by decide) fun _ => nofun
    have waited := paused.act (.wait 7000) ⟨fun _ => ⟨nofun, nofun⟩, by decide, by simp, nofun⟩
      (fun _ => by decide) (fun _ _ same _ => by cases same; decide)
    have resumed := waited.act (.jump (.start false)) (timely_command _ (by simp) (by simp))
      (fun _ => by decide) fun _ => nofun
    have passed := resumed.act (.wait 3000) ⟨fun _ => ⟨nofun, nofun⟩, by decide, by simp, nofun⟩
      (fun _ => by decide) (fun _ _ same _ => by cases same; decide)
    have posted := passed.act .expire
      ⟨fun _ => ⟨nofun, nofun⟩, by decide, by simp, fun _ => by decide⟩ (fun _ => by decide)
      fun _ => nofun
    have delivered := posted.act .deliver ⟨fun _ => ⟨nofun, nofun⟩, by decide, by simp, nofun⟩
      (fun _ => by decide) fun _ => nofun
    simpa only [r, List.foldl_cons, List.foldl_nil] using delivered
  have plays := run.plays_timeline rfl ⟨_, rfl, by decide⟩ rfl
  refine ⟨run, by decide, by decide, plays.1.2.2.2, fun x member acts => ?_⟩
  exact (plays.2.2.1 rfl (.new board rfl) x member acts).2 rfl

section round

/-- The player is stopped and goes on, so many times. -/
def pauses (n : Nat) : List Action :=
  (List.replicate n [Action.jump .stop, .jump (.start false)]).flatten

/-- The player has begun to wait, and all of the time is left. -/
structure Waits (r : Recording) (ms : UInt32) : Prop where
  quiet : r.deck.board.published = []
  running : r.deck.player.playback = .running
  timeLeft : r.deck.player.timeLeftMs = 0
  armed : r.deck.timer.armed = some ⟨ms, r.deck.player.epoch⟩
  elapsed : r.deck.timer.elapsedMs = 0

/-- The same recording so many epochs later. -/
def later (r : Recording) (ms : UInt32) (n : Nat) : Recording :=
  let epoch := r.deck.player.epoch + UInt32.ofNat n
  { r with deck := { r.deck with
    player := { r.deck.player with epoch }
    timer := { armed := some ⟨ms, epoch⟩, elapsedMs := 0, starts := r.deck.timer.starts + n }
    mail := r.deck.mail.map fun m => { m with age := m.age + n } } }

variable {r : Recording} {ms : UInt32}

theorem Waits.later (waits : Waits r ms) (n : Nat) : Waits (r.later ms n) ms :=
  ⟨waits.quiet, waits.running, waits.timeLeft, rfl, rfl⟩

/-- To stop a player that has just begun to wait and to let it go on takes an epoch and nothing
else. -/
theorem Waits.act_pause (waits : Waits r ms) (long : ms ≠ 0) :
    (r.act (.jump .stop)).act (.jump (.start false)) = r.later ms 1 := by
  obtain ⟨⟨⟨program, playback, epoch, timeLeft⟩, ⟨contact, active, state, counter, published⟩,
    ⟨armed, elapsed, starts⟩, mail, log⟩, played, driven⟩ := r
  obtain ⟨quiet, running, nothing, waiting, begun⟩ := waits
  simp only at quiet running nothing waiting begun
  subst quiet running nothing waiting begun
  have left : Countdown.remaining ⟨some ⟨ms, epoch⟩, 0, starts⟩ = ms := by
    simp [Countdown.remaining]
  simp [Recording.act, Recording.prepared, Recording.handle, Recording.absorb, Recording.later,
    Deck.handled?, Deck.prepared, Deck.absorb, Player.handle, Player.pause, Player.resume,
    Player.stepTo?, Deck.aged_next, left, long, driven_same, Countdown.apply]

theorem Waits.later_zero (waits : Waits r ms) : r.later ms 0 = r := by
  obtain ⟨⟨player, board, ⟨armed, elapsed, starts⟩, mail, log⟩, played, driven⟩ := r
  obtain ⟨-, -, -, waiting, begun⟩ := waits
  simp only at waiting begun
  subst waiting begun
  simp [Recording.later]

theorem Waits.foldl_pauses (waits : Waits r ms) (long : ms ≠ 0) (n : Nat) :
    (pauses n).foldl Recording.act r = r.later ms n := by
  have next (n : Nat) : [Action.jump .stop, .jump (.start false)].foldl Recording.act
      (r.later ms n) = r.later ms (n + 1) := by
    rw [List.foldl_cons, List.foldl_cons, List.foldl_nil, (waits.later n).act_pause long]
    simp [Recording.later, UInt32.ofNat_add, UInt32.add_assoc, Nat.add_assoc]
  have rounds := Deck.foldl_rounds next n
  rw [waits.later_zero] at rounds
  exact rounds

theorem pauses_succ (n : Nat) :
    pauses (n + 1) = pauses n ++ [.jump .stop, .jump (.start false)] := by
  rw [pauses, List.replicate_succ', List.flatten_append]
  rfl

/-- Where events may get as old as they like, stops and resumes are always in order. -/
theorem Run.foldl_pauses {punctual : Bool} {first : Recording} (run : Run false punctual first r)
    (n : Nat) : Run false punctual first ((pauses n).foldl Recording.act r) := by
  induction n with
  | zero => exact run
  | succ n ih =>
      rw [pauses_succ, List.foldl_append]
      have paused := ih.act (.jump .stop) (timely_command _ (by simp) (by simp)) (by simp)
        fun _ => by simp [Punctual]
      exact paused.act (.jump (.start false)) (timely_command _ (by simp) (by simp)) (by simp)
        fun _ => by simp [Punctual]

/-- A step of three seconds does not run at all: the end of the time before is posted when the
player is stopped, and is delivered when all epochs have passed. -/
theorem cut_short_after_round :
    let program : Program := { steps := [⟨.opens, 3000⟩, ⟨.closes, 3000⟩, ⟨.opens, 3000⟩] }
    let board : Board := { contact := { relay := .resting false }, program }
    let first := start { board } (.jump (.start true))
    let overtaken := [Action.wait 3000, .expire, .jump .stop, .jump (.start false)].foldl
      Recording.act first
    let r := ((pauses (UInt32.size - 2)).foldl Recording.act overtaken).act .deliver
    program.Playable ∧ Run false true first r ∧ (⟨.closes, 3000⟩, 0) ∈ r.finished := by
  intro program board first overtaken r
  have begun : Run false true first first := .refl nofun
  have waited := begun.act (.wait 3000) ⟨fun _ => ⟨nofun, nofun⟩, by decide, by simp, nofun⟩ nofun
    (fun _ _ same _ => by cases same; decide)
  have posted := waited.act .expire
    ⟨fun _ => ⟨nofun, nofun⟩, by decide, by simp, fun _ => by decide⟩ nofun fun _ => nofun
  have paused := posted.act (.jump .stop) (timely_command _ (by simp) (by simp)) nofun
    fun _ => nofun
  have resumed := paused.act (.jump (.start false)) (timely_command _ (by simp) (by simp)) nofun
    fun _ => nofun
  have waits : Waits overtaken 3000 := ⟨by decide, by decide, by decide, by decide, by decide⟩
  have round : Run false true first ((pauses (UInt32.size - 2)).foldl Recording.act overtaken) :=
    resumed.foldl_pauses _
  have after : r = (overtaken.later 3000 (UInt32.size - 2)).act .deliver :=
    congrArg (·.act .deliver) (waits.foldl_pauses (by decide) _)
  rw [waits.foldl_pauses (by decide)] at round
  rw [after]
  refine ⟨⟨_, rfl, by decide⟩, ?_, by decide⟩
  exact round.act .deliver ⟨fun _ => ⟨nofun, nofun⟩, by decide, by simp, nofun⟩ nofun fun _ => nofun

end round

end RelayTimer.Recording
