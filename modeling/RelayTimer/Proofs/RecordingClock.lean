import RelayTimer.Proofs.RecordingTimeline

set_option autoImplicit false

/-!
A step runs for its time, however often the player is stopped and let go on.
-/
namespace RelayTimer

namespace Countdown

theorem remaining_toNat (t : Countdown) :
    t.remaining.toNat = (t.armed.map fun a => a.durationMs.toNat - t.elapsedMs.toNat).getD 0 := by
  unfold remaining
  cases t.armed with
  | none => rfl
  | some a =>
      simp only [Option.map_some, Option.getD_some]
      split
      · rename_i inside
        rw [UInt32.toNat_sub_of_le _ _ inside]
      · rename_i past
        have beyond : a.durationMs.toNat < t.elapsedMs.toNat := by
          simpa [UInt32.le_iff_toNat_le] using past
        simp
        omega

theorem remaining_of_unarmed {t : Countdown} (unarmed : t.armed = none) : t.remaining = 0 := by
  simp only [remaining, unarmed]

@[simp]
theorem remaining_start (t : Countdown) (ms epoch : UInt32) :
    (t.apply (.start ms epoch)).remaining = ms := by
  apply UInt32.toNat_inj.mp
  simp [remaining_toNat, apply]

theorem elapsedMs_advance (t : Countdown) (ms : UInt32) :
    (t.advance ms).elapsedMs.toNat = min (t.elapsedMs.toNat + ms.toNat) (UInt32.size - 1) := by
  simp only [advance, UInt32.toNat_ofNat', UInt32.size]
  omega

/-- A wait gets shorter by no more than the time that passes. -/
theorem remaining_advance (t : Countdown) (ms : UInt32) :
    (t.advance ms).remaining.toNat = t.remaining.toNat - ms.toNat := by
  have armed : (t.advance ms).armed = t.armed := rfl
  simp only [remaining_toNat, armed, elapsedMs_advance]
  cases t.armed with
  | none => simp
  | some a =>
      have bound := a.durationMs.toNat_lt
      simp only [Option.map_some, Option.getD_some, UInt32.size]
      omega

end Countdown

namespace Recording

/-- For how long the step played last is still to run. -/
def left (d : Deck) : Nat :=
  match d.player.playback with
  | .running => d.timer.remaining.toNat
  | .paused => d.player.timeLeftMs.toNat
  | .idle => 0

/-- A step that has run and is still to run for some time does so for its own time, or longer if
there are delays. -/
def Kept (punctual : Bool) (x : Step × Nat) (left : Nat) : Prop :=
  x.1.kind ≠ .loops →
    x.1.delayMs.toNat ≤ x.2 + left ∧ (punctual = true → x.2 + left = x.1.delayMs.toNat)

structure Clock (punctual : Bool) (r : Recording) : Prop where
  finished : ∀ x ∈ r.played.tail, Kept punctual x 0
  current : ∀ x ∈ r.played.head?, Kept punctual x (left r.deck)

theorem Clock.still {punctual : Bool} {r after : Recording} (clock : Clock punctual r)
    (played : after.played = r.played) (same : left after.deck = left r.deck) :
    Clock punctual after := by
  refine ⟨by rw [played]; exact clock.finished, ?_⟩
  rw [played, same]
  exact clock.current

/-- The time of a step is over when the next one is played. -/
theorem Clock.moved {punctual : Bool} {r after : Recording} (clock : Clock punctual r)
    (due : left r.deck = 0) (step : Step) (played : after.played = (step, 0) :: r.played)
    (fresh : step.kind ≠ .loops → left after.deck = step.delayMs.toNat) :
    Clock punctual after := by
  refine ⟨?_, ?_⟩
  · intro x member
    rw [played, List.tail_cons] at member
    cases earlier : r.played with
    | nil => simp [earlier] at member
    | cons head tail =>
        rw [earlier] at member
        rcases List.mem_cons.mp member with rfl | old
        · rw [← due]
          exact clock.current x (by simp [earlier])
        · exact clock.finished x (by simp [earlier, old])
  · intro x member
    simp only [played, List.head?_cons, Option.mem_def, Option.some.injEq] at member
    subst member
    intro acts
    rw [fresh acts]
    simp

theorem left_running {d : Deck} (running : d.player.playback = .running) :
    left d = d.timer.remaining.toNat := by
  simp only [left, running]

theorem left_of_not_running {d after : Deck} (still : d.player.playback ≠ .running)
    (same : after.player = d.player) : left after = left d := by
  unfold left
  rw [same]
  split
  · rename_i running
    exact absurd running still
  · rfl
  · rfl

theorem Clock.absorb_playNext {punctual : Bool} {p : Program} {r : Recording}
    (clock : Clock punctual r) (line : Timeline p r) (playable : p.Playable) (own : Player)
    (program : own.program = r.deck.player.program) (running : own.playback = .running)
    (due : left r.deck = 0) : Clock punctual (r.absorb (own.playNext r.deck.board)) := by
  have played : (r.absorb (own.playNext r.deck.board)).played =
      (own.program.next?.map Prod.fst).toList.map (·, 0) ++ r.played := by
    simp only [absorb, line.stepTo?_playNext playable own program]
  cases here : own.program.next? with
  | none =>
      rw [here] at played
      refine clock.still played ?_
      rw [due, Player.playNext_ended here]
      rfl
  | some next =>
      obtain ⟨step, after⟩ := next
      rw [here] at played
      refine clock.moved due step played ?_
      intro acts
      rw [Player.playNext_stepped here acts, left_running (by simpa [absorb] using running)]
      simp only [absorb, Deck.absorb, Countdown.remaining_start]

/-- When the end of a time is acted on, nothing of that time is left. -/
theorem left_of_elapsed {d : Deck} (sound : d.Sound)
    (balance : d.live + Deck.liveIn d.player.epoch (.elapsed d.player.epoch) =
      Deck.awaited d.player) : d.player.playback = .running ∧ left d = 0 := by
  simp only [Deck.liveIn, ↓reduceIte, Deck.awaited] at balance
  split at balance
  · rename_i running
    have unarmed := (Deck.none_live sound (by omega)).1
    rw [left_running running, Countdown.remaining_of_unarmed unarmed]
    exact ⟨running, rfl⟩
  · omega

theorem Clock.handle {punctual : Bool} {p : Program} {r : Recording} (clock : Clock punctual r)
    (line : Timeline p r) (playable : p.Playable) (sound : r.deck.Sound) (e : Event)
    (balance : r.deck.live + Deck.liveIn r.deck.player.epoch e = Deck.awaited r.deck.player)
    (unbroken : e ≠ .start true) : Clock punctual (r.handle e) := by
  unfold Recording.handle
  have outcome := Player.handle_handled r.deck.player r.deck.board r.deck.timer.remaining e
  generalize r.deck.player.handle r.deck.board r.deck.timer.remaining e = done at outcome ⊢
  have unmoved (own : Player) (board : Board) (request : Option TimerRequest)
      (same : own.program = r.deck.player.program) :
      (r.absorb { player := own, board, request }).played = r.played := by
    simp [absorb, Player.stepTo?, same]
  cases outcome with
  | advanced advance =>
      cases advance with
      | restart => exact absurd rfl unbroken
      | resume paused nothing =>
          refine clock.absorb_playNext line playable _ rfl rfl ?_
          simp only [left, paused, nothing]
          rfl
      | elapsed =>
          obtain ⟨running, due⟩ := left_of_elapsed sound balance
          exact clock.absorb_playNext line playable _ rfl running due
  | rearmed command paused some =>
      refine clock.still (unmoved _ _ _ rfl) ?_
      rw [left_running (by rfl)]
      simp only [absorb, Deck.absorb, Countdown.remaining_start, left, paused]
  | paused command running =>
      refine clock.still (unmoved _ _ _ rfl) ?_
      rw [left_running running]
      rfl
  | refused command idle => exact clock.still (unmoved _ _ _ rfl) rfl
  | ignored stale other => exact clock.still (unmoved _ _ _ rfl) rfl

/-- While time passes, the step played last runs for as long as its wait gets shorter, or longer if
the end of the wait is late. -/
theorem Clock.wait {punctual : Bool} {r : Recording} (clock : Clock punctual r) (ms : UInt32)
    (sound : r.deck.Sound) (balance : r.deck.live = Deck.awaited r.deck.player)
    (prompt : punctual = true → Punctual r.deck (.wait ms)) :
    Clock punctual (r.prepared (.wait ms)) := by
  by_cases running : r.deck.player.playback = .running
  · have played : (r.prepared (.wait ms)).played = extend ms.toNat r.played := by
      simp only [Recording.prepared, running, ↓reduceIte]
    have before := left_running running
    have after : left (r.prepared (.wait ms)).deck = left r.deck - ms.toNat := by
      rw [left_running (by exact running), before]
      exact Countdown.remaining_advance r.deck.timer ms
    have inTime : punctual = true → ms.toNat ≤ left r.deck := by
      intro always
      by_cases zero : ms = 0
      · simp [zero]
      · obtain ⟨unposted, armed⟩ := prompt always ms rfl zero
        rw [before]
        apply armed
        have posted : (r.deck.mail.map (·.event)).count (.elapsed r.deck.player.epoch) = 0 := by
          rw [List.count_eq_zero]
          intro member
          obtain ⟨m, inside, ends⟩ := List.mem_map.mp member
          exact unposted m inside ends
        rw [Deck.live_eq _ sound, posted] at balance
        cases waits : r.deck.timer.armed with
        | none => simp [waits, Deck.awaited, running] at balance
        | some a => rfl
    cases earlier : r.played with
    | nil => exact ⟨by simp [played, earlier, extend], by simp [played, earlier, extend]⟩
    | cons head tail =>
        obtain ⟨step, ran⟩ := head
        refine ⟨?_, ?_⟩
        · simpa [played, earlier, extend] using clock.finished
        · intro x member acts
          simp only [played, earlier, extend, List.head?_cons, Option.mem_def,
            Option.some.injEq] at member
          subst member
          obtain ⟨long, exact_⟩ := clock.current (step, ran) (by simp [earlier]) acts
          rw [after]
          refine ⟨by simp only at long ⊢; omega, ?_⟩
          intro always
          have := inTime always
          have := exact_ always
          simp only at this ⊢
          omega
  · refine clock.still ?_ (left_of_not_running running rfl)
    simp only [Recording.prepared, running, ↓reduceIte]

theorem Clock.prepared {punctual : Bool} {r : Recording} (clock : Clock punctual r) (a : Action)
    (sound : r.deck.Sound) (balance : r.deck.live = Deck.awaited r.deck.player)
    (timely : Timely r.deck a) (prompt : punctual = true → Punctual r.deck a) :
    Clock punctual (r.prepared a) := by
  have fired (ends : a = .expire ∨ a = .strike)
      (timer : (r.deck.prepared a).timer = r.deck.timer.fire.2)
      (player : (r.deck.prepared a).player = r.deck.player) :
      left (r.deck.prepared a) = left r.deck := by
    have due := timely.due ends
    have unarmed : r.deck.timer.fire.2.remaining = 0 := Countdown.remaining_of_unarmed rfl
    simp only [left, player, timer, due, unarmed]
  cases a with
  | wait ms => exact clock.wait ms sound balance prompt
  | expire => exact clock.still rfl (fired (.inl rfl) rfl rfl)
  | strike => exact clock.still rfl (fired (.inr rfl) rfl rfl)
  | _ => exact clock.still rfl rfl

end Recording

end RelayTimer
