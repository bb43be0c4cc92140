import RelayTimer.Proofs.RecordingClock

set_option autoImplicit false

/-!
A program that has been started is played as its timeline says, whatever is commanded, delayed or
delivered from then on, short of a new start. Its steps keep their time as long as no end of a time
is on its way for a whole round of the epochs.
-/
namespace RelayTimer.Recording

open Program (unrollFrom)

/-- What holds of a recording in which the player waits for one end of a time at most. -/
structure Timed (punctual : Bool) (r : Recording) : Prop where
  sound : r.deck.Sound
  balance : r.deck.live = Deck.awaited r.deck.player
  clock : Clock punctual r

/-- What holds of a recording between two moments. -/
structure Follows (fresh punctual : Bool) (p : Program) (r : Recording) : Prop where
  quiet : r.deck.board.published = []
  line : Timeline p r
  timed : fresh = true → Timed punctual r

theorem act_deck (r : Recording) (a : Action) : (r.act a).deck = r.deck.act a := by
  unfold Recording.act Deck.act
  cases r.deck.handled? a <;> rfl

/-- The board that a program is started on. -/
def opening (b : Board) : Board := (b.setCounter (some 0)).publish .counterChanged

/-- What a player does to start a program whose first step does something of its own. -/
theorem restart_stepped {p : Player} {b : Board} {step : Step}
    (first : b.program.steps.head? = some step) (acts : step.kind ≠ .loops) :
    p.restart b = {
      player := { program := { b.program with cursor := 1 }, playback := .running
                  epoch := p.epoch + 1, timeLeftMs := 0 }
      board := Player.act (opening b) step.kind
      request := some (.start step.delayMs (p.epoch + 1)) } := by
  have here : b.program.rewind.next? = some (step, { b.program with cursor := 1 }) := by
    have at_ : b.program.steps[0]? = some step := by rw [← List.head?_eq_getElem?]; exact first
    simp [Program.next?, Program.rewind, at_]
  unfold Player.restart
  exact Player.playNext_stepped (p := { p with
    program := b.program.rewind, timeLeftMs := 0, playback := .running }) here acts

/-- The mail is all that a deck loses before its player starts a program. -/
theorem act_restart {d : Deck} {a : Action} (handed : d.handled? a = some (.start true)) :
    ∃ mail, d.act a = { d with mail }.absorb (d.player.restart d.board) := by
  unfold Deck.act
  rw [handed]
  cases a with
  | jump command => exact ⟨d.mail, rfl⟩
  | deliver => exact ⟨d.mail.tail, rfl⟩
  | strike => simp [Deck.handled?] at handed
  | _ => cases handed

section started

variable {d : Deck} {a : Action}

/-- What is recorded of a program once it has been started: nothing but its first step. -/
structure Started (d : Deck) (step : Step) (r : Recording) : Prop where
  deck : ∃ mail, r.deck = ({ d with log := [], mail } : Deck).absorb {
    player := { program := { d.board.program with cursor := 1 }, playback := .running
                epoch := d.player.epoch + 1, timeLeftMs := 0 }
    board := Player.act (opening d.board) step.kind
    request := some (.start step.delayMs (d.player.epoch + 1)) }
  played : r.played = [(step, 0)]
  driven : r.driven = (Player.intentOf step.kind).toList

theorem started_start (handed : d.handled? a = some (.start true)) {step : Step}
    (first : d.board.program.steps.head? = some step) (acts : step.kind ≠ .loops) :
    Started d step (start d a) := by
  have again : ({ d with log := [] } : Deck).handled? a = some (.start true) := by
    cases a <;> exact handed
  obtain ⟨mail, done⟩ := act_restart again
  simp only [restart_stepped first acts] at done
  have after : (start d a).deck = ({ d with log := [] } : Deck).act a := rfl
  refine ⟨⟨mail, after.trans done⟩, ?_, ?_⟩
  · simp only [start, done, Deck.absorb, first, Option.toList_some, List.map_cons, List.map_nil]
  · rw [← driven_act (opening d.board)]
    simp only [start, done]
    rfl

variable {step : Step} {r : Recording}

theorem Started.timeline (started : Started d step r) (quiet : d.board.published = [])
    (first : d.board.program.steps.head? = some step) (acts : step.kind ≠ .loops) :
    Timeline d.board.program r := by
  obtain ⟨⟨mail, done⟩, played, driven⟩ := started
  have steps : r.steps = [step] := by simp [Recording.steps, played]
  have running : r.deck.player.playback = .running := by rw [done]; rfl
  refine ⟨by rw [done]; rfl, by simp [played], ?_, ?_, ?_, ?_, ?_, ?_⟩
  · intro k
    obtain ⟨rest, all⟩ := List.head?_eq_some_iff.mp first
    rw [played, steps, done]
    simp [Deck.absorb, Program.unrolled, all, Nat.add_comm 1 k, unrollFrom, acts]
  · simp [running]
  · have untold : Event.ended ∉ (opening d.board).published := by
      simp [opening, Board.setCounter, Deck.published_publish, quiet]
    simp [done, Deck.absorb, ended_not_published_act _ step.kind untold]
  · simp [running]
  · rw [driven, steps]
    cases intent : Player.intentOf step.kind <;> simp [intent]
  · have unlooped : r.loops = 0 := by simp [loops, played, acts]
    rw [unlooped, done]
    simp only [Deck.absorb, program_act]
    rfl

/-- The whole time of the first step is left. -/
theorem Started.clock (started : Started d step r) (punctual : Bool) : Clock punctual r := by
  obtain ⟨⟨mail, done⟩, played, -⟩ := started
  refine ⟨by simp [played], ?_⟩
  intro x member _
  simp only [played, List.head?_cons, Option.mem_def, Option.some.injEq] at member
  have running : r.deck.player.playback = .running := by rw [done]; rfl
  rw [left_running running, done, ← member]
  simp [Deck.absorb]

/-- To start a program is to follow it, and to keep its time where the deck is sound. -/
theorem follows_start {fresh : Bool} (punctual : Bool) (quiet : d.board.published = [])
    (playable : d.board.program.Playable) (handed : d.handled? a = some (.start true))
    (timed : fresh = true → d.Sound ∧ d.live = Deck.awaited d.player ∧ (start d a).deck.Fresh) :
    Follows fresh punctual d.board.program (start d a) := by
  obtain ⟨step, first, acts⟩ := playable
  have started := started_start handed first acts
  have silent : (start d a).deck.board.published = [] := by
    obtain ⟨mail, done⟩ := started.deck
    rw [done]
    rfl
  refine ⟨silent, started.timeline quiet first acts, ?_⟩
  intro always
  obtain ⟨sound, balance, young⟩ := timed always
  have forgets : ({ d with log := [] } : Deck).Sound := ⟨sound.quiet, sound.dated, sound.armed⟩
  have admits : ({ d with log := [] } : Deck).Admits a := by
    refine ⟨?_, fun _ => ⟨step, first, acts⟩, young⟩
    intro epoch
    refine ⟨?_, ?_⟩
    · rintro rfl
      cases handed
    · rintro rfl
      cases handed
  obtain ⟨fixed, balanced⟩ := forgets.act balance a admits
  exact ⟨fixed, balanced, started.clock punctual⟩

end started

theorem quiet_prepared {d : Deck} (quiet : d.board.published = []) (a : Action) :
    (d.prepared a).board.published = [] := by
  cases a with
  | change board => rfl
  | _ => exact quiet

theorem Timed.act {punctual : Bool} {p : Program} {r : Recording} (timed : Timed punctual r)
    (line : Timeline p r) (playable : p.Playable) {a : Action} (timely : Timely r.deck a)
    (young : (r.act a).deck.Fresh) (prompt : punctual = true → Punctual r.deck a) :
    Timed punctual (r.act a) := by
  obtain ⟨sound, balance, clock⟩ := timed
  rw [act_deck] at young
  have admits : r.deck.Admits a :=
    ⟨timely.command, fun start => absurd start timely.unbroken, young⟩
  have kept := sound.act balance a admits
  rw [← act_deck] at kept
  obtain ⟨fixed, same, before⟩ := sound.prepared a timely.command
  have clocked := clock.prepared a sound balance timely prompt
  unfold Recording.act at kept ⊢
  cases handed : r.deck.handled? a with
  | none =>
      rw [handed] at kept
      exact ⟨kept.1, kept.2, clocked⟩
  | some e =>
      rw [handed] at kept
      have unbroken : e ≠ .start true := by
        rintro rfl
        exact timely.unbroken handed
      have due : (r.deck.prepared a).live + Deck.liveIn (r.deck.prepared a).player.epoch e =
          Deck.awaited (r.deck.prepared a).player := by
        simpa [handed, same, balance] using before
      have told := line.prepared a timely.untouched
      exact ⟨kept.1, kept.2, clocked.handle told playable fixed e due unbroken⟩

/-- Whatever happens, the recording goes on as it should. -/
theorem Follows.act {fresh punctual : Bool} {p : Program} {r : Recording}
    (follows : Follows fresh punctual p r) (playable : p.Playable) (a : Action)
    (timely : Timely r.deck a) (young : fresh = true → (r.act a).deck.Fresh)
    (prompt : punctual = true → Punctual r.deck a) : Follows fresh punctual p (r.act a) := by
  obtain ⟨quiet, line, timed⟩ := follows
  have told := line.prepared a timely.untouched
  have silent := quiet_prepared quiet a
  suffices goesOn : (r.act a).deck.board.published = [] ∧ Timeline p (r.act a) from
    ⟨goesOn.1, goesOn.2, fun always => (timed always).act line playable timely (young always) prompt⟩
  unfold Recording.act
  cases handed : r.deck.handled? a with
  | none => exact ⟨silent, told⟩
  | some e =>
      refine ⟨rfl, told.handle playable silent e ?_⟩
      rintro rfl
      exact timely.unbroken handed

theorem Run.follows {fresh punctual : Bool} {p : Program} {first r : Recording}
    (run : Run fresh punctual first r) (follows : Follows fresh punctual p first)
    (playable : p.Playable) : Follows fresh punctual p r := by
  induction run with
  | refl => exact follows
  | act before a timely young prompt ih => exact ih.act playable a timely young prompt

/-- A run in which nothing gets too old begins so. -/
theorem Run.first {punctual : Bool} {first r : Recording} (run : Run true punctual first r) :
    first.deck.Fresh := by
  induction run with
  | refl young => exact young rfl
  | act _ _ _ _ _ ih => exact ih

/-- Whether anything gets too old may be left open. -/
theorem Run.weaken {fresh punctual : Bool} {first r : Recording}
    (run : Run fresh punctual first r) : Run false punctual first r := by
  induction run with
  | refl => exact .refl nofun
  | act _ a timely _ prompt ih => exact ih.act a timely nofun prompt

end RelayTimer.Recording
