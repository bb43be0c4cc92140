import RelayTimer.Proofs.Recording

set_option autoImplicit false

/-!
What a player does follows the timeline of its program, whoever stops it and lets it go on.
-/
namespace RelayTimer

namespace Program

theorem drop_of_next?_none {p : Program} (past : p.next? = none) : p.steps.drop p.cursor = [] := by
  simpa [next?] using past

theorem of_next?_some {p after : Program} {step : Step} (here : p.next? = some (step, after)) :
    p.steps.drop p.cursor = step :: p.steps.drop (p.cursor + 1) ∧
      p.steps[p.cursor]? = some step ∧ after = { p with cursor := p.cursor + 1 } := by
  simp only [next?, Option.map_eq_some_iff, Prod.mk.injEq] at here
  obtain ⟨found, at_, rfl, rfl⟩ := here
  obtain ⟨inside, value⟩ := List.getElem?_eq_some_iff.mp at_
  exact ⟨by rw [List.drop_eq_getElem_cons inside, value], at_, rfl⟩

end Program

namespace Recording

open Program (unrollFrom)

/-- The steps played, their order in time. -/
def steps (r : Recording) : List Step := (r.played.map Prod.fst).reverse

/-- What has been played, driven and counted is what the program comes to first, and the rest is
what is left of it. -/
structure Timeline (p : Program) (r : Recording) : Prop where
  program : r.deck.player.program.steps = p.steps
  begun : r.played ≠ []
  place : ∀ k, p.unrolled (r.played.length + k) =
    r.steps ++ unrollFrom p.steps k (p.steps.drop r.deck.player.program.cursor)
  ended : r.deck.player.playback = .idle → p.steps.drop r.deck.player.program.cursor = []
  untold : r.deck.player.playback ≠ .idle → Event.ended ∉ r.deck.log
  told : r.deck.player.playback = .idle → Event.ended ∈ r.deck.log
  driven : r.driven = r.steps.filterMap fun step => Player.intentOf step.kind
  counter : r.deck.board.counter.map UInt32.toNat = some (min r.loops (UInt32.size - 1))

/-- A recording in which nothing has moved but the clock. -/
theorem Timeline.still {p : Program} {r after : Recording} (line : Timeline p r)
    (program : after.deck.player.program = r.deck.player.program)
    (played : after.played.map Prod.fst = r.played.map Prod.fst)
    (driven : after.driven = r.driven)
    (counter : after.deck.board.counter = r.deck.board.counter)
    (playback : after.deck.player.playback = .idle ↔ r.deck.player.playback = .idle)
    (silent : Event.ended ∈ after.deck.log ↔ Event.ended ∈ r.deck.log) : Timeline p after := by
  have steps : after.steps = r.steps := by simp only [Recording.steps, played]
  have length : after.played.length = r.played.length := by
    simpa using congrArg List.length played
  have loops : after.loops = r.loops := by
    have count (l : List (Step × Nat)) : (l.countP fun x => x.1.kind = .loops) =
        (l.map Prod.fst).countP fun step => step.kind = .loops := by
      simp [List.countP_map, Function.comp_def]
    simp only [Recording.loops, count, played]
  refine ⟨by rw [program, line.program], ?_, ?_, ?_, ?_, ?_, ?_, ?_⟩
  · intro zero
    exact line.begun (List.eq_nil_of_length_eq_zero (by rw [← length, zero]; rfl))
  · rw [length, steps, program]
    exact line.place
  · rw [playback, program]
    exact line.ended
  · rw [silent, ne_eq, playback]
    exact line.untold
  · rw [silent, playback]
    exact line.told
  · rw [driven, steps, line.driven]
  · rw [counter, loops, line.counter]

/-- Every drive of the contact shows in the count of its relay. -/
theorem driven_act (b : Board) (kind : StepKind) :
    b.driven (Player.act b kind) = (Player.intentOf kind).toList := by
  cases kind <;>
    simp [Board.driven, Player.act, Player.intentOf, Board.driveContact, Board.withContact,
      Contact.set, RelayOutput.drive]

theorem driven_same {before after : Board} (same : after.contact = before.contact) :
    before.driven after = [] := by
  simp [Board.driven, same]

theorem driven_publish (b : Board) (e : Event) : b.driven (b.publish e) = [] := driven_same rfl

theorem ended_not_published_act (b : Board) (kind : StepKind)
    (untold : Event.ended ∉ b.published) : Event.ended ∉ (Player.act b kind).published := by
  unfold Player.act
  split
  · simp only [Board.driveContact, Board.withContact, Contact.set, List.mem_append, untold,
      false_or]
    split <;> simp
  · exact untold

theorem program_act (b : Board) (kind : StepKind) :
    (Player.act b kind).counter = b.counter ∧ (Player.act b kind).program = b.program := by
  unfold Player.act
  split <;> exact ⟨rfl, rfl⟩

/-- The counter goes up by one until it is at its end. -/
theorem countLoop_toNat (counter : Option UInt32) (n : Nat)
    (counted : counter.map UInt32.toNat = some (min n (UInt32.size - 1))) :
    (Player.countLoop counter).toNat = min (n + 1) (UInt32.size - 1) := by
  cases counter with
  | none => cases counted
  | some c =>
      simp only [Option.map_some, Option.some.injEq] at counted
      simp only [Player.countLoop, Option.getD_some]
      have bound := c.toNat_lt
      simp only [UInt32.size] at counted ⊢
      split
      · rw [UInt32.toNat_add]
        simp
        omega
      · omega

/-- A step that is played is the next one of the timeline. -/
theorem Timeline.place_next {p : Program} {r : Recording} (line : Timeline p r) {step : Step}
    {rest left : List Step}
    (here : p.steps.drop r.deck.player.program.cursor = step :: rest)
    (next : left = if step.kind = .loops then p.steps else rest) (k : Nat) :
    p.unrolled (r.played.length + 1 + k) = r.steps ++ [step] ++ unrollFrom p.steps k left := by
  have place := line.place (k + 1)
  rw [here, unrollFrom] at place
  rw [show r.played.length + 1 + k = r.played.length + (k + 1) by omega, place, next]
  simp

/-- A recording in which one more step has been played. -/
theorem Timeline.moved {p : Program} {r after : Recording} (line : Timeline p r) {step : Step}
    {rest : List Step} (here : p.steps.drop r.deck.player.program.cursor = step :: rest)
    (played : after.played = (step, 0) :: r.played)
    (program : after.deck.player.program.steps = p.steps)
    (cursor : p.steps.drop after.deck.player.program.cursor =
      if step.kind = .loops then p.steps else rest)
    (active : r.deck.player.playback ≠ .idle) (goesOn : after.deck.player.playback ≠ .idle)
    (silent : Event.ended ∈ after.deck.log → Event.ended ∈ r.deck.log)
    (driven : after.driven = r.driven ++ (Player.intentOf step.kind).toList)
    (counter : after.deck.board.counter.map UInt32.toNat =
      some (min (r.loops + if step.kind = .loops then 1 else 0) (UInt32.size - 1))) :
    Timeline p after := by
  have steps : after.steps = r.steps ++ [step] := by
    simp only [Recording.steps, played, List.map_cons, List.reverse_cons]
  refine ⟨program, by simp [played], ?_, (absurd · goesOn), ?_, (absurd · goesOn), ?_, ?_⟩
  · intro k
    rw [played, List.length_cons, steps, cursor]
    exact line.place_next here rfl k
  · intro _ told
    exact line.untold active (silent told)
  · rw [driven, steps, line.driven, List.filterMap_append]
    rfl
  · rw [counter]
    simp only [Recording.loops, played, List.countP_cons, decide_eq_true_eq]

/-- The player's place tells which step it has played: a looping step is never the first. -/
theorem Timeline.stepTo?_playNext {p : Program} {r : Recording} (line : Timeline p r)
    (playable : p.Playable) (own : Player) (program : own.program = r.deck.player.program)
    (board : Board) :
    r.deck.player.stepTo? (own.playNext board).player = own.program.next?.map Prod.fst := by
  cases here : own.program.next? with
  | none => simp [Player.playNext_ended here, Player.stepTo?, program]
  | some next =>
      obtain ⟨step, after⟩ := next
      obtain ⟨-, at_, rfl⟩ := Program.of_next?_some here
      rw [program] at at_
      by_cases loops : step.kind = .loops
      · have moved : r.deck.player.program.cursor ≠ 0 := by
          intro zero
          obtain ⟨first, head, acts⟩ := playable
          rw [zero, line.program, ← List.head?_eq_getElem?, head] at at_
          cases at_
          exact acts loops
        simp [Player.playNext_looped here loops, Player.stepTo?, Ne.symm moved, at_]
      · simp [Player.playNext_stepped here loops, Player.stepTo?, program, at_]

/-- To play the next step goes on with the timeline. An idle player has none left. -/
theorem Timeline.absorb_playNext {p : Program} {r : Recording} (line : Timeline p r)
    (playable : p.Playable) (quiet : r.deck.board.published = []) (own : Player)
    (program : own.program = r.deck.player.program)
    (playback : own.playback = .idle ↔ r.deck.player.playback = .idle) :
    Timeline p (r.absorb (own.playNext r.deck.board)) := by
  have same : own.program.steps = p.steps := by rw [program, line.program]
  have played : (r.absorb (own.playNext r.deck.board)).played =
      (own.program.next?.map Prod.fst).toList.map (·, 0) ++ r.played := by
    simp only [absorb, line.stepTo?_playNext playable own program]
  cases here : own.program.next? with
  | none =>
      have past := Program.drop_of_next?_none here
      rw [same, program] at past
      simp only [here, Option.map_none, Option.toList_none, List.map_nil, List.nil_append] at played
      rw [Player.playNext_ended here] at played ⊢
      have fixed : (r.absorb { player := { own with playback := .idle }
                               board := r.deck.board.publish .ended }).steps = r.steps := by
        simp only [steps, played]
      refine ⟨same, by rw [played]; exact line.begun, ?_, ?_, ?_, ?_, ?_, ?_⟩
      · intro k
        rw [played, fixed]
        simpa only [absorb, Deck.absorb, program] using line.place k
      · intro _
        rw [← past, ← program]
        rfl
      · simp [absorb, Deck.absorb]
      · simp [absorb, Deck.absorb, Deck.published_publish, quiet]
      · rw [fixed]
        simpa only [absorb, driven_publish, List.append_nil] using line.driven
      · rw [Recording.loops, played]
        exact line.counter
  | some next =>
      obtain ⟨step, after⟩ := next
      obtain ⟨due, -, rfl⟩ := Program.of_next?_some here
      rw [same, program] at due
      have active : r.deck.player.playback ≠ .idle := by
        intro idle
        rw [line.ended idle] at due
        cases due
      have goesOn : own.playback ≠ .idle := fun idle => active (playback.mp idle)
      simp only [here, Option.map_some, Option.toList_some, List.map_cons, List.map_nil,
        List.singleton_append] at played
      by_cases loops : step.kind = .loops
      · have undriven : r.deck.board.driven (((r.deck.board.setCounter
            (some (Player.countLoop r.deck.board.counter))).publish .counterChanged).publish
              (.elapsed own.epoch)) = [] := driven_same rfl
        rw [Player.playNext_looped here loops] at played ⊢
        refine line.moved due played same ?_ active goesOn ?_ ?_ ?_
        · simp [absorb, Deck.absorb, loops]
        · simp [absorb, Deck.absorb, Deck.published_publish, Board.setCounter, quiet]
        · simp only [absorb, loops, undriven]
          rfl
        · simp only [absorb, Deck.absorb, Board.publish, Board.setCounter, Option.map_some, loops,
            ↓reduceIte, countLoop_toNat _ _ line.counter]
      · rw [Player.playNext_stepped here loops] at played ⊢
        refine line.moved due played same ?_ active goesOn ?_ ?_ ?_
        · simp [absorb, Deck.absorb, loops, program]
        · have untold : Event.ended ∉ r.deck.board.published := by simp [quiet]
          simp [absorb, Deck.absorb, ended_not_published_act _ step.kind untold]
        · simp only [absorb, driven_act]
        · simp only [absorb, Deck.absorb, program_act, loops, ↓reduceIte, Nat.add_zero]
          exact line.counter

/-- Whatever the player is handed but a new start, an end of a time that comes late included. -/
theorem Timeline.handle {p : Program} {r : Recording} (line : Timeline p r)
    (playable : p.Playable) (quiet : r.deck.board.published = []) (e : Event)
    (unbroken : e ≠ .start true) : Timeline p (r.handle e) := by
  unfold Recording.handle
  have outcome := Player.handle_handled r.deck.player r.deck.board r.deck.timer.remaining e
  generalize r.deck.player.handle r.deck.board r.deck.timer.remaining e = done at outcome ⊢
  have unmoved (own : Player) (same : own.program = r.deck.player.program) :
      r.deck.player.stepTo? own = none := by
    simp [Player.stepTo?, same]
  cases outcome with
  | advanced advance =>
      cases advance with
      | restart => exact absurd rfl unbroken
      | resume paused nothing =>
          exact line.absorb_playNext playable quiet _ rfl (by simp [paused])
      | elapsed => exact line.absorb_playNext playable quiet _ rfl Iff.rfl
  | rearmed command paused left =>
      refine line.still rfl ?_ ?_ rfl ?_ ?_
      · simp [absorb, unmoved]
      · simp [absorb, driven_same]
      · simp [absorb, paused]
      · simp [absorb, Deck.absorb, quiet]
  | paused command running =>
      refine line.still rfl ?_ ?_ rfl ?_ ?_
      · simp [absorb, unmoved]
      · simp [absorb, driven_same]
      · simp [absorb, running]
      · simp [absorb, Deck.absorb, quiet]
  | refused command idle =>
      refine line.still rfl ?_ ?_ rfl Iff.rfl ?_
      · simp [absorb, unmoved]
      · simp [absorb, driven_publish]
      · simp [absorb, Deck.absorb, Deck.published_publish, line.told idle]
  | ignored stale other =>
      refine line.still rfl ?_ ?_ rfl Iff.rfl ?_
      · simp [absorb, unmoved]
      · simp [absorb, driven_same]
      · simp [absorb, Deck.absorb, quiet]

theorem map_fst_extend (ms : Nat) (played : List (Step × Nat)) :
    (extend ms played).map Prod.fst = played.map Prod.fst := by
  cases played <;> rfl

theorem Timeline.prepared {p : Program} {r : Recording} (line : Timeline p r) (a : Action)
    (untouched : ∀ board, a ≠ .change board) : Timeline p (r.prepared a) := by
  refine line.still ?_ ?_ rfl ?_ ?_ ?_
  · cases a <;> rfl
  · cases a with
    | wait ms =>
        simp only [Recording.prepared]
        split
        · exact map_fst_extend _ _
        · rfl
    | _ => rfl
  · cases a with
    | change board => exact absurd rfl (untouched board)
    | _ => rfl
  · cases a <;> exact Iff.rfl
  · cases a <;> exact Iff.rfl

end Recording

end RelayTimer
