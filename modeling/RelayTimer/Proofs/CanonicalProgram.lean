import RelayTimer.Proofs.ReadingTokens

set_option autoImplicit false

/-!
The programs that can be typed on the console: what a line reads as has one form, however the line
is written.
-/
namespace RelayTimer

/-- A program as it can be typed: it waits only before its first action, it loops only at its end
and after something else, and no step is followed by another one without a time between them. A
wait alone is no program. -/
structure Program.Canonical (p : Program) : Prop where
  sized : 1 ≤ p.steps.length ∧ p.steps.length ≤ maxSteps
  notDelayAlone : p.steps.map Step.kind ≠ [.waits]
  waitsFirst : ∀ i step, p.steps[i]? = some step → step.kind = .waits → i = 0
  loopsLast : ∀ i step, p.steps[i]? = some step → step.kind = .loops →
    0 < i ∧ i + 1 = p.steps.length ∧ step.delayMs = 0
  delayed : ∀ i step, p.steps[i]? = some step → i + 1 < p.steps.length → 0 < step.delayMs

namespace Draft

/-- Steps, the first one first, that each have been ended by another one. -/
def Ended (steps : List Step) : Prop :=
  ∀ i (step : Step), steps[i]? = some step →
    0 < step.delayMs ∧ step.kind ≠ .loops ∧ (step.kind = .waits → i = 0)

/-- What the newest step may be behind others. -/
structure Newest (earlier : List Step) (newest : Step) : Prop where
  waits : newest.kind = .waits → earlier = []
  loops : newest.kind = .loops → earlier ≠ [] ∧ newest.delayMs = 0

theorem ended_nil : Ended [] := by
  intro i step here
  simp at here

theorem getElem?_concat (steps : List Step) (newest : Step) (i : Nat) (step : Step) :
    (steps ++ [newest])[i]? = some step ↔
      steps[i]? = some step ∨ (i = steps.length ∧ newest = step) := by
  rw [List.getElem?_append]
  split
  · rename_i inside
    constructor
    · exact Or.inl
    · rintro (here | ⟨last, -⟩)
      · exact here
      · omega
  · rename_i behind
    rw [List.getElem?_eq_none (by omega : steps.length ≤ i), List.getElem?_singleton]
    by_cases last : i = steps.length
    · simp [last]
    · have apart : i - steps.length ≠ 0 := by omega
      simp [last, apart]

theorem ended_concat_iff (steps : List Step) (newest : Step) :
    Ended (steps ++ [newest]) ↔
      Ended steps ∧ 0 < newest.delayMs ∧ newest.kind ≠ .loops ∧
        (newest.kind = .waits → steps = []) := by
  unfold Ended
  simp only [getElem?_concat]
  constructor
  · intro all
    obtain ⟨delayed, noLoop, first⟩ := all _ _ (.inr ⟨rfl, rfl⟩)
    exact ⟨fun i step here => all i step (.inl here), delayed, noLoop,
      fun waits => List.length_eq_zero_iff.mp (first waits)⟩
  · rintro ⟨ended, delayed, noLoop, first⟩ i step (here | ⟨last, rfl⟩)
    · exact ended i step here
    · refine ⟨delayed, noLoop, ?_⟩
      intro waits
      rw [last, first waits]
      rfl

end Draft

namespace Program

open Draft (Ended Newest)

/-- A program can be typed if all its steps but the newest have been ended in turn. -/
theorem Canonical.of_steps {p : Program} {earlier : List Step} {newest : Step}
    (split : p.steps = earlier ++ [newest]) (ended : Ended earlier) (last : Newest earlier newest)
    (notAlone : earlier = [] → newest.kind ≠ .waits) : p.Canonical := by
  have length : p.steps.length = earlier.length + 1 := by simp [split]
  refine ⟨⟨by omega, p.length_le⟩, ?_, ?_, ?_, ?_⟩
  · intro only
    rw [split, List.map_append, List.map_singleton, List.append_eq_singleton_iff] at only
    rcases only with ⟨nothing, waits⟩ | ⟨-, nothing⟩
    · exact notAlone (List.map_eq_nil_iff.mp nothing) (List.singleton_inj.mp waits)
    · cases nothing
  · intro i step here waits
    rw [split, Draft.getElem?_concat] at here
    rcases here with here | ⟨place, rfl⟩
    · exact (ended i step here).2.2 waits
    · rw [place, last.waits waits]
      rfl
  · intro i step here loops
    rw [split, Draft.getElem?_concat] at here
    rcases here with here | ⟨place, rfl⟩
    · exact absurd loops (ended i step here).2.1
    · obtain ⟨others, noDelay⟩ := last.loops loops
      have := List.length_pos_iff.mpr others
      exact ⟨by omega, by omega, noDelay⟩
  · intro i step here before
    rw [split, Draft.getElem?_concat] at here
    rcases here with here | ⟨place, -⟩
    · exact (ended i step here).1
    · omega

theorem Canonical.steps {p : Program} (canonical : p.Canonical) :
    ∃ earlier newest, p.steps = earlier ++ [newest] ∧ Ended earlier ∧ Newest earlier newest ∧
      (earlier = [] → newest.kind ≠ .waits) := by
  obtain ⟨sized, notDelayAlone, waitsFirst, loopsLast, delayed⟩ := canonical
  obtain nothing | ⟨earlier, newest, split⟩ := List.eq_nil_or_concat p.steps
  · simp [nothing] at sized
  · rw [List.concat_eq_append] at split
    simp only [split, Draft.getElem?_concat, List.length_append, List.length_singleton]
      at waitsFirst loopsLast delayed
    refine ⟨earlier, newest, split, ?_, ⟨?_, ?_⟩, ?_⟩
    · intro i step here
      have inside := (List.getElem?_eq_some_iff.mp here).1
      refine ⟨delayed i step (.inl here) (by omega), ?_, waitsFirst i step (.inl here)⟩
      intro loops
      have := (loopsLast i step (.inl here) loops).2.1
      omega
    · intro waits
      exact List.length_eq_zero_iff.mp (waitsFirst _ _ (.inr ⟨rfl, rfl⟩) waits)
    · intro loops
      obtain ⟨behind, -, noDelay⟩ := loopsLast _ _ (.inr ⟨rfl, rfl⟩) loops
      exact ⟨List.length_pos_iff.mp behind, noDelay⟩
    · rintro rfl waits
      exact notDelayAlone (by simp [split, waits])

theorem forall_getElem?_iff (steps : List Step) (P : Nat → Step → Prop) :
    (∀ i step, steps[i]? = some step → P i step) ↔
      ∀ i, ∀ inside : i < steps.length, P i steps[i] := by
  constructor
  · intro all i inside
    exact all i _ (List.getElem?_eq_getElem inside)
  · intro all i step here
    obtain ⟨inside, rfl⟩ := List.getElem?_eq_some_iff.mp here
    exact all i inside

instance (p : Program) : Decidable p.Canonical :=
  decidable_of_iff
    ((1 ≤ p.steps.length ∧ p.steps.length ≤ maxSteps) ∧ p.steps.map Step.kind ≠ [.waits] ∧
      (∀ i, ∀ inside : i < p.steps.length, p.steps[i].kind = .waits → i = 0) ∧
      (∀ i, ∀ inside : i < p.steps.length, p.steps[i].kind = .loops →
        0 < i ∧ i + 1 = p.steps.length ∧ p.steps[i].delayMs = 0) ∧
      ∀ i, ∀ inside : i < p.steps.length, i + 1 < p.steps.length → 0 < p.steps[i].delayMs) <| by
    simp only [← forall_getElem?_iff p.steps fun i step => step.kind = .waits → i = 0,
      ← forall_getElem?_iff p.steps fun i step => step.kind = .loops →
        0 < i ∧ i + 1 = p.steps.length ∧ step.delayMs = 0,
      ← forall_getElem?_iff p.steps fun i step => i + 1 < p.steps.length → 0 < step.delayMs]
    exact ⟨fun ⟨sized, notAlone, waits, loops, delayed⟩ => ⟨sized, notAlone, waits, loops, delayed⟩,
      fun ⟨sized, notAlone, waits, loops, delayed⟩ => ⟨sized, notAlone, waits, loops, delayed⟩⟩

end Program

namespace Draft

/-- What has been typed so far can become a program. -/
def Typed : List Step → Prop
  | [] => True
  | newest :: earlier => Ended earlier.reverse ∧ Newest earlier.reverse newest

variable {d after : Draft} {t : Text.Token}

theorem Typed.addDelay {delay : UInt32} (typed : Typed d.backwards)
    (added : d.addDelay delay t = .ok after) : Typed after.backwards := by
  obtain ⟨backwards, bound, slot, delayOffset⟩ := d
  cases backwards with
  | nil =>
      cases added
      exact ⟨ended_nil, ⟨fun _ => rfl, nofun⟩⟩
  | cons newest earlier =>
      simp only [Draft.addDelay] at added
      split at added
      · cases added
      · rename_i noLoop
        split at added
        · cases added
        · cases added
          exact ⟨typed.1, ⟨typed.2.waits, fun loops => absurd loops noLoop⟩⟩

/-- A step that another one follows has been ended by it. -/
theorem Typed.settle {steps : List Step} (typed : Typed steps)
    (noLoop : ∀ newest ∈ steps.head?, newest.kind ≠ .loops) : Ended (Draft.settle steps).reverse := by
  cases steps with
  | nil => exact ended_nil
  | cons newest earlier =>
      have notLast := noLoop newest rfl
      simp only [Draft.settle, List.reverse_cons, ended_concat_iff]
      refine ⟨typed.1, ?_⟩
      split
      · have positive : 0 < minDelayMs := by decide
        exact ⟨positive, notLast, typed.2.waits⟩
      · rename_i nonzero
        exact ⟨UInt32.pos_iff_ne_zero.mpr nonzero, notLast, typed.2.waits⟩

theorem Typed.addStep {kind : StepKind} (typed : Typed d.backwards) (acts : kind ≠ .waits)
    (added : d.addStep kind t = .ok after) : Typed after.backwards := by
  unfold Draft.addStep at added
  split at added
  · cases added
  · split at added
    · cases added
    · rename_i noLoop
      split at added
      · cases added
      · rename_i notFirst
        cases added
        refine ⟨typed.settle ?_, ⟨fun waits => absurd waits acts, ?_⟩⟩
        · intro newest first loops
          apply noLoop
          unfold isLooped
          rw [Option.mem_def.mp first]
          simp [loops]
        · intro loops
          have loops : kind = .loops := loops
          cases begun : d.backwards with
          | nil => simp [begun, loops] at notFirst
          | cons newest earlier => simp [Draft.settle]

end Draft

namespace Reading

/-- A line that is read so far: its steps can become a program, and nothing else is one. -/
def Sound : Reading → Prop
  | .steps draft => Draft.Typed draft.backwards
  | .complete (.program _) => False
  | .complete _ | .awaitingSlot _ => True

theorem sound_of_keyword {token : List Char} {next : Reading} (found : keyword? token = some next) :
    next.Sound := by
  unfold keyword? at found
  obtain ⟨entry, first, rfl⟩ := Option.map_eq_some_iff.mp found
  have member := List.mem_of_find?_eq_some first
  simp only [keywords, List.mem_cons, List.not_mem_nil, or_false] at member
  rcases member with rfl | rfl | rfl | rfl | rfl | rfl | rfl <;> trivial

theorem Sound.take {r after : Reading} {t : Text.Token} (sound : r.Sound)
    (taken : r.take t = .ok after) : after.Sound := by
  cases r with
  | complete request => cases taken
  | awaitingSlot verb =>
      simp only [Reading.take] at taken
      split at taken
      · cases taken
        trivial
      · cases taken
  | steps draft =>
      obtain ⟨-, added⟩ | ⟨-, word, added⟩ | ⟨-, -, found, -⟩ := (take_steps_iff _ _ _).mp taken
      · have typed : Draft.Typed { draft with slot := smallNumber? t <|> draft.slot }.backwards := sound
        exact typed.addDelay added
      · exact Draft.Typed.addStep sound (stepWord?_ne_waits word) added
      · exact sound_of_keyword found

/-- A line that reads as a program reads as one that can be typed. -/
theorem Sound.finish {r : Reading} (sound : r.Sound) {length : Nat} {p : Program}
    (finished : r.finish length = .ok (.program p)) : p.Canonical := by
  cases r with
  | complete request =>
      cases finished
      exact False.elim sound
  | awaitingSlot verb => cases finished
  | steps draft =>
      simp only [Reading.finish] at finished
      split at finished
      · cases finished
      · split at finished
        · rename_i notAlone
          cases finished
          obtain ⟨backwards, bound, slot, delayOffset⟩ := draft
          cases backwards with
          | nil => contradiction
          | cons newest earlier =>
              obtain ⟨ended, last⟩ := sound
              apply Program.Canonical.of_steps (List.reverse_cons ..) ended last
              intro empty
              rw [List.reverse_eq_nil_iff] at empty
              subst empty
              simpa [Draft.isDelayAlone] using notAlone
        · split at finished
          · cases finished
          · cases finished

end Reading

theorem Request.canonical_of_ofChars {line : List Char} {p : Program}
    (read : Request.ofChars line = .ok (.program p)) : p.Canonical := by
  obtain ⟨reading, taken, finished⟩ := (bind_eq_ok_iff _ _ _).mp read
  have begun : Reading.start.Sound := trivial
  exact (Reading.foldlM_keeps Reading.Sound.take begun taken).finish finished

end RelayTimer
