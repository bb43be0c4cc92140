import Mathlib.Order.Bounds.Defs
import RelayTimer.Proofs.KeptTimes

set_option autoImplicit false

/-!
The times that are shown of a program which closes the contact first and opens it next. Below a
hundred minutes the time of a step is rounded down to what can be entered, so that a longer step
never shows as a shorter time. From a hundred minutes on the minutes stay at their limit and the
seconds start over with each minute, and what is shown is mostly not the longest time that would
do.
-/
namespace RelayTimer

namespace ManualTimes

/-- The times that can be entered and take no longer than so many milliseconds. -/
def timesWithin (ms : Nat) : Set Nat :=
  {time | time ≤ ms ∧ ∃ minutes seconds, minutes ≤ ManualField.limit .onMinutes ∧
    seconds ≤ ManualField.limit .onSeconds ∧ time = delayMs minutes seconds}

/-- The first time that takes more minutes than can be entered. -/
def tooLongMs : Nat := delayMs (ManualField.limit .onMinutes + 1) 0

/-- How minutes and seconds show a delay: they are the longest time that can be entered and is not
longer, unless the delay is too long for its minutes. Then they are the most minutes, and the
seconds that the last minute of the delay has. -/
structure Shows (delay : UInt32) (minutes seconds : Nat) : Prop where
  longest_iff : IsGreatest (timesWithin delay.toNat) (delayMs minutes seconds) ↔
    delay.toNat < tooLongMs ∨ delay.toNat / msPerSecond % 60 = ManualField.limit .onSeconds
  of_tooLong : tooLongMs ≤ delay.toNat →
    minutes = ManualField.limit .onMinutes ∧ seconds = delay.toNat / msPerSecond % 60

variable {p : Program} {on off : UInt32} {rest : List Step}

section shown

variable {delay : UInt32} {minutes seconds : Nat}

theorem inLimits_shown (shown : minutesSeconds delay = (minutes, seconds)) :
    minutes ≤ ManualField.limit .onMinutes ∧ seconds ≤ ManualField.limit .onSeconds := by
  obtain ⟨rfl, rfl⟩ := Prod.mk.inj shown
  simp only [ManualField.limit]
  omega

/-- Nothing longer is shown than what is done. -/
theorem delayMs_shown_le (shown : minutesSeconds delay = (minutes, seconds)) :
    delayMs minutes seconds ≤ delay.toNat := by
  obtain ⟨rfl, rfl⟩ := Prod.mk.inj shown
  simp only [ManualField.limit, delayMs, msPerMinute, msPerSecond]
  omega

/-- Below a hundred minutes only what is left of a second is not shown. -/
theorem delayMs_shown (shown : minutesSeconds delay = (minutes, seconds))
    (fits : delay.toNat < tooLongMs) :
    delayMs minutes seconds = delay.toNat / msPerSecond * msPerSecond := by
  obtain ⟨rfl, rfl⟩ := Prod.mk.inj shown
  simp only [tooLongMs, ManualField.limit, delayMs, msPerMinute, msPerSecond] at fits ⊢
  omega

theorem shown_of_tooLong (shown : minutesSeconds delay = (minutes, seconds))
    (tooLong : tooLongMs ≤ delay.toNat) :
    minutes = ManualField.limit .onMinutes ∧ seconds = delay.toNat / msPerSecond % 60 := by
  obtain ⟨rfl, rfl⟩ := Prod.mk.inj shown
  refine ⟨Nat.min_eq_right ?_, rfl⟩
  simp only [tooLongMs, ManualField.limit, delayMs, msPerMinute, msPerSecond] at tooLong ⊢
  omega

/-- Whole seconds are all that can be entered. -/
theorem le_of_mem_timesWithin {ms time : Nat} (within : time ∈ timesWithin ms) :
    time ≤ ms / msPerSecond * msPerSecond ∧ time ≤ delayMs 99 59 := by
  obtain ⟨le, minutes, seconds, few, short, rfl⟩ := within
  simp only [ManualField.limit, delayMs, msPerMinute, msPerSecond] at le few short ⊢
  omega

theorem shows (shown : minutesSeconds delay = (minutes, seconds)) :
    Shows delay minutes seconds := by
  have member : delayMs minutes seconds ∈ timesWithin delay.toNat :=
    ⟨delayMs_shown_le shown, minutes, seconds, (inLimits_shown shown).1, (inLimits_shown shown).2,
      rfl⟩
  refine ⟨⟨fun greatest => ?_, fun shows => ⟨member, fun time within => ?_⟩⟩, shown_of_tooLong shown⟩
  · by_contra neither
    obtain ⟨tooLong, cut⟩ := not_or.mp neither
    obtain ⟨rfl, rfl⟩ := shown_of_tooLong shown (Nat.not_lt.mp tooLong)
    -- the longest time of all would do, and is longer
    have longest : delayMs 99 59 ∈ timesWithin delay.toNat := by
      refine ⟨Nat.le_trans ?_ (Nat.not_lt.mp tooLong), 99, 59, le_rfl, le_rfl, rfl⟩
      decide
    have le := greatest.2 longest
    simp only [ManualField.limit, delayMs, msPerMinute, msPerSecond] at le cut
    omega
  · obtain ⟨whole, bounded⟩ := le_of_mem_timesWithin within
    by_cases fits : delay.toNat < tooLongMs
    · rw [delayMs_shown shown fits]
      exact whole
    · obtain ⟨rfl, rfl⟩ := shown_of_tooLong shown (Nat.not_lt.mp fits)
      rw [shows.resolve_left fits]
      exact bounded

/-- Below a hundred minutes a longer delay does not show as a shorter time. -/
theorem delayMs_shown_mono {longer : UInt32} {minutes' seconds' : Nat}
    (shown : minutesSeconds delay = (minutes, seconds))
    (shown' : minutesSeconds longer = (minutes', seconds')) (le : delay ≤ longer)
    (fits : longer.toNat < tooLongMs) : delayMs minutes seconds ≤ delayMs minutes' seconds' := by
  have le : delay.toNat ≤ longer.toNat := UInt32.le_iff_toNat_le.mp le
  rw [delayMs_shown shown (Nat.lt_of_le_of_lt le fits), delayMs_shown shown' fits]
  exact Nat.mul_le_mul_right _ (Nat.div_le_div_right le)

end shown

theorem ofProgram?_of_steps (steps : p.steps = ⟨.closes, on⟩ :: ⟨.opens, off⟩ :: rest) :
    ∃ m, ofProgram? p = some m ∧ minutesSeconds on = (m.onMinutes, m.onSeconds) ∧
      minutesSeconds off = (m.offMinutes, m.offSeconds) := by
  refine ⟨{
      onMinutes := (minutesSeconds on).1, onSeconds := (minutesSeconds on).2
      offMinutes := (minutesSeconds off).1, offSeconds := (minutesSeconds off).2 }, ?_, rfl, rfl⟩
  unfold ofProgram?
  rw [steps]

/-- The times of a program are within their limits and show its first two steps, and those of
another one whose first steps are as long or longer are as long or longer, where they are not too
long. -/
theorem shows_steps (steps : p.steps = ⟨.closes, on⟩ :: ⟨.opens, off⟩ :: rest) :
    ∃ m, ofProgram? p = some m ∧ m.InLimits ∧ Shows on m.onMinutes m.onSeconds ∧
      Shows off m.offMinutes m.offSeconds ∧
      ∀ (q : Program) (on' off' : UInt32) (rest' : List Step),
        q.steps = ⟨.closes, on'⟩ :: ⟨.opens, off'⟩ :: rest' → ∃ n, ofProgram? q = some n ∧
          (on ≤ on' → on'.toNat < tooLongMs →
            delayMs m.onMinutes m.onSeconds ≤ delayMs n.onMinutes n.onSeconds) ∧
          (off ≤ off' → off'.toNat < tooLongMs →
            delayMs m.offMinutes m.offSeconds ≤ delayMs n.offMinutes n.offSeconds) := by
  obtain ⟨m, times, shownOn, shownOff⟩ := ofProgram?_of_steps steps
  refine ⟨m, times, ?_, shows shownOn, shows shownOff, ?_⟩
  · intro field
    cases field with
    | onMinutes => exact (inLimits_shown shownOn).1
    | onSeconds => exact (inLimits_shown shownOn).2
    | offMinutes => exact (inLimits_shown shownOff).1
    | offSeconds => exact (inLimits_shown shownOff).2
  · intro q on' off' rest' steps'
    obtain ⟨n, times', shownOn', shownOff'⟩ := ofProgram?_of_steps steps'
    exact ⟨n, times', delayMs_shown_mono shownOn shownOn', delayMs_shown_mono shownOff shownOff'⟩

/-- A millisecond short of a hundred minutes, and a time that is too long and ends with a minute:
both show as the longest time, and a longer step does not show as less. -/
theorem shows_steps_longest :
    let p : Program := { steps := [⟨.closes, 5999999⟩, ⟨.opens, 6119000⟩] }
    let q : Program := { steps := [⟨.closes, 5999999⟩, ⟨.opens, 7⟩, ⟨.loops, 0⟩] }
    let m : ManualTimes := { onMinutes := 99, onSeconds := 59, offMinutes := 99, offSeconds := 59 }
    p.steps = [⟨.closes, 5999999⟩, ⟨.opens, 6119000⟩] ∧ ofProgram? p = some m ∧ m.InLimits ∧
      IsGreatest (timesWithin 5999999) (delayMs 99 59) ∧
      IsGreatest (timesWithin 6119000) (delayMs 99 59) ∧
      ∃ n, ofProgram? q = some n ∧ delayMs 99 59 ≤ delayMs n.onMinutes n.onSeconds := by
  intro p q m
  obtain ⟨times, shown, limits, on, off, others⟩ := shows_steps (p := p) rfl
  have same : ofProgram? p = some m := by decide
  rw [same] at shown
  obtain rfl := Option.some.inj shown
  obtain ⟨n, shown', noLess, -⟩ := others q 5999999 7 _ rfl
  exact ⟨rfl, same, limits, on.longest_iff.mpr (.inl (by decide)),
    off.longest_iff.mpr (.inr (by decide)), n, shown', noLess (by decide) (by decide)⟩

/-- A hundred minutes show as 99 minutes and no seconds. The longest time that can be entered is
not longer than they are, and is shown of a step that is a second shorter. -/
theorem hundred_minutes_shown :
    let p : Program := { steps := [⟨.closes, 6000000⟩, ⟨.opens, 1000⟩] }
    let q : Program := { steps := [⟨.closes, 5999000⟩, ⟨.opens, 1000⟩] }
    ofProgram? p = some { onMinutes := 99, onSeconds := 0, offMinutes := 0, offSeconds := 1 } ∧
      ¬ IsGreatest (timesWithin 6000000) (delayMs 99 0) ∧
      IsGreatest (timesWithin 6000000) (delayMs 99 59) ∧
      ofProgram? q = some { onMinutes := 99, onSeconds := 59, offMinutes := 0, offSeconds := 1 } ∧
      delayMs 99 0 < delayMs 99 59 := by
  have longest : IsGreatest (timesWithin 6000000) (delayMs 99 59) :=
    ⟨⟨by decide, 99, 59, le_rfl, le_rfl, rfl⟩, fun _ within => (le_of_mem_timesWithin within).2⟩
  refine ⟨by decide, fun greatest => ?_, longest, by decide, by decide⟩
  have le := greatest.2 longest.1
  exact absurd le (by decide)

end ManualTimes

end RelayTimer
