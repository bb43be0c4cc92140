import RelayTimer.Request.Reader

set_option autoImplicit false

/-!
What one token can add to a line that has been read so far, said once for all that is proved about
reading.
-/
namespace RelayTimer

theorem bind_eq_ok_iff {ε α β : Type} (first : Except ε α) (next : α → Except ε β) (b : β) :
    (first >>= next) = .ok b ↔ ∃ a, first = .ok a ∧ next a = .ok b := by
  constructor
  · intro done
    cases first with
    | error e => cases done
    | ok a => exact ⟨a, rfl, done⟩
  · rintro ⟨a, rfl, done⟩
    exact done

theorem bind_eq_error_iff {ε α β : Type} (first : Except ε α) (next : α → Except ε β) (e : ε) :
    (first >>= next) = .error e ↔
      first = .error e ∨ ∃ a, first = .ok a ∧ next a = .error e := by
  cases first with
  | error other =>
      have stays : (Except.error other >>= next) = .error other := rfl
      rw [stays]
      simp only [Except.error.injEq, reduceCtorEq, false_and, exists_false, or_false]
  | ok a =>
      have goes : (Except.ok a >>= next) = next a := rfl
      rw [goes]
      simp only [reduceCtorEq, Except.ok.injEq, exists_eq_left', false_or]

theorem stepWord?_ne_waits {token : List Char} {kind : StepKind}
    (found : stepWord? token = some kind) : kind ≠ .waits := by
  unfold stepWord? at found
  split at found
  · cases found
    nofun
  · split at found
    · cases found
      nofun
    · split at found
      · cases found
        nofun
      · cases found

namespace Reading

/-- What a token adds to steps that have been typed: time for the newest step, another step, or a
request in place of any step. -/
inductive Taken (draft : Draft) (t : Text.Token) : Reading → Prop
  | delay {ms : UInt32} {after : Draft} (reads : readDelay t = .ok (some ms))
      (added : Draft.addDelay { draft with slot := smallNumber? t <|> draft.slot } ms t = .ok after) :
      Taken draft t (.steps after)
  | step {kind : StepKind} {after : Draft} (noDelay : readDelay t = .ok none)
      (word : stepWord? t.chars = some kind) (added : draft.addStep kind t = .ok after) :
      Taken draft t (.steps after)
  | keyword {next : Reading} (noDelay : readDelay t = .ok none)
      (noStep : stepWord? t.chars = none) (found : keyword? t.chars = some next)
      (first : draft.backwards = []) : Taken draft t next

theorem take_steps_iff (draft : Draft) (t : Text.Token) (after : Reading) :
    (Reading.steps draft).take t = .ok after ↔ Taken draft t after := by
  simp only [Reading.take, bind_eq_ok_iff]
  constructor
  · rintro ⟨time, reads, done⟩
    cases time with
    | some ms =>
        obtain ⟨later, added, done⟩ := (bind_eq_ok_iff _ _ _).mp done
        cases done
        exact .delay reads added
    | none =>
        cases word : stepWord? t.chars with
        | some kind =>
            simp only [word] at done
            obtain ⟨later, added, done⟩ := (bind_eq_ok_iff _ _ _).mp done
            cases done
            exact .step reads word added
        | none =>
            simp only [word] at done
            split at done
            · rename_i next found
              split at done
              · rename_i first
                cases done
                exact .keyword reads word found (List.isEmpty_iff.mp first)
              · cases done
            · cases done
  · rintro (⟨reads, added⟩ | ⟨noDelay, word, added⟩ | ⟨noDelay, noStep, found, first⟩)
    · exact ⟨_, reads, (bind_eq_ok_iff _ _ _).mpr ⟨_, added, rfl⟩⟩
    · refine ⟨_, noDelay, ?_⟩
      simp only [word]
      exact (bind_eq_ok_iff _ _ _).mpr ⟨_, added, rfl⟩
    · refine ⟨_, noDelay, ?_⟩
      simp only [noStep, found, first, List.isEmpty_nil, ↓reduceIte]
      rfl

/-- What every token keeps is kept by a line. -/
theorem foldlM_keeps {P : Reading → Prop}
    (step : ∀ {r after : Reading} {t : Text.Token}, P r → r.take t = .ok after → P after)
    {tokens : List Text.Token} {r after : Reading} (start : P r)
    (read : tokens.foldlM Reading.take r = .ok after) : P after := by
  induction tokens generalizing r with
  | nil =>
      cases read
      exact start
  | cons t rest ih =>
      rw [List.foldlM_cons, bind_eq_ok_iff] at read
      obtain ⟨next, taken, later⟩ := read
      exact ih (step start taken) later

end Reading

namespace Request

/-- A line is read from its tokens. -/
theorem ofLine_of_tokens {line : String} (tokens : List Text.Token)
    (cut : Text.tokens line.toList = tokens) : ofLine line =
      tokens.foldlM Reading.take Reading.start >>= (·.finish line.toList.length) := by
  rw [← cut]
  rfl

end Request

end RelayTimer
