import RelayTimer.Store.Basic

set_option autoImplicit false

/-!
Calls on a store, one after another.
-/
namespace RelayTimer.StoreCall

variable {σ α β : Type}

/-- A call that fails leaves out what would have come after it. -/
theorem bind_apply (call : StoreCall σ α) (next : α → StoreCall σ β) (s : σ) :
    (call >>= next) s = match call s with
      | (.ok a, after) => next a after
      | (.error e, after) => (.error e, after) := by
  change (match call s with | (a, after) => (ExceptT.bindCont next a) after) = _
  cases call s with
  | mk result after => cases result <;> rfl

theorem get_bind (next : σ → StoreCall σ β) (s : σ) : (get >>= next) s = next s s := rfl

/-- Two calls, of which the first one failed or was followed by the second one. -/
theorem bind_cases {call : StoreCall σ α} {next : α → StoreCall σ β} {s after : σ}
    {answer : Except StoreError β} (done : (call >>= next) s = (answer, after)) :
    (∃ error, call s = (.error error, after) ∧ answer = .error error) ∨
      ∃ a mid, call s = (.ok a, mid) ∧ next a mid = (answer, after) := by
  rw [bind_apply] at done
  cases first : call s with
  | mk result mid =>
      rw [first] at done
      cases result with
      | error error =>
          cases done
          exact .inl ⟨error, rfl, rfl⟩
      | ok a => exact .inr ⟨a, mid, rfl, done⟩

theorem always_cases {step : StateM σ α} {s after : σ} {answer : Except StoreError α}
    (done : always step s = (answer, after)) : ∃ a, answer = .ok a ∧ step s = (a, after) := by
  cases done
  exact ⟨_, rfl, rfl⟩

end RelayTimer.StoreCall
