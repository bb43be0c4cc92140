import RelayTimer.Program.Basic

set_option autoImplicit false

/-!
The steps of a program in the order in which they are due, for as long as one likes.
-/
namespace RelayTimer.Program

/-- The next `n` steps when `rest` is what is left of a program: past a looping step all of it is
left again, and past the last step nothing is. -/
def unrollFrom (steps : List Step) : Nat → List Step → List Step
  | 0, _ => []
  | _ + 1, [] => []
  | n + 1, step :: rest =>
    step :: unrollFrom steps n (if step.kind = .loops then steps else rest)

/-- The first `n` steps that a program comes to, fewer if it ends before. -/
def unrolled (p : Program) (n : Nat) : List Step := unrollFrom p.steps n p.steps

@[simp]
theorem unrollFrom_nil (steps : List Step) (n : Nat) : unrollFrom steps n [] = [] := by
  cases n <;> rfl

/-- Without a looping step a program is played once. -/
theorem unrollFrom_of_no_loop (steps rest : List Step) (n : Nat)
    (straight : ∀ step ∈ rest, step.kind ≠ .loops) : unrollFrom steps n rest = rest.take n := by
  induction n generalizing rest with
  | zero => simp [unrollFrom]
  | succ n ih =>
      cases rest with
      | nil => simp
      | cons step rest =>
          simp only [unrollFrom, straight step (by simp), ↓reduceIte, List.take_succ_cons]
          rw [ih rest fun other member => straight other (by simp [member])]

/-- A program comes back to its looping step again and again. -/
theorem length_unrollFrom_of_loop (steps rest : List Step) (n : Nat)
    (loops : ∃ step ∈ steps, step.kind = .loops) (ahead : ∃ step ∈ rest, step.kind = .loops) :
    (unrollFrom steps n rest).length = n := by
  induction n generalizing rest with
  | zero => simp [unrollFrom]
  | succ n ih =>
      cases rest with
      | nil => simp at ahead
      | cons step rest =>
          simp only [unrollFrom, List.length_cons]
          split
          · rw [ih steps loops]
          · rename_i acts
            rw [ih rest]
            obtain ⟨other, member, kind⟩ := ahead
            rcases List.mem_cons.mp member with rfl | later
            · exact absurd kind acts
            · exact ⟨other, later, kind⟩

end RelayTimer.Program
