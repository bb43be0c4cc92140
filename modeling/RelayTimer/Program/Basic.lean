set_option autoImplicit false

/-!
Programs: at most twelve steps for the relay contact, each with the time to wait after it, and the
place that playback has reached.
-/
namespace RelayTimer

/-- What a step does to the contact. A waiting step leaves it alone; a looping step sends playback
back to the first step. -/
inductive StepKind
  | opens
  | closes
  | waits
  | loops
  deriving Repr, DecidableEq

structure Step where
  kind : StepKind
  delayMs : UInt32
  deriving Repr, DecidableEq

def msPerHour : Nat := 3600000

def msPerMinute : Nat := 60000

def msPerSecond : Nat := 1000

def maxSteps : Nat := 12

/-- A list of steps with the index of the step that plays next. -/
structure Program where
  steps : List Step
  cursor : Nat := 0
  length_le : steps.length ≤ maxSteps := by decide

namespace Program

def empty : Program := { steps := [] }

instance : Inhabited Program := ⟨empty⟩

/-- Two programs are the same when their steps are, wherever playback stands. -/
instance : BEq Program := ⟨fun p q => p.steps == q.steps⟩

def ofSteps? (steps : List Step) : Option Program :=
  if h : steps.length ≤ maxSteps then some { steps, length_le := h } else none

/-- What plays when nothing valid can be loaded: open for a minute, closed for five seconds,
forever. -/
def failSafe : Program :=
  { steps := [⟨.opens, 60000⟩, ⟨.closes, 5000⟩, ⟨.loops, 0⟩] }

def isEmpty (p : Program) : Bool := p.steps.isEmpty

def isFull (p : Program) : Bool := p.steps.length == maxSteps

def last? (p : Program) : Option Step := p.steps.getLast?

def isLooped (p : Program) : Bool := p.last?.any (·.kind = .loops)

def rewind (p : Program) : Program := { p with cursor := 0 }

/-- The step that plays next, and the program after it. Past the last step there is none: going
back to the first step is left to whoever meets a looping step. -/
def next? (p : Program) : Option (Step × Program) :=
  p.steps[p.cursor]?.map fun step => (step, { p with cursor := p.cursor + 1 })

theorem beq_iff (p q : Program) : (p == q) = true ↔ p.steps = q.steps := by
  show (p.steps == q.steps) = true ↔ _
  exact beq_iff_eq

@[simp]
theorem steps_rewind (p : Program) : p.rewind.steps = p.steps := rfl

@[simp]
theorem cursor_rewind (p : Program) : p.rewind.cursor = 0 := rfl

theorem ofSteps?_eq_some_iff (steps : List Step) (p : Program) :
    ofSteps? steps = some p ↔ p.steps = steps ∧ p.cursor = 0 := by
  obtain ⟨own, cursor, bound⟩ := p
  unfold ofSteps?
  split
  · simp only [Option.some.injEq, Program.mk.injEq]
    exact ⟨fun h => ⟨h.1.symm, h.2.symm⟩, fun h => ⟨h.1.symm, h.2.symm⟩⟩
  · rename_i tooMany
    simp only [reduceCtorEq, false_iff, not_and]
    rintro rfl
    exact absurd bound tooMany

end Program

end RelayTimer
