import Mathlib.Data.List.Forall2
import RelayTimer.Program.Basic

set_option autoImplicit false

/-!
The language of programs, said without a reader: how words spell actions and times, which rows of
words are a program, and what its steps are, with times added up as numbers of any size.
-/
namespace RelayTimer

/-- What a word of a program says: what to do, or how long to wait. -/
inductive Item
  | action (kind : StepKind)
  | time (ms : Nat)
  deriving Repr, DecidableEq

/-- The units of times and how many milliseconds they stand for. Without a unit a time is in
seconds. -/
def timeUnits : List (List Char × Nat) :=
  [(['H'], msPerHour), (['M'], msPerMinute), (['s'], msPerSecond), (['m'], 1), ([], msPerSecond)]

/-- How words are spelled. An action may be cut short and be in any mix of cases. -/
inductive Spells : List Char → Item → Prop
  | time {digits suffix : List Char} {scale : Nat} (nonempty : digits ≠ [])
      (decimal : ∀ c ∈ digits, c.isDigit = true) (unit : (suffix, scale) ∈ timeUnits) :
      Spells (digits ++ suffix) (.time (Nat.ofDigitChars 10 digits 0 * scale))
  | opens {word : List Char} (nonempty : word ≠ [])
      (begins : word.map Char.toLower <+: "open".toList) : Spells word (.action .opens)
  | closes {word : List Char} (nonempty : word ≠ [])
      (begins : word.map Char.toLower <+: "close".toList) : Spells word (.action .closes)
  | loops : Spells ['*'] (.action .loops)

namespace Item

/-- The sum of the times ahead of the first action. -/
def leadingMs : List Item → Nat
  | .time ms :: rest => ms + leadingMs rest
  | _ => 0

/-- The actions, each with the sum of the times that follow it. -/
def timedActions : List Item → List (StepKind × Nat)
  | [] => []
  | .time _ :: rest => timedActions rest
  | .action kind :: rest => (kind, leadingMs rest) :: timedActions rest

/-- The steps, each with the sum of its times: times that come first are a step that waits. -/
def timedSteps : List Item → List (StepKind × Nat)
  | .time ms :: rest => (.waits, ms + leadingMs rest) :: timedActions rest
  | items => timedActions items

/-- A step that another one follows: where it is given no time it takes a second. -/
def ended (step : StepKind × Nat) : Step :=
  ⟨step.1, .ofNat (if step.2 = 0 then 1000 else step.2)⟩

/-- The steps as they are played. -/
def played : List (StepKind × Nat) → List Step
  | [] => []
  | [(kind, ms)] => [⟨kind, .ofNat ms⟩]
  | step :: next :: rest => ended step :: played (next :: rest)

/-- Items that a program can begin with: a loop is neither the first step nor has anything behind
it, there is room for all steps, and none of them takes longer than can be counted. -/
structure Begins (items : List Item) : Prop where
  notFirst : items.head? ≠ some (.action .loops)
  nothingBehind : .action .loops ∉ items.dropLast
  sized : (timedSteps items).length ≤ maxSteps
  counted : ∀ step ∈ timedSteps items, step.2 < UInt32.size

/-- Items that are a program: there is something to do. -/
structure Sentence (items : List Item) : Prop extends Begins items where
  acts : ∃ kind, .action kind ∈ items

section concat

theorem leadingMs_concat_action (items : List Item) (kind : StepKind) :
    leadingMs (items ++ [.action kind]) = leadingMs items := by
  induction items with
  | nil => rfl
  | cons item rest ih =>
      cases item with
      | action first => rfl
      | time ms => simp only [List.cons_append, leadingMs, ih]

theorem timedActions_concat_action (items : List Item) (kind : StepKind) :
    timedActions (items ++ [.action kind]) = timedActions items ++ [(kind, 0)] := by
  induction items with
  | nil => rfl
  | cons item rest ih =>
      cases item with
      | action first =>
          simp only [List.cons_append, timedActions, ih, leadingMs_concat_action]
      | time ms => exact ih

/-- Another action is another step without a time. -/
theorem timedSteps_concat_action (items : List Item) (kind : StepKind) :
    timedSteps (items ++ [.action kind]) = timedSteps items ++ [(kind, 0)] := by
  cases items with
  | nil => rfl
  | cons item rest =>
      cases item with
      | action first => exact timedActions_concat_action (.action first :: rest) kind
      | time ms =>
          simp only [List.cons_append, timedSteps, timedActions_concat_action,
            leadingMs_concat_action]

/-- Another time goes to the last action, and where there is none it is ahead of the first one. -/
theorem timedActions_concat_time (items : List Item) (ms : Nat) :
    (timedActions items = [] ∧ timedActions (items ++ [.time ms]) = [] ∧
      leadingMs (items ++ [.time ms]) = leadingMs items + ms) ∨
    ∃ front kind total, timedActions items = front ++ [(kind, total)] ∧
      timedActions (items ++ [.time ms]) = front ++ [(kind, total + ms)] ∧
      leadingMs (items ++ [.time ms]) = leadingMs items := by
  induction items with
  | nil => exact .inl ⟨rfl, rfl, Nat.add_comm ms 0⟩
  | cons item rest ih =>
      cases item with
      | time first =>
          simp only [List.cons_append, timedActions, leadingMs]
          rcases ih with ⟨untaken, still, sum⟩ | ⟨front, kind, total, last, more, sum⟩
          · exact .inl ⟨untaken, still, by rw [sum, Nat.add_assoc]⟩
          · exact .inr ⟨front, kind, total, last, more, by rw [sum]⟩
      | action first =>
          right
          simp only [List.cons_append, timedActions, leadingMs]
          rcases ih with ⟨untaken, still, sum⟩ | ⟨front, kind, total, last, more, sum⟩
          · exact ⟨[], first, leadingMs rest, by rw [untaken]; rfl, by rw [still, sum]; rfl, trivial⟩
          · refine ⟨(first, leadingMs rest) :: front, kind, total, ?_, ?_, trivial⟩
            · rw [last, List.cons_append]
            · rw [more, sum, List.cons_append]

/-- Another time goes to the last step. -/
theorem timedSteps_concat_time {items : List Item} (nonempty : items ≠ []) (ms : Nat) :
    ∃ front kind total, timedSteps items = front ++ [(kind, total)] ∧
      timedSteps (items ++ [.time ms]) = front ++ [(kind, total + ms)] := by
  cases items with
  | nil => exact absurd rfl nonempty
  | cons item rest =>
      cases item with
      | action first =>
          rcases timedActions_concat_time (.action first :: rest) ms with
            ⟨untaken, -⟩ | ⟨front, kind, total, last, more, -⟩
          · cases untaken
          · exact ⟨front, kind, total, last, more⟩
      | time first =>
          simp only [List.cons_append, timedSteps]
          rcases timedActions_concat_time rest ms with
            ⟨untaken, still, sum⟩ | ⟨front, kind, total, last, more, sum⟩
          · refine ⟨[], .waits, first + leadingMs rest, by rw [untaken]; rfl, ?_⟩
            rw [still, sum, Nat.add_assoc]
            rfl
          · refine ⟨(.waits, first + leadingMs rest) :: front, kind, total, ?_, ?_⟩
            · rw [last, List.cons_append]
            · rw [more, sum, List.cons_append]

theorem exists_timedSteps {items : List Item} (nonempty : items ≠ []) :
    ∃ front kind total, timedSteps items = front ++ [(kind, total)] := by
  obtain ⟨front, kind, total, last, -⟩ := timedSteps_concat_time nonempty 0
  exact ⟨front, kind, total, last⟩

/-- The newest step is as typed, and the steps before it are as they are played. -/
theorem played_concat (front : List (StepKind × Nat)) (kind : StepKind) (ms : Nat) :
    played (front ++ [(kind, ms)]) = front.map ended ++ [⟨kind, .ofNat ms⟩] := by
  induction front with
  | nil => rfl
  | cons step rest ih =>
      cases rest with
      | nil => rfl
      | cons next later =>
          simp only [List.cons_append, played, List.map_cons] at ih ⊢
          rw [ih]

theorem length_played (steps : List (StepKind × Nat)) : (played steps).length = steps.length := by
  obtain rfl | ⟨front, ⟨kind, ms⟩, rfl⟩ := List.eq_nil_or_concat steps
  · rfl
  · simp only [List.concat_eq_append, played_concat, List.length_append, List.length_map,
      List.length_singleton]

end concat

section loops

theorem mem_timedActions (items : List Item) (kind : StepKind) :
    (∃ ms, (kind, ms) ∈ timedActions items) ↔ .action kind ∈ items := by
  induction items with
  | nil => simp [timedActions]
  | cons item rest ih =>
      cases item with
      | time ms => simpa [timedActions] using ih
      | action first =>
          simp only [timedActions, List.mem_cons, exists_or, ih, Prod.mk.injEq, exists_and_left,
            exists_eq, and_true, Item.action.injEq]

/-- Only an action makes a step that does something. -/
theorem mem_timedSteps {items : List Item} {kind : StepKind} (acts : kind ≠ .waits) :
    (∃ ms, (kind, ms) ∈ timedSteps items) ↔ .action kind ∈ items := by
  cases items with
  | nil => exact mem_timedActions [] kind
  | cons item rest =>
      cases item with
      | action first => exact mem_timedActions (.action first :: rest) kind
      | time ms => simpa [timedSteps, acts] using mem_timedActions rest kind

namespace Begins

variable {items : List Item} {kind : StepKind} {total ms : Nat}
  {earlier : List (StepKind × Nat)}

theorem nil : Begins [] := by
  refine ⟨?_, ?_, Nat.zero_le _, ?_⟩ <;> simp [timedSteps, timedActions]

theorem of_concat {item : Item} (begun : Begins (items ++ [item])) : Begins items := by
  obtain ⟨notFirst, nothingBehind, sized, counted⟩ := begun
  rw [List.dropLast_concat] at nothingBehind
  by_cases nonempty : items = []
  · subst nonempty
    exact nil
  · rw [List.head?_append_of_ne_nil _ nonempty] at notFirst
    have shorter : (timedSteps items).length ≤ maxSteps ∧
        ∀ step ∈ timedSteps items, step.2 < UInt32.size := by
      cases item with
      | action kind =>
          rw [timedSteps_concat_action] at sized counted
          rw [List.length_append, List.length_singleton] at sized
          exact ⟨by omega, fun step member => counted step (List.mem_append_left _ member)⟩
      | time ms =>
          obtain ⟨front, kind, total, last, more⟩ := timedSteps_concat_time nonempty ms
          rw [more] at sized counted
          rw [last]
          refine ⟨by simpa using sized, ?_⟩
          intro step member
          rcases List.mem_append.mp member with before | newest
          · exact counted step (List.mem_append_left _ before)
          · have longer := counted (kind, total + ms) (by simp)
            rw [List.mem_singleton.mp newest]
            exact Nat.lt_of_le_of_lt (Nat.le_add_right total ms) longer
    exact ⟨notFirst, fun inside => nothingBehind (List.dropLast_subset _ inside), shorter.1,
      shorter.2⟩

/-- The last step loops if there is a loop at all. -/
theorem looped_iff (begun : Begins items) (last : timedSteps items = earlier ++ [(kind, total)]) :
    kind = .loops ↔ .action .loops ∈ items := by
  constructor
  · rintro rfl
    exact (mem_timedSteps (by decide)).mp ⟨total, by simp [last]⟩
  · intro looped
    obtain rfl | ⟨front, item, rfl⟩ := List.eq_nil_or_concat items
    · cases looped
    · rw [List.concat_eq_append] at looped last begun
      have ahead := begun.nothingBehind
      rw [List.dropLast_concat] at ahead
      rcases List.mem_append.mp looped with inside | here
      · exact absurd inside ahead
      · rw [← List.mem_singleton.mp here, timedSteps_concat_action] at last
        have same := List.append_inj_right' last rfl
        cases same
        rfl

theorem concat_action_iff (begun : Begins items) (kind : StepKind) :
    Begins (items ++ [.action kind]) ↔
      .action .loops ∉ items ∧ (kind = .loops → items ≠ []) ∧
        (timedSteps items).length < maxSteps := by
  constructor
  · rintro ⟨notFirst, nothingBehind, sized, -⟩
    rw [List.dropLast_concat] at nothingBehind
    rw [timedSteps_concat_action, List.length_append, List.length_singleton] at sized
    refine ⟨nothingBehind, ?_, sized⟩
    rintro rfl rfl
    exact notFirst rfl
  · rintro ⟨unlooped, notFirst, room⟩
    refine ⟨?_, by rwa [List.dropLast_concat], ?_, ?_⟩
    · cases items with
      | nil =>
          intro first
          cases first
          exact notFirst rfl rfl
      | cons item rest => exact begun.notFirst
    · rw [timedSteps_concat_action, List.length_append, List.length_singleton]
      exact room
    · rw [timedSteps_concat_action]
      intro step member
      rcases List.mem_append.mp member with before | new
      · exact begun.counted step before
      · rw [List.mem_singleton.mp new]
        exact (by decide : 0 < UInt32.size)

theorem concat_time_iff (begun : Begins items) (nonempty : items ≠ [])
    (last : timedSteps items = earlier ++ [(kind, total)])
    (more : timedSteps (items ++ [.time ms]) = earlier ++ [(kind, total + ms)]) :
    Begins (items ++ [.time ms]) ↔ .action .loops ∉ items ∧ total + ms < UInt32.size := by
  constructor
  · rintro ⟨-, nothingBehind, -, counted⟩
    rw [List.dropLast_concat] at nothingBehind
    exact ⟨nothingBehind, counted (kind, total + ms) (by simp [more])⟩
  · rintro ⟨unlooped, small⟩
    have sized := begun.sized
    have counted := begun.counted
    rw [last] at sized counted
    refine ⟨?_, by rwa [List.dropLast_concat], ?_, ?_⟩
    · rw [List.head?_append_of_ne_nil _ nonempty]
      exact begun.notFirst
    · rw [more]
      simpa using sized
    · rw [more]
      intro step member
      rcases List.mem_append.mp member with before | new
      · exact counted step (List.mem_append_left _ before)
      · rw [List.mem_singleton.mp new]
        exact small

theorem single_time_iff : Begins [.time ms] ↔ ms < UInt32.size := by
  constructor
  · intro begun
    exact begun.counted (.waits, ms + 0) (by simp [timedSteps, timedActions, leadingMs])
  · intro small
    refine ⟨by simp, by simp, (by decide : 1 ≤ maxSteps), ?_⟩
    intro step member
    rw [List.mem_singleton.mp member]
    exact small

end Begins

end loops

/-- Without an action all there is is a wait. -/
theorem acts_iff {items : List Item} (nonempty : items ≠ [])
    (noWait : .action .waits ∉ items) :
    (∃ kind, .action kind ∈ items) ↔ ∀ total, timedSteps items ≠ [(.waits, total)] := by
  constructor
  · rintro ⟨kind, acts⟩ total alone
    have kind_ne : kind ≠ .waits := by
      rintro rfl
      exact noWait acts
    obtain ⟨ms, there⟩ := (mem_timedSteps kind_ne).mpr acts
    rw [alone, List.mem_singleton, Prod.mk.injEq] at there
    exact kind_ne there.1
  · intro more
    cases items with
    | nil => exact absurd rfl nonempty
    | cons item rest =>
        cases item with
        | action kind => exact ⟨kind, List.mem_cons_self⟩
        | time ms =>
            cases later : timedActions rest with
            | nil =>
                refine absurd ?_ (more (ms + leadingMs rest))
                rw [timedSteps, later]
            | cons step others =>
                have acts := (mem_timedActions rest step.1).mp ⟨step.2, by simp [later]⟩
                exact ⟨step.1, List.mem_cons_of_mem _ acts⟩

end Item

end RelayTimer
