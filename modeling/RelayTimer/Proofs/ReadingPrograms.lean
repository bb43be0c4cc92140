import Mathlib.Data.List.Induction
import RelayTimer.Proofs.PrintedProgram
import RelayTimer.Proofs.SpelledWords

set_option autoImplicit false

/-!
A line reads as a program exactly if its words are one, and it reads as the steps that they spell:
each token that is taken is one more word of the grammar, or the line is none.
-/
namespace RelayTimer

open Text (Token)

namespace Draft

open Item (timedSteps played Begins)

variable {d : Draft} {items : List Item}

/-- What has been typed are the steps that the items stand for. -/
def Shows (d : Draft) (items : List Item) : Prop :=
  d.backwards = (played (timedSteps items)).reverse

theorem Shows.length (shows : d.Shows items) : d.backwards.length = (timedSteps items).length := by
  rw [shows, List.length_reverse, Item.length_played]

/-- The newest step has its time so far, and the steps before it have been ended. -/
theorem Shows.newest (shows : d.Shows items) {front : List (StepKind × Nat)} {kind : StepKind}
    {total : Nat} (last : timedSteps items = front ++ [(kind, total)]) :
    d.backwards = ⟨kind, .ofNat total⟩ :: (front.map Item.ended).reverse := by
  rw [shows, last, Item.played_concat, List.reverse_append, List.reverse_singleton,
    List.singleton_append]

/-- A step is settled when it is ended. -/
theorem Shows.settle (shows : d.Shows items) (begun : Begins items) :
    Draft.settle d.backwards = ((timedSteps items).map Item.ended).reverse := by
  by_cases nonempty : items = []
  · subst nonempty
    have blank : d.backwards = [] := shows
    rw [blank]
    rfl
  · obtain ⟨front, kind, total, last⟩ := Item.exists_timedSteps nonempty
    have counted : total < UInt32.size := begun.counted (kind, total) (by simp [last])
    have zero_iff : UInt32.ofNat total = 0 ↔ total = 0 := by
      rw [← UInt32.toNat_inj, UInt32.toNat_ofNat_of_lt' counted, UInt32.toNat_zero]
    rw [shows.newest last, last, List.map_append, List.reverse_append]
    simp only [Draft.settle, zero_iff, List.map_cons, List.map_nil, List.reverse_singleton,
      List.singleton_append, List.cons.injEq, and_true, Item.ended]
    split
    · rfl
    · rfl

theorem Shows.isEmpty_iff (shows : d.Shows items) : d.backwards.isEmpty = true ↔ items = [] := by
  rw [List.isEmpty_iff_length_eq_zero, shows.length]
  constructor
  · intro blank
    by_cases nonempty : items = []
    · exact nonempty
    · obtain ⟨front, kind, total, last⟩ := Item.exists_timedSteps nonempty
      simp [last] at blank
  · rintro rfl
    rfl

theorem Shows.isLooped_iff (shows : d.Shows items) (begun : Begins items) :
    d.isLooped = true ↔ .action .loops ∈ items := by
  unfold isLooped
  by_cases nonempty : items = []
  · subst nonempty
    have blank : d.backwards = [] := shows
    simp [blank]
  · obtain ⟨front, kind, total, last⟩ := Item.exists_timedSteps nonempty
    rw [← begun.looped_iff last, shows.newest last]
    simp

/-- A time is added if the items can still be the beginning of a program then. -/
theorem Shows.addDelay (shows : d.Shows items) (begun : Begins items) (ms : UInt32) (t : Token) :
    (Begins (items ++ [.time ms.toNat]) ∧
      ∃ after, d.addDelay ms t = .ok after ∧ after.Shows (items ++ [.time ms.toNat])) ∨
    (¬ Begins (items ++ [.time ms.toNat]) ∧ ∃ e, d.addDelay ms t = .error e) := by
  by_cases nonempty : items = []
  · subst nonempty
    left
    have blank : d.backwards = [] := shows
    obtain ⟨after, added, waits⟩ := addDelay_of_empty blank ms t
    refine ⟨Begins.single_time_iff.mpr ms.toNat_lt_size, after, added, ?_⟩
    rw [Shows, waits]
    simp [timedSteps, Item.timedActions, Item.leadingMs, played]
  · obtain ⟨front, kind, total, last, more⟩ := Item.timedSteps_concat_time nonempty ms.toNat
    have typed := shows.newest last
    have counted : total < UInt32.size := begun.counted (kind, total) (by simp [last])
    have value : (UInt32.ofNat total).toNat = total := UInt32.toNat_ofNat_of_lt' counted
    rw [begun.concat_time_iff nonempty last more, ← begun.looped_iff last]
    by_cases fine : kind ≠ .loops ∧ total + ms.toNat < UInt32.size
    · left
      have sum : sum? (.ofNat total) ms = some (.ofNat (total + ms.toNat)) := by
        unfold sum?
        rw [value, if_pos fine.2, UInt32.ofNat_add, UInt32.ofNat_toNat]
      obtain ⟨after, added, grown⟩ := addDelay_of_sum typed fine.1 sum t
      refine ⟨fine, after, added, ?_⟩
      rw [Shows, grown, more, Item.played_concat, List.reverse_append]
      rfl
    · right
      refine ⟨fine, addDelay_refused typed ?_ t⟩
      by_cases looped : kind = .loops
      · exact .inl looped
      · right
        unfold sum?
        rw [value, if_neg fun small => fine ⟨looped, small⟩]

/-- An action is added if the items can still be the beginning of a program then. -/
theorem Shows.addStep (shows : d.Shows items) (begun : Begins items) (kind : StepKind) (t : Token) :
    (Begins (items ++ [.action kind]) ∧
      ∃ after, d.addStep kind t = .ok after ∧ after.Shows (items ++ [.action kind])) ∨
    (¬ Begins (items ++ [.action kind]) ∧ ∃ e, d.addStep kind t = .error e) := by
  rw [begun.concat_action_iff kind, ← shows.length]
  have bound := d.length_le
  have empty_iff := shows.isEmpty_iff
  have looped_iff := shows.isLooped_iff begun
  unfold Draft.addStep
  by_cases full : d.backwards.length = maxSteps
  · right
    rw [dif_pos full]
    exact ⟨fun fine => by omega, _, rfl⟩
  · rw [dif_neg full]
    by_cases looped : d.isLooped = true
    · right
      rw [if_pos looped]
      exact ⟨fun fine => fine.1 (looped_iff.mp looped), _, rfl⟩
    · rw [if_neg looped]
      by_cases first : d.backwards.isEmpty = true ∧ kind = .loops
      · right
        rw [if_pos (by simpa using first)]
        exact ⟨fun fine => fine.2.1 first.2 (empty_iff.mp first.1), _, rfl⟩
      · left
        rw [if_neg (by simpa using first)]
        refine ⟨⟨fun inside => looped (looped_iff.mpr inside), ?_, by omega⟩, _, rfl, ?_⟩
        · intro loops blank
          exact first ⟨empty_iff.mpr blank, loops⟩
        · simp only [Shows, Item.timedSteps_concat_action, Item.played_concat, shows.settle begun,
            List.reverse_append, List.reverse_singleton, List.singleton_append]
          rfl

/-- A draft is more than a delay if there is something to do. -/
theorem Shows.isDelayAlone_iff (shows : d.Shows items) (nonempty : items ≠ [])
    (noWait : .action .waits ∉ items) :
    d.isDelayAlone = false ↔ ∃ kind, .action kind ∈ items := by
  rw [Item.acts_iff nonempty noWait]
  obtain ⟨front, kind, total, last⟩ := Item.exists_timedSteps nonempty
  have typed := shows.newest last
  unfold isDelayAlone
  rw [typed, last]
  cases front with
  | nil =>
      simp only [List.map_nil, List.reverse_nil, List.nil_append, ne_eq, List.cons.injEq,
        Prod.mk.injEq, and_true, not_and, decide_eq_false_iff_not]
      exact ⟨fun acts _ waits => absurd waits acts, fun none waits => none total waits rfl⟩
  | cons first others =>
      have many : ((first :: others).map Item.ended).reverse ≠ [] := by simp
      cases earlier : ((first :: others).map Item.ended).reverse with
      | nil => exact absurd earlier many
      | cons step rest => simp

end Draft

namespace Reading

open Item (timedSteps played Begins Sentence)

variable {d : Draft} {items : List Item} {t : Token}

/-- A word of the grammar is taken where it goes on with a beginning of a program. -/
theorem take_of_spells (shows : d.Shows items) (nonempty : t.chars ≠ []) {item : Item}
    (spelled : Spells t.chars item) (begun : Begins (items ++ [item])) :
    ∃ after, (Reading.steps d).take t = .ok (.steps after) ∧ after.Shows (items ++ [item]) := by
  cases item with
  | action kind =>
      obtain ⟨noDelay, word⟩ := (stepWord?_some_iff nonempty kind).mpr spelled
      rcases shows.addStep begun.of_concat kind t with ⟨-, after, added, later⟩ | ⟨stuck, -⟩
      · exact ⟨after, (take_steps_iff ..).mpr (.step noDelay word added), later⟩
      · exact absurd begun stuck
  | time ms =>
      have small : ms < UInt32.size := by
        by_cases first : items = []
        · subst first
          exact Begins.single_time_iff.mp begun
        · obtain ⟨front, kind, total, last, more⟩ := Item.timedSteps_concat_time first ms
          have counted := begun.counted (kind, total + ms) (by simp [more])
          exact Nat.lt_of_le_of_lt (Nat.le_add_left ms total) counted
      have value : (UInt32.ofNat ms).toNat = ms := UInt32.toNat_ofNat_of_lt' small
      rw [← value] at spelled begun
      have reads := (readDelay_some_iff (.ofNat ms)).mpr spelled
      have same : Draft.Shows { d with slot := smallNumber? t <|> d.slot } items := shows
      rcases same.addDelay begun.of_concat (.ofNat ms) t with ⟨-, after, added, later⟩ | ⟨stuck, -⟩
      · rw [value] at later
        exact ⟨after, (take_steps_iff ..).mpr (.delay reads added), later⟩
      · exact absurd begun stuck

theorem keyword?_ne_steps {token : List Char} {next : Reading} (found : keyword? token = some next)
    (draft : Draft) : next ≠ .steps draft := by
  unfold keyword? at found
  obtain ⟨entry, first, rfl⟩ := Option.map_eq_some_iff.mp found
  have member := List.mem_of_find?_eq_some first
  simp only [keywords, List.mem_cons, List.not_mem_nil, or_false] at member
  rcases member with rfl | rfl | rfl | rfl | rfl | rfl | rfl <;> simp

/-- What is taken of a program is a word of the grammar. -/
theorem spells_of_take (shows : d.Shows items) (begun : Begins items) (nonempty : t.chars ≠ [])
    {after : Draft} (taken : (Reading.steps d).take t = .ok (.steps after)) :
    ∃ item, Spells t.chars item ∧ Begins (items ++ [item]) ∧ after.Shows (items ++ [item]) := by
  cases (take_steps_iff ..).mp taken with
  | @delay ms _ reads added =>
      have same : Draft.Shows { d with slot := smallNumber? t <|> d.slot } items := shows
      rcases same.addDelay begun ms t with ⟨more, now, done, later⟩ | ⟨-, e, failed⟩
      · rw [done] at added
        cases added
        exact ⟨.time ms.toNat, (readDelay_some_iff ms).mp reads, more, later⟩
      · rw [failed] at added
        cases added
  | @step kind _ noDelay word added =>
      rcases shows.addStep begun kind t with ⟨more, now, done, later⟩ | ⟨-, e, failed⟩
      · rw [done] at added
        cases added
        exact ⟨.action kind, (stepWord?_some_iff nonempty kind).mp ⟨noDelay, word⟩, more, later⟩
      · rw [failed] at added
        cases added
  | keyword _ _ found _ => exact absurd rfl (keyword?_ne_steps found after)

/-- Only a program that has been begun goes on as a program. -/
theorem steps_of_take {r : Reading} {after : Draft} (taken : r.take t = .ok (.steps after)) :
    ∃ d, r = .steps d := by
  cases r with
  | steps d => exact ⟨d, rfl⟩
  | complete request => cases taken
  | awaitingSlot verb =>
      simp only [Reading.take] at taken
      split at taken
      · cases taken
      · cases taken

/-- How the tokens of a line are spelled. -/
def Spelled (tokens : List Token) (items : List Item) : Prop :=
  List.Forall₂ (fun t item => Spells t.chars item) tokens items

theorem spelled_concat_iff {tokens : List Token} {all : List Item} :
    Spelled (tokens ++ [t]) all ↔
      ∃ items item, all = items ++ [item] ∧ Spelled tokens items ∧ Spells t.chars item := by
  unfold Spelled
  rw [← List.reverse_reverse all, List.forall₂_reverse_iff.symm, List.reverse_append,
    List.reverse_singleton, List.singleton_append, List.reverse_reverse,
    List.forall₂_cons_left_iff]
  constructor
  · rintro ⟨item, others, here, before, split⟩
    refine ⟨others.reverse, item, ?_, ?_, here⟩
    · rw [split, List.reverse_cons]
    · rwa [← List.forall₂_reverse_iff, List.reverse_reverse]
  · rintro ⟨items, item, split, before, here⟩
    refine ⟨item, items.reverse, here, List.forall₂_reverse_iff.mpr before, ?_⟩
    rw [← List.reverse_reverse all.reverse, split, List.reverse_append, List.reverse_singleton,
      List.singleton_append]

theorem foldlM_concat_iff (tokens : List Token) (t : Token) (r after : Reading) :
    (tokens ++ [t]).foldlM Reading.take r = .ok after ↔
      ∃ mid, tokens.foldlM Reading.take r = .ok mid ∧ mid.take t = .ok after := by
  rw [List.foldlM_append, bind_eq_ok_iff]
  simp only [List.foldlM_cons, List.foldlM_nil, bind_pure]

/-- Words that are the beginning of a program are read. -/
theorem reads_of_spelled {tokens : List Token} (nonempty : ∀ t ∈ tokens, t.chars ≠ [])
    {items : List Item} (spelled : Spelled tokens items) (begun : Begins items) :
    ∃ draft, tokens.foldlM Reading.take .start = .ok (.steps draft) ∧ draft.Shows items := by
  induction tokens using List.reverseRecOn generalizing items with
  | nil =>
      cases spelled
      exact ⟨.empty, rfl, rfl⟩
  | append_singleton tokens t ih =>
      obtain ⟨before, item, rfl, earlier, here⟩ := spelled_concat_iff.mp spelled
      obtain ⟨draft, read, shows⟩ :=
        ih (fun other member => nonempty other (List.mem_append_left _ member)) earlier
          begun.of_concat
      obtain ⟨after, taken, later⟩ := take_of_spells shows (nonempty t (by simp)) here begun
      exact ⟨after, (foldlM_concat_iff ..).mpr ⟨_, read, taken⟩, later⟩

/-- What is read as a program that has been begun are words that are the beginning of one. -/
theorem spelled_of_reads {tokens : List Token} (nonempty : ∀ t ∈ tokens, t.chars ≠ [])
    {draft : Draft} (read : tokens.foldlM Reading.take .start = .ok (.steps draft)) :
    ∃ items, Spelled tokens items ∧ Begins items ∧ draft.Shows items := by
  induction tokens using List.reverseRecOn generalizing draft with
  | nil =>
      cases read
      exact ⟨[], .nil, .nil, rfl⟩
  | append_singleton tokens t ih =>
      obtain ⟨mid, earlier, taken⟩ := (foldlM_concat_iff ..).mp read
      obtain ⟨before, rfl⟩ := steps_of_take taken
      obtain ⟨items, spelled, begun, shows⟩ :=
        ih (fun other member => nonempty other (List.mem_append_left _ member)) earlier
      obtain ⟨item, here, more, later⟩ := spells_of_take shows begun (nonempty t (by simp)) taken
      exact ⟨items ++ [item], spelled_concat_iff.mpr ⟨items, item, rfl, spelled, here⟩, more, later⟩

theorem ne_waits_of_spells {word : List Char} {kind : StepKind}
    (spelled : Spells word (.action kind)) : kind ≠ .waits := by
  generalize action : Item.action kind = item at spelled
  cases spelled <;> cases action <;> decide

theorem not_waits_of_spelled {tokens : List Token} (spelled : Spelled tokens items) :
    .action .waits ∉ items := by
  induction spelled with
  | nil => exact List.not_mem_nil
  | cons here _ ih =>
      intro member
      rcases List.mem_cons.mp member with same | later
      · rw [← same] at here
        exact ne_waits_of_spells here rfl
      · exact ih later

/-- A line that has been read as the beginning of a program is one if there is something to do. -/
theorem finish_steps_iff (shows : d.Shows items) (noWait : .action .waits ∉ items) (length : Nat)
    (p : Program) : (Reading.steps d).finish length = .ok (.program p) ↔
      (∃ kind, .action kind ∈ items) ∧ p.steps = played (timedSteps items) ∧ p.cursor = 0 := by
  have typed : d.backwards.reverse = played (timedSteps items) := by
    rw [shows, List.reverse_reverse]
  have same : d.program = p ↔ p.steps = played (timedSteps items) ∧ p.cursor = 0 := by
    rw [← typed]
    obtain ⟨steps, cursor, bound⟩ := p
    simp only [Draft.program, Program.mk.injEq]
    exact and_congr eq_comm eq_comm
  rw [← same]
  simp only [Reading.finish]
  by_cases empty : items = []
  · subst empty
    have blank : d.backwards.isEmpty = true := shows.isEmpty_iff.mpr rfl
    simp [blank]
  · have typed : ¬ d.backwards.isEmpty = true := fun blank => empty (shows.isEmpty_iff.mp blank)
    rw [← shows.isDelayAlone_iff empty noWait, if_neg typed]
    cases alone : d.isDelayAlone with
    | false =>
        simp only [Bool.not_false, ↓reduceIte, Except.ok.injEq, Request.program.injEq, true_and]
    | true =>
        simp only [Bool.not_true, Bool.false_eq_true, ↓reduceIte, reduceCtorEq, false_and,
          iff_false]
        split <;> simp

end Reading

namespace Request

open Item (timedSteps played Sentence)

/-- A line reads as a program exactly if that is the program its words spell. -/
theorem program_iff_spelled (line : List Char) (p : Program) :
    ofChars line = .ok (.program p) ↔
      ∃ items, List.Forall₂ Spells (Text.words line) items ∧ Sentence items ∧
        p.steps = played (timedSteps items) ∧ p.cursor = 0 := by
  have nonempty : ∀ t ∈ Text.tokens line, t.chars ≠ [] :=
    fun t member => Text.ne_nil_of_mem_tokensFrom member
  have spelled_iff (items : List Item) :
      List.Forall₂ Spells (Text.words line) items ↔ Reading.Spelled (Text.tokens line) items := by
    rw [← Text.chars_tokensFrom 0, List.forall₂_map_left_iff]
    rfl
  simp only [spelled_iff]
  unfold ofChars
  rw [bind_eq_ok_iff]
  constructor
  · rintro ⟨reading, read, finished⟩
    cases reading with
    | awaitingSlot verb => cases finished
    | complete request =>
        cases finished
        have begun : Reading.start.Sound := trivial
        exact False.elim (Reading.foldlM_keeps Reading.Sound.take begun read)
    | steps draft =>
        obtain ⟨items, spelled, begun, shows⟩ := Reading.spelled_of_reads nonempty read
        obtain ⟨acts, program⟩ := (Reading.finish_steps_iff shows
          (Reading.not_waits_of_spelled spelled) _ p).mp finished
        exact ⟨items, spelled, ⟨begun, acts⟩, program⟩
  · rintro ⟨items, spelled, sentence, program⟩
    obtain ⟨draft, read, shows⟩ := Reading.reads_of_spelled nonempty spelled sentence.toBegins
    exact ⟨.steps draft, read, (Reading.finish_steps_iff shows
      (Reading.not_waits_of_spelled spelled) _ p).mpr ⟨sentence.acts, program⟩⟩

/-- A line reads as a program exactly if its words spell one: each is an action or a time, there is
an action, there is room for all steps, a loop is neither the first step nor has anything behind it,
and no sum of times exceeds what can be counted. The program has a step for each action and one for
times that come first, with the sum of the times that belong to it; where that is nothing, a step
takes a second if another one follows. -/
theorem reads_program_iff (line : String) :
    ((∃ p, ofLine line = .ok (.program p)) ↔
      ∃ items, List.Forall₂ Spells (Text.words line.toList) items ∧ Sentence items) ∧
    ∀ p, ofLine line = .ok (.program p) ↔
      ∃ items, List.Forall₂ Spells (Text.words line.toList) items ∧ Sentence items ∧
        p.steps = played (timedSteps items) ∧ p.cursor = 0 := by
  refine ⟨?_, program_iff_spelled line.toList⟩
  constructor
  · rintro ⟨p, read⟩
    obtain ⟨items, spelled, sentence, -⟩ := (program_iff_spelled line.toList p).mp read
    exact ⟨items, spelled, sentence⟩
  · rintro ⟨items, spelled, sentence⟩
    have room : (played (timedSteps items)).length ≤ maxSteps := by
      rw [Item.length_played]
      exact sentence.sized
    exact ⟨{ steps := _, length_le := room },
      (program_iff_spelled line.toList _).mpr ⟨items, spelled, sentence, rfl, rfl⟩⟩

end Request

end RelayTimer
