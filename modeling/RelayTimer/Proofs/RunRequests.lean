import Mathlib.Algebra.Ring.Nat
import RelayTimer.Proofs.ReadingPrograms
import RelayTimer.Store.Record

set_option autoImplicit false

/-!
The lines that run a stored program: the word for that with the number of a slot behind it, or times
alone, of which the last bare number below ten is taken for the slot.
-/
namespace RelayTimer

open Text (Token)

/-- A number below ten without a unit. Zeros in front of it do not count. -/
structure Bare (word : List Char) (slot : Nat) : Prop where
  nonempty : word ≠ []
  decimal : ∀ c ∈ word, c.isDigit = true
  value : Nat.ofDigitChars 10 word 0 = slot
  small : slot < slotCount

/-- The last bare number below ten among some words. -/
def LastBare (words : List (List Char)) (slot : Nat) : Prop :=
  ∃ before word after, words = before ++ word :: after ∧ Bare word slot ∧
    ∀ later ∈ after, ∀ n, ¬ Bare later n

/-- The word that runs a program, cut short or not, in any mix of cases. -/
def SaysRun (word : List Char) : Prop := word ≠ [] ∧ word.map Char.toLower <+: "run".toList

section bare

theorem smallNumber?_some_iff {t : Token} (nonempty : t.chars ≠ []) (slot : Nat) :
    smallNumber? t = some slot ↔ Bare t.chars slot := by
  have whole := digits_append_suffix t
  unfold smallNumber?
  constructor
  · intro small
    split at small
    · rename_i bare
      simp only [Bool.and_eq_true, List.isEmpty_iff, decide_eq_true_eq] at bare
      rw [bare.1, List.append_nil] at whole
      refine ⟨nonempty, ?_, ?_, ?_⟩
      · rw [← whole]
        exact fun c member => List.all_eq_true.mp List.all_takeWhile c member
      · rw [← whole]
        exact Option.some.inj small
      · rw [← Option.some.inj small]
        exact bare.2
    · cases small
  · rintro ⟨-, decimal, value, small⟩
    obtain ⟨digits, suffix⟩ :=
      of_chars_eq (List.append_nil t.chars).symm decimal (by simp)
    rw [← digits] at value
    have number : t.number = slot := value
    have below : (decide (slot < 10)) = true := decide_eq_true small
    simp [suffix, number, below]

theorem smallNumber?_none_iff {t : Token} (nonempty : t.chars ≠ []) :
    smallNumber? t = none ↔ ∀ n, ¬ Bare t.chars n := by
  simp only [← smallNumber?_some_iff nonempty, Option.eq_none_iff_forall_ne_some, ne_eq]

theorem not_bare_of_digits {t : Token} (undigited : t.digits = []) (n : Nat) : ¬ Bare t.chars n := by
  intro bare
  have whole := (of_chars_eq (List.append_nil t.chars).symm bare.decimal (by simp)).1
  exact bare.nonempty (whole.symm.trans undigited)

theorem lastBare_concat_iff (words : List (List Char)) (word : List Char) (slot : Nat) :
    LastBare (words ++ [word]) slot ↔
      Bare word slot ∨ (∀ n, ¬ Bare word n) ∧ LastBare words slot := by
  constructor
  · rintro ⟨before, found, after, split, bare, others⟩
    obtain rfl | ⟨between, last, rfl⟩ := List.eq_nil_or_concat after
    · left
      obtain ⟨-, same⟩ := List.append_inj' split rfl
      rwa [List.singleton_inj.mp same]
    · right
      rw [List.concat_eq_append, ← List.cons_append, ← List.append_assoc] at split
      obtain ⟨front, same⟩ := List.append_inj' split rfl
      rw [List.singleton_inj.mp same]
      exact ⟨others last (by simp), before, found, between, front, bare,
        fun later member => others later (by simp [member])⟩
  · rintro (bare | ⟨unbare, before, found, after, rfl, bare, others⟩)
    · exact ⟨words, word, [], rfl, bare, nofun⟩
    · refine ⟨before, found, after ++ [word], by simp, bare, ?_⟩
      intro later member
      rcases List.mem_append.mp member with inside | last
      · exact others later inside
      · rwa [List.mem_singleton.mp last]

theorem not_lastBare_nil (slot : Nat) : ¬ LastBare [] slot := by
  rintro ⟨before, word, after, split, -⟩
  simp at split

end bare

/-- The number of a slot is written as it is printed. -/
theorem slotNumber?_some_iff (word : List Char) (slot : Nat) :
    slotNumber? word = some slot ↔ slot < slotCount ∧ word = decimal slot := by
  have reads : ∀ n < slotCount, slotNumber? (decimal n) = some n := by decide
  have writes : ∀ n < slotCount, decimal n = [Char.ofNat (48 + n)] := by decide
  constructor
  · intro read
    unfold slotNumber? at read
    split at read
    · rename_i c
      split at read
      · rename_i digit
        obtain ⟨low, high⟩ : 48 ≤ c.toNat ∧ c.toNat ≤ 57 := by
          simpa [Char.isDigit, UInt32.le_iff_toNat_le] using digit
        have value : c.toNat - 48 = slot := Option.some.inj read
        have small : slot < slotCount := by
          simp only [slotCount]
          omega
        refine ⟨small, ?_⟩
        have code : 48 + slot = c.toNat := by omega
        rw [writes slot small, code, Char.ofNat_toNat]
      · cases read
    · cases read
  · rintro ⟨small, rfl⟩
    exact reads slot small

namespace Draft

variable {d after : Draft} {t : Token}

theorem addDelay_slot {ms : UInt32} (added : d.addDelay ms t = .ok after) : after.slot = d.slot := by
  obtain ⟨backwards, bound, slot, delayOffset⟩ := d
  cases backwards with
  | nil =>
      cases added
      rfl
  | cons newest earlier =>
      simp only [addDelay] at added
      split at added
      · cases added
      · split at added
        · cases added
        · cases added
          rfl

theorem addStep_slot {kind : StepKind} (added : d.addStep kind t = .ok after) :
    after.slot = d.slot := by
  unfold addStep at added
  split at added
  · cases added
  · split at added
    · cases added
    · split at added
      · cases added
      · cases added
        rfl

end Draft

namespace Reading

variable {d : Draft} {t : Token} {tokens : List Token}

/-- What two words begin with begins with the first letter of each. -/
theorem letter_of_prefixes {begun first second : List Char} {a b : Char} (nonempty : begun ≠ [])
    (ofFirst : begun <+: a :: first) (ofSecond : begun <+: b :: second) : a = b := by
  cases begun with
  | nil => exact absurd rfl nonempty
  | cons c rest =>
      exact (List.cons_prefix_cons.mp ofFirst).1.symm.trans (List.cons_prefix_cons.mp ofSecond).1

/-- The first letters of the words that begin a request all differ. -/
theorem keyword?_run_iff (nonempty : t.chars ≠ []) :
    keyword? t.chars = some (.awaitingSlot .run) ↔ SaysRun t.chars := by
  have begins_iff (word : List Char) :
      abbreviates t.chars word = true ↔ t.chars.map Char.toLower <+: word :=
    List.isPrefixOf_iff_prefix
  unfold keyword?
  rw [Option.map_eq_some_iff]
  constructor
  · rintro ⟨entry, found, awaits⟩
    have begins := List.find?_some found
    rw [begins_iff] at begins
    have member := List.mem_of_find?_eq_some found
    simp only [keywords, List.mem_cons, List.not_mem_nil, or_false] at member
    rcases member with rfl | rfl | rfl | rfl | rfl | rfl | rfl
    all_goals first | exact ⟨nonempty, begins⟩ | cases awaits
  · rintro ⟨-, begins⟩
    have other {letter : Char} {rest : List Char} (differs : letter ≠ 'r') :
        abbreviates t.chars (letter :: rest) = false := by
      rw [Bool.eq_false_iff, ne_eq, begins_iff]
      exact fun begun => differs (letter_of_prefixes (by simpa using nonempty) begun begins)
    have here : abbreviates t.chars ['r', 'u', 'n'] = true := (begins_iff _).mpr begins
    refine ⟨("run", .awaitingSlot .run), ?_, rfl⟩
    simp [keywords, other, here]

/-- The word that runs a program is taken at the beginning of a line. -/
theorem take_run_iff (nonempty : t.chars ≠ []) {r : Reading} :
    r.take t = .ok (.awaitingSlot .run) ↔
      ∃ d, r = .steps d ∧ d.backwards = [] ∧ SaysRun t.chars := by
  constructor
  · intro taken
    cases r with
    | complete request => cases taken
    | awaitingSlot verb =>
        simp only [Reading.take] at taken
        split at taken <;> cases taken
    | steps d =>
        cases (take_steps_iff ..).mp taken with
        | keyword _ _ found first =>
            exact ⟨d, rfl, first, (keyword?_run_iff nonempty).mp found⟩
  · rintro ⟨d, rfl, first, -, begins⟩
    have noDelay := readDelay_none_iff.mpr (digits_of_abbreviates rfl nonempty begins).1
    refine (take_steps_iff ..).mpr
      (.keyword noDelay ?_ ((keyword?_run_iff nonempty).mpr ⟨nonempty, begins⟩) first)
    rw [Option.eq_none_iff_forall_ne_some]
    intro kind word
    have spelled := (stepWord?_some_iff nonempty kind).mp ⟨noDelay, word⟩
    have lowered : t.chars.map Char.toLower ≠ [] := by simpa using nonempty
    generalize t.chars = chars at spelled begins lowered
    cases spelled with
    | opens _ opened => exact absurd (letter_of_prefixes lowered opened begins) (by decide)
    | closes _ closed => exact absurd (letter_of_prefixes lowered closed begins) (by decide)
    | loops => exact absurd begins (by decide)

/-- Words that the beginning of a program has been read of leave the last bare number behind. -/
theorem slot_of_reads (nonempty : ∀ t ∈ tokens, t.chars ≠ [])
    (read : tokens.foldlM Reading.take .start = .ok (.steps d)) (slot : Nat) :
    d.slot = some slot ↔ LastBare (tokens.map Token.chars) slot := by
  induction tokens using List.reverseRecOn generalizing d with
  | nil =>
      cases read
      exact ⟨nofun, fun last => absurd last (not_lastBare_nil slot)⟩
  | append_singleton tokens t ih =>
      obtain ⟨mid, earlier, taken⟩ := (foldlM_concat_iff ..).mp read
      obtain ⟨before, rfl⟩ := steps_of_take taken
      have here := nonempty t (by simp)
      have known := ih (fun other member => nonempty other (List.mem_append_left _ member)) earlier
      rw [List.map_append, List.map_singleton, lastBare_concat_iff, ← known,
        ← smallNumber?_some_iff here, ← smallNumber?_none_iff here]
      have slots : d.slot = (smallNumber? t <|> before.slot) := by
        cases (take_steps_iff ..).mp taken with
        | delay _ added => exact Draft.addDelay_slot added
        | step noDelay _ added =>
            have large : smallNumber? t = none := (smallNumber?_none_iff here).mpr
              (not_bare_of_digits (readDelay_none_iff.mp noDelay))
            rw [large, Draft.addStep_slot added]
            rfl
        | keyword _ _ found _ => exact absurd rfl (keyword?_ne_steps found d)
      rw [slots]
      cases smallNumber? t <;> simp

/-- A line awaits the number of a program to run if its only word is the word for that. -/
theorem reads_run_word_iff (nonempty : ∀ t ∈ tokens, t.chars ≠ []) :
    tokens.foldlM Reading.take .start = .ok (.awaitingSlot .run) ↔
      ∃ t, tokens = [t] ∧ SaysRun t.chars := by
  constructor
  · intro read
    obtain rfl | ⟨before, t, rfl⟩ := List.eq_nil_or_concat tokens
    · cases read
    · rw [List.concat_eq_append] at read nonempty ⊢
      obtain ⟨mid, earlier, taken⟩ := (foldlM_concat_iff ..).mp read
      obtain ⟨d, rfl, first, begins⟩ := (take_run_iff (nonempty t (by simp))).mp taken
      obtain ⟨items, spelled, -, shows⟩ := spelled_of_reads
        (fun other member => nonempty other (List.mem_append_left _ member)) earlier
      obtain rfl := shows.isEmpty_iff.mp (by rw [first]; rfl)
      cases spelled
      exact ⟨t, rfl, begins⟩
  · rintro ⟨t, rfl, begins⟩
    exact (foldlM_concat_iff [] t ..).mpr
      ⟨.start, rfl, (take_run_iff begins.1).mpr ⟨.empty, rfl, rfl, begins⟩⟩

/-- The number of a program to run is taken where it is awaited. -/
theorem take_run_slot_iff {r : Reading} (slot : Nat) :
    r.take t = .ok (.complete (.onSlot .run slot)) ↔
      r = .awaitingSlot .run ∧ slotNumber? t.chars = some slot := by
  constructor
  · intro taken
    cases r with
    | complete request => cases taken
    | awaitingSlot verb =>
        simp only [Reading.take] at taken
        split at taken
        · rename_i found
          cases taken
          exact ⟨rfl, found⟩
        · cases taken
    | steps d =>
        cases (take_steps_iff ..).mp taken with
        | keyword _ _ found _ =>
            unfold keyword? at found
            obtain ⟨entry, first, completes⟩ := Option.map_eq_some_iff.mp found
            have member := List.mem_of_find?_eq_some first
            simp only [keywords, List.mem_cons, List.not_mem_nil, or_false] at member
            rcases member with rfl | rfl | rfl | rfl | rfl | rfl | rfl <;> cases completes
  · rintro ⟨rfl, found⟩
    simp only [Reading.take, found]

/-- A line is read as a request to run a program if it is the word for that and a number. -/
theorem reads_run_slot_iff (nonempty : ∀ t ∈ tokens, t.chars ≠ []) (slot : Nat) :
    tokens.foldlM Reading.take .start = .ok (.complete (.onSlot .run slot)) ↔
      ∃ word, tokens.map Token.chars = [word, decimal slot] ∧ slot < slotCount ∧ SaysRun word := by
  constructor
  · intro read
    obtain rfl | ⟨before, t, rfl⟩ := List.eq_nil_or_concat tokens
    · cases read
    · rw [List.concat_eq_append] at read nonempty ⊢
      obtain ⟨mid, earlier, taken⟩ := (foldlM_concat_iff ..).mp read
      obtain ⟨rfl, found⟩ := (take_run_slot_iff slot).mp taken
      obtain ⟨first, rfl, begins⟩ := (reads_run_word_iff
        (fun other member => nonempty other (List.mem_append_left _ member))).mp earlier
      obtain ⟨small, digit⟩ := (slotNumber?_some_iff ..).mp found
      exact ⟨first.chars, by simp [digit], small, begins⟩
  · rintro ⟨word, split, small, begins⟩
    obtain ⟨first, rest, rfl, rfl, others⟩ := List.map_eq_cons_iff.mp split
    obtain ⟨second, rest, rfl, digit, nothing⟩ := List.map_eq_cons_iff.mp others
    obtain rfl := List.map_eq_nil_iff.mp nothing
    have awaits := (reads_run_word_iff (by simpa using nonempty first)).mpr ⟨first, rfl, begins⟩
    exact (foldlM_concat_iff [first] second ..).mpr
      ⟨_, awaits, (take_run_slot_iff slot).mpr ⟨rfl, (slotNumber?_some_iff ..).mpr ⟨small, digit⟩⟩⟩

/-- The end of a line makes a request to run a program of times alone, with a bare number. -/
theorem finish_run_iff {items : List Item} (shows : d.Shows items)
    (noWait : .action .waits ∉ items) (length slot : Nat) :
    (Reading.steps d).finish length = .ok (.onSlot .run slot) ↔
      items ≠ [] ∧ (¬ ∃ kind, .action kind ∈ items) ∧ d.slot = some slot := by
  simp only [Reading.finish]
  by_cases empty : items = []
  · simp [shows.isEmpty_iff.mpr empty, empty]
  · have typed : ¬ d.backwards.isEmpty = true := fun blank => empty (shows.isEmpty_iff.mp blank)
    rw [← shows.isDelayAlone_iff empty noWait, if_neg typed, Bool.not_eq_false]
    cases d.isDelayAlone with
    | false => simp
    | true =>
        cases d.slot with
        | none => simp
        | some found => simp [empty]

end Reading

namespace Item

/-- Where there is no action there are times alone. -/
theorem exists_times_iff {items : List Item} :
    (∃ times : List Nat, items = times.map .time) ↔ ¬ ∃ kind, .action kind ∈ items := by
  constructor
  · rintro ⟨times, rfl⟩ ⟨kind, acts⟩
    simp at acts
  · intro idle
    induction items with
    | nil => exact ⟨[], rfl⟩
    | cons item rest ih =>
        obtain ⟨times, rfl⟩ := ih fun ⟨kind, acts⟩ => idle ⟨kind, List.mem_cons_of_mem _ acts⟩
        cases item with
        | action kind => exact absurd ⟨kind, List.mem_cons_self⟩ idle
        | time ms => exact ⟨ms :: times, rfl⟩

theorem leadingMs_times (times : List Nat) : leadingMs (times.map .time) = times.sum := by
  induction times with
  | nil => rfl
  | cons ms rest ih => simp only [List.map_cons, leadingMs, ih, List.sum_cons]

theorem timedActions_times (times : List Nat) : timedActions (times.map .time) = [] := by
  induction times with
  | nil => rfl
  | cons ms rest ih => exact ih

/-- Times alone can be typed if their sum can be counted. -/
theorem begins_times_iff {times : List Nat} :
    Begins (times.map .time) ↔ times.sum < UInt32.size := by
  cases times with
  | nil => exact ⟨fun _ => by decide, fun _ => .nil⟩
  | cons ms rest =>
      have single : timedSteps ((ms :: rest).map .time) = [(.waits, (ms :: rest).sum)] := by
        simp only [List.map_cons, timedSteps, timedActions_times, leadingMs_times, List.sum_cons]
      constructor
      · intro begun
        exact begun.counted (.waits, (ms :: rest).sum) (by rw [single]; exact List.mem_singleton_self _)
      · intro counted
        refine ⟨by simp, ?_, ?_, ?_⟩
        · intro inside
          have := List.dropLast_subset _ inside
          simp at this
        · rw [single]
          exact (by decide : 1 ≤ maxSteps)
        · intro step member
          rw [single, List.mem_singleton] at member
          rw [member]
          exact counted

end Item

namespace Request

/-- A line runs a stored program exactly if it is the word for that with the number of a slot behind
it, or times alone, which together are no longer than can be counted, with a bare number below ten
among them; the last one is the slot. -/
theorem reads_run_iff (line : String) (slot : Nat) :
    ofLine line = .ok (.onSlot .run slot) ↔
      (∃ word, Text.words line.toList = [word, decimal slot] ∧ slot < slotCount ∧ SaysRun word) ∨
      ∃ times : List Nat,
        List.Forall₂ Spells (Text.words line.toList) (times.map .time) ∧
        times.sum < UInt32.size ∧ LastBare (Text.words line.toList) slot := by
  have nonempty : ∀ t ∈ Text.tokens line.toList, t.chars ≠ [] :=
    fun t member => Text.ne_nil_of_mem_tokensFrom member
  have words : Text.words line.toList = (Text.tokens line.toList).map Token.chars :=
    (Text.chars_tokensFrom 0 _).symm
  rw [words, ← Reading.reads_run_slot_iff nonempty slot]
  unfold ofLine ofChars
  rw [bind_eq_ok_iff]
  constructor
  · rintro ⟨reading, read, finished⟩
    cases reading with
    | awaitingSlot verb => cases finished
    | complete request =>
        cases finished
        exact .inl read
    | steps d =>
        obtain ⟨items, spelled, begun, shows⟩ := Reading.spelled_of_reads nonempty read
        obtain ⟨-, idle, last⟩ := (Reading.finish_run_iff shows
          (Reading.not_waits_of_spelled spelled) _ slot).mp finished
        obtain ⟨times, rfl⟩ := Item.exists_times_iff.mpr idle
        exact .inr ⟨times, List.forall₂_map_left_iff.mpr spelled, Item.begins_times_iff.mp begun,
          (Reading.slot_of_reads nonempty read slot).mp last⟩
  · rintro (read | ⟨times, spelled, counted, last⟩)
    · exact ⟨_, read, rfl⟩
    · have spelled : Reading.Spelled (Text.tokens line.toList) (times.map .time) :=
        List.forall₂_map_left_iff.mp spelled
      obtain ⟨d, read, shows⟩ :=
        Reading.reads_of_spelled nonempty spelled (Item.begins_times_iff.mpr counted)
      refine ⟨.steps d, read, (Reading.finish_run_iff shows
        (Reading.not_waits_of_spelled spelled) _ slot).mpr ⟨?_, ?_, ?_⟩⟩
      · intro empty
        rw [empty] at spelled
        generalize Text.tokens line.toList = tokens at spelled last
        cases spelled
        exact not_lastBare_nil slot last
      · exact Item.exists_times_iff.mp ⟨times, rfl⟩
      · exact (Reading.slot_of_reads nonempty read slot).mpr last

/-- Two times run a program if one of them is a bare number, and so does a number of several
digits. -/
theorem runs_of_times :
    ofLine "1 500m" = .ok (.onSlot .run 1) ∧ ofLine "005" = .ok (.onSlot .run 5) := by
  have several : Text.tokens "1 500m".toList = [⟨0, "1".toList⟩, ⟨2, "500m".toList⟩] := by
    decide +kernel
  have padded : Text.tokens "005".toList = [⟨0, "005".toList⟩] := by decide +kernel
  exact ⟨ofLine_of_tokens _ several, ofLine_of_tokens _ padded⟩

end Request

end RelayTimer
