import RelayTimer.Program.Printer
import RelayTimer.Proofs.CanonicalProgram
import RelayTimer.Proofs.TokenWords

set_option autoImplicit false

/-!
What is printed of a program that can be typed reads as that program again.
-/
namespace RelayTimer

open Text (Token IsWord isSeparator)

section delay

theorem isSeparator_of_isDigit {c : Char} (digit : c.isDigit = true) : isSeparator c = false := by
  cases separates : isSeparator c with
  | false => rfl
  | true =>
      simp only [isSeparator, Bool.or_eq_true, beq_iff_eq] at separates
      rcases separates with rfl | rfl <;> simp at digit

/-- A time is printed as a number of some unit. -/
theorem delayText_eq (delay : UInt32) :
    ∃ n unit scale, delayText delay = decimal n ++ [unit] ∧ unitMs? [unit] = some scale ∧
      n * scale = delay.toNat ∧ n ≤ delay.toNat ∧ unit.isDigit = false ∧
      isSeparator unit = false := by
  have exact (scale : Nat) (divides : delay.toNat % scale = 0) :
      delay.toNat / scale * scale = delay.toNat := by
    have := Nat.div_add_mod delay.toNat scale
    rw [divides, Nat.mul_comm] at this
    exact this
  unfold delayText
  dsimp only
  split
  · rename_i zero
    exact ⟨0, 's', msPerSecond, rfl, rfl, by omega, by omega, rfl, rfl⟩
  · split
    · rename_i hours
      exact ⟨_, 'H', msPerHour, rfl, rfl, exact _ hours, Nat.div_le_self _ _, rfl, rfl⟩
    · split
      · rename_i minutes
        exact ⟨_, 'M', msPerMinute, rfl, rfl, exact _ minutes, Nat.div_le_self _ _, rfl, rfl⟩
      · split
        · rename_i seconds
          exact ⟨_, 's', msPerSecond, rfl, rfl, exact _ seconds, Nat.div_le_self _ _, rfl, rfl⟩
        · exact ⟨_, 'm', 1, rfl, rfl, Nat.mul_one _, Nat.le_refl _, rfl, rfl⟩

theorem isDigit_of_mem_decimal {n : Nat} {c : Char} (member : c ∈ decimal n) : c.isDigit = true :=
  Nat.isDigit_of_mem_toDigits (by decide) (by decide) member

theorem ofDigitChars_decimal (n : Nat) : Nat.ofDigitChars 10 (decimal n) 0 = n :=
  Nat.ofDigitChars_toDigits (by decide) (by decide)

theorem isWord_delayText (delay : UInt32) : IsWord (delayText delay) := by
  obtain ⟨n, unit, -, printed, -, -, -, -, unbroken⟩ := delayText_eq delay
  rw [printed]
  refine ⟨by simp, ?_⟩
  intro c member
  rcases List.mem_append.mp member with digit | last
  · exact isSeparator_of_isDigit (isDigit_of_mem_decimal digit)
  · rw [List.mem_singleton.mp last]
    exact unbroken

/-- A printed time is read as it was. -/
theorem readDelay_delayText (offset : Nat) (delay : UInt32) :
    readDelay ⟨offset, delayText delay⟩ = .ok (some delay) := by
  obtain ⟨n, unit, scale, printed, known, value, bound, noDigit, -⟩ := delayText_eq delay
  have digits : Token.digits ⟨offset, delayText delay⟩ = decimal n := by
    simp only [Token.digits, printed]
    rw [List.takeWhile_append_of_pos fun c => isDigit_of_mem_decimal,
      List.takeWhile_cons_of_neg (by simp [noDigit]), List.append_nil]
  have suffix : Token.suffix ⟨offset, delayText delay⟩ = [unit] := by
    simp only [Token.suffix, printed]
    rw [List.dropWhile_append_of_pos fun c => isDigit_of_mem_decimal,
      List.dropWhile_cons_of_neg (by simp [noDigit])]
  have number : Token.number ⟨offset, delayText delay⟩ = n := by
    rw [Token.number, digits]
    exact ofDigitChars_decimal n
  have nonempty : (decimal n).isEmpty = false := by
    rw [List.isEmpty_eq_false_iff]
    exact Nat.toDigits_ne_nil
  have small := delay.toNat_lt
  unfold readDelay
  have fits : ¬ n ≥ UInt32.size := by
    simp only [UInt32.size]
    omega
  simp only [digits, suffix, number, known, nonempty, Bool.false_eq_true, ↓reduceIte, fits, value,
    UInt32.toNat_lt_size, UInt32.ofNat_toNat]

end delay

section words

/-- The words of the time after an action: none for no time. -/
def trailingDelayWords (delay : UInt32) : List (List Char) :=
  if delay = 0 then [] else [delayText delay]

/-- The words that a step is printed as. -/
def Step.words (s : Step) : List (List Char) :=
  match s.kind with
  | .opens => ['o'] :: trailingDelayWords s.delayMs
  | .closes => ['c'] :: trailingDelayWords s.delayMs
  | .waits => [delayText s.delayMs]
  | .loops => [['*']]

theorem Step.words_ne_nil (s : Step) : s.words ≠ [] := by
  unfold Step.words
  split <;> simp

theorem Step.chars_eq (s : Step) : s.chars = [' '].intercalate s.words := by
  have action (letter : Char) (delay : UInt32) : letter :: trailingDelayText delay =
      [' '].intercalate ([letter] :: trailingDelayWords delay) := by
    unfold trailingDelayText trailingDelayWords
    split
    · rfl
    · simp
  obtain ⟨kind, delay⟩ := s
  cases kind with
  | opens => exact action 'o' delay
  | closes => exact action 'c' delay
  | waits => exact List.intercalate_singleton.symm
  | loops => rfl

theorem Step.isWord_of_mem_words {s : Step} {word : List Char} (member : word ∈ s.words) :
    IsWord word := by
  have letter (c : Char) (unbroken : isSeparator c = false) : IsWord [c] :=
    ⟨by simp, by simpa using unbroken⟩
  have trailing (delay : UInt32) (member : word ∈ trailingDelayWords delay) : IsWord word := by
    unfold trailingDelayWords at member
    split at member
    · cases member
    · rw [List.mem_singleton.mp member]
      exact isWord_delayText delay
  unfold Step.words at member
  split at member
  · rcases List.mem_cons.mp member with rfl | time
    · exact letter _ rfl
    · exact trailing _ time
  · rcases List.mem_cons.mp member with rfl | time
    · exact letter _ rfl
    · exact trailing _ time
  · rw [List.mem_singleton.mp member]
    exact isWord_delayText _
  · rw [List.mem_singleton.mp member]
    exact letter _ rfl

/-- A program is printed as the words of its steps. -/
theorem Program.chars_eq (p : Program) : p.chars = [' '].intercalate (p.steps.flatMap Step.words) := by
  have steps : p.steps.map Step.chars = p.steps.map fun s => [' '].intercalate s.words :=
    List.map_congr_left fun s _ => s.chars_eq
  rw [Program.chars, steps, Text.intercalate_groups _ _ Step.words_ne_nil]

/-- The tokens of a printed program are the words of its steps. -/
theorem Program.tokens_chars (p : Program) :
    (Text.tokens p.chars).map Token.chars = p.steps.flatMap Step.words := by
  rw [Text.tokens, Text.chars_tokensFrom, p.chars_eq, Text.words_intercalate]
  intro word member
  obtain ⟨step, -, inside⟩ := List.mem_flatMap.mp member
  exact Step.isWord_of_mem_words inside

end words

section reading

open Draft (Ended Newest)

variable {d : Draft} {earlier : List Step}

/-- Steps that have been ended are left as they are when another one follows. -/
theorem settle_of_ended (ended : Ended earlier) :
    Draft.settle earlier.reverse = earlier.reverse := by
  obtain rfl | ⟨others, newest, rfl⟩ := List.eq_nil_or_concat earlier
  · rfl
  · rw [List.concat_eq_append, Draft.ended_concat_iff] at ended
    have timed : newest.delayMs ≠ 0 := UInt32.pos_iff_ne_zero.mp ended.2.1
    simp [Draft.settle, timed]

theorem isLooped_of_ended (typed : d.backwards = earlier.reverse) (ended : Ended earlier) :
    d.isLooped = false := by
  unfold Draft.isLooped
  rw [typed]
  obtain rfl | ⟨others, newest, rfl⟩ := List.eq_nil_or_concat earlier
  · rfl
  · rw [List.concat_eq_append, Draft.ended_concat_iff] at ended
    simp [ended.2.2.1]

theorem addStep_of_ended (typed : d.backwards = earlier.reverse) (ended : Ended earlier)
    (room : earlier.length < maxSteps) {kind : StepKind} (behind : kind = .loops → earlier ≠ [])
    (t : Token) :
    ∃ after, d.addStep kind t = .ok after ∧ after.backwards = ⟨kind, 0⟩ :: earlier.reverse := by
  have notFull : ¬ d.backwards.length = maxSteps := by
    rw [typed, List.length_reverse]
    omega
  have notFirst : (d.backwards.isEmpty && decide (kind = .loops)) = false := by
    by_cases loops : kind = .loops
    · simp [typed, behind loops]
    · simp [loops]
  unfold Draft.addStep
  simp only [notFull, ↓reduceDIte, isLooped_of_ended typed ended, Bool.false_eq_true, ↓reduceIte,
    notFirst]
  exact ⟨_, rfl, by simp only [typed, settle_of_ended ended]⟩

section newest

variable {newest : Step} {others : List Step} {delay total : UInt32}

/-- A time is added to the newest step where the sum can be counted. -/
theorem addDelay_of_sum (typed : d.backwards = newest :: others) (noLoop : newest.kind ≠ .loops)
    (sum : Draft.sum? newest.delayMs delay = some total) (t : Token) :
    ∃ after, d.addDelay delay t = .ok after ∧
      after.backwards = ⟨newest.kind, total⟩ :: others := by
  obtain ⟨backwards, bound, slot, delayOffset⟩ := d
  simp only at typed
  subst typed
  simp only [Draft.addDelay, noLoop, ↓reduceIte, sum]
  exact ⟨_, rfl, rfl⟩

theorem addDelay_refused (typed : d.backwards = newest :: others)
    (refused : newest.kind = .loops ∨ Draft.sum? newest.delayMs delay = none) (t : Token) :
    ∃ e, d.addDelay delay t = .error e := by
  obtain ⟨backwards, bound, slot, delayOffset⟩ := d
  simp only at typed
  subst typed
  by_cases loops : newest.kind = .loops
  · simp only [Draft.addDelay, loops, ↓reduceIte]
    exact ⟨_, rfl⟩
  · simp only [Draft.addDelay, loops, refused.resolve_left loops, ↓reduceIte]
    exact ⟨_, rfl⟩

end newest

/-- The first time after an action is the time of that action. -/
theorem addDelay_of_untimed {kind : StepKind} {others : List Step}
    (typed : d.backwards = ⟨kind, 0⟩ :: others) (noLoop : kind ≠ .loops) (delay : UInt32)
    (t : Token) :
    ∃ after, d.addDelay delay t = .ok after ∧ after.backwards = ⟨kind, delay⟩ :: others := by
  have sum : Draft.sum? 0 delay = some delay := by
    simp [Draft.sum?, delay.toNat_lt_size]
  exact addDelay_of_sum typed noLoop sum t

theorem addDelay_of_empty (typed : d.backwards = []) (delay : UInt32) (t : Token) :
    ∃ after, d.addDelay delay t = .ok after ∧ after.backwards = [⟨.waits, delay⟩] := by
  obtain ⟨backwards, bound, slot, delayOffset⟩ := d
  simp only at typed
  subst typed
  exact ⟨_, rfl, rfl⟩

theorem foldlM_take_cons {r next : Reading} {t : Token} (rest : List Token)
    (taken : r.take t = .ok next) :
    (t :: rest).foldlM Reading.take r = rest.foldlM Reading.take next := by
  rw [List.foldlM_cons, taken]
  rfl

/-- A printed action is read with its time, if it has one. -/
theorem reads_action (typed : d.backwards = earlier.reverse) (ended : Ended earlier)
    (room : earlier.length < maxSteps) {kind : StepKind} {c : Char}
    (word : stepWord? [c] = some kind) (acts : kind ≠ .loops) (noDigit : c.isDigit = false)
    (delay : UInt32) {tokens : List Token}
    (printed : tokens.map Token.chars = [c] :: trailingDelayWords delay) :
    ∃ after, tokens.foldlM Reading.take (.steps d) = .ok (.steps after) ∧
      after.backwards = ⟨kind, delay⟩ :: earlier.reverse := by
  obtain ⟨⟨offset, chars⟩, times, rfl, rfl, timed⟩ := List.map_eq_cons_iff.mp printed
  have noDelay : readDelay ⟨offset, [c]⟩ = .ok none := by
    simp [readDelay, Token.digits, noDigit]
  obtain ⟨acted, added, grown⟩ := addStep_of_ended typed ended room (fun loops => absurd loops acts)
    ⟨offset, [c]⟩
  rw [foldlM_take_cons _ ((Reading.take_steps_iff ..).mpr (.step noDelay word added))]
  unfold trailingDelayWords at timed
  split at timed
  · rename_i zero
    rw [List.map_eq_nil_iff.mp timed, zero]
    exact ⟨acted, rfl, grown⟩
  · obtain ⟨⟨place, chars⟩, rfl, rfl⟩ := List.map_eq_singleton_iff.mp timed
    have reads := readDelay_delayText place delay
    obtain ⟨after, waited, timed⟩ := addDelay_of_untimed
      (d := { acted with slot := smallNumber? ⟨place, delayText delay⟩ <|> acted.slot }) grown acts
      delay ⟨place, delayText delay⟩
    rw [foldlM_take_cons _ ((Reading.take_steps_iff ..).mpr (.delay reads waited))]
    exact ⟨after, rfl, timed⟩

/-- A printed step is read behind those that have been ended. -/
theorem reads_step (typed : d.backwards = earlier.reverse) (ended : Ended earlier)
    (room : earlier.length < maxSteps) {step : Step} (last : Newest earlier step)
    {tokens : List Token} (printed : tokens.map Token.chars = step.words) :
    ∃ after, tokens.foldlM Reading.take (.steps d) = .ok (.steps after) ∧
      after.backwards = (earlier ++ [step]).reverse := by
  rw [List.reverse_append, List.reverse_singleton, List.singleton_append]
  obtain ⟨kind, delay⟩ := step
  cases kind with
  | opens => exact reads_action typed ended room (c := 'o') rfl nofun rfl delay printed
  | closes => exact reads_action typed ended room (c := 'c') rfl nofun rfl delay printed
  | waits =>
      have first := last.waits rfl
      subst first
      obtain ⟨⟨offset, chars⟩, rfl, rfl⟩ := List.map_eq_singleton_iff.mp printed
      have reads := readDelay_delayText offset delay
      obtain ⟨after, waited, grown⟩ := addDelay_of_empty
        (d := { d with slot := smallNumber? ⟨offset, delayText delay⟩ <|> d.slot }) typed
        delay ⟨offset, delayText delay⟩
      rw [foldlM_take_cons _ ((Reading.take_steps_iff ..).mpr (.delay reads waited))]
      exact ⟨after, rfl, grown⟩
  | loops =>
      obtain ⟨others, noDelay⟩ := last.loops rfl
      obtain ⟨⟨offset, chars⟩, rfl, rfl⟩ := List.map_eq_singleton_iff.mp printed
      have noTime : readDelay ⟨offset, ['*']⟩ = .ok none := rfl
      obtain ⟨after, added, grown⟩ := addStep_of_ended typed ended room (fun _ => others)
        ⟨offset, ['*']⟩
      rw [foldlM_take_cons _ ((Reading.take_steps_iff ..).mpr (.step noTime rfl added))]
      refine ⟨after, rfl, ?_⟩
      simp only at noDelay
      rw [grown, noDelay]

/-- The printed steps of a program are read one after another. -/
theorem reads_steps {rest : List Step} {newest : Step} (typed : d.backwards = earlier.reverse)
    (ended : Ended (earlier ++ rest)) (last : Newest (earlier ++ rest) newest)
    (room : (earlier ++ rest).length < maxSteps) {tokens : List Token}
    (printed : tokens.map Token.chars = (rest ++ [newest]).flatMap Step.words) :
    ∃ after, tokens.foldlM Reading.take (.steps d) = .ok (.steps after) ∧
      after.backwards = (earlier ++ rest ++ [newest]).reverse := by
  induction rest generalizing earlier d tokens with
  | nil =>
      rw [List.append_nil] at ended last room ⊢
      exact reads_step typed ended room last (by simpa using printed)
  | cons step rest ih =>
      have moved : earlier ++ step :: rest = earlier ++ [step] ++ rest := by simp
      rw [moved] at ended last room ⊢
      have begun : Ended (earlier ++ [step]) := by
        intro i other here
        refine ended i other ?_
        rw [List.getElem?_append_left (List.getElem?_eq_some_iff.mp here).1, here]
      obtain ⟨before, -, noLoop, first⟩ := (Draft.ended_concat_iff _ _).mp begun
      simp only [List.cons_append, List.flatMap_cons] at printed
      obtain ⟨now, later, rfl, here, there⟩ := List.map_eq_append_iff.mp printed
      have fits : earlier.length < maxSteps := by
        simp only [List.length_append, List.length_singleton] at room
        omega
      obtain ⟨mid, read, grown⟩ := reads_step typed before fits ⟨first, fun loops => absurd loops noLoop⟩
        here
      obtain ⟨after, readLater, grownLater⟩ := ih grown ended last room there
      refine ⟨after, ?_, grownLater⟩
      rw [List.foldlM_append, read]
      exact readLater

end reading

/-- What is printed of a program that can be typed reads as its steps. -/
theorem Program.Canonical.reads_back {p : Program} (canonical : p.Canonical) :
    ∃ q, Request.ofChars p.chars = .ok (.program q) ∧ q.steps = p.steps := by
  obtain ⟨earlier, newest, split, ended, last, notAlone⟩ := canonical.steps
  have room : earlier.length < maxSteps := by
    have := p.length_le
    rw [split, List.length_append, List.length_singleton] at this
    omega
  have printed := p.tokens_chars
  rw [split] at printed
  have blank : Draft.empty.backwards = ([] : List Step).reverse := rfl
  obtain ⟨draft, read, typed⟩ := reads_steps blank ended last room printed
  rw [List.nil_append, ← split] at typed
  have notEmpty : draft.backwards.isEmpty = false := by simp [typed, split]
  have notDelay : draft.isDelayAlone = false := by
    unfold Draft.isDelayAlone
    split
    · rename_i only alone
      have single : p.steps = [only] := by simpa using congrArg List.reverse (typed.symm.trans alone)
      have notAlone := canonical.notDelayAlone
      rw [single] at notAlone
      simpa using notAlone
    · rfl
  refine ⟨draft.program, (bind_eq_ok_iff _ _ _).mpr ⟨_, read, ?_⟩, ?_⟩
  · simp only [Reading.finish, notEmpty, Bool.false_eq_true, ↓reduceIte, notDelay, Bool.not_false]
  · simp [Draft.program, typed]

/-- The form of a program is that of its steps alone. -/
theorem Program.Canonical.congr {p q : Program} (canonical : p.Canonical)
    (same : q.steps = p.steps) : q.Canonical := by
  obtain ⟨sized, notDelayAlone, waitsFirst, loopsLast, delayed⟩ := canonical
  rw [← same] at sized notDelayAlone waitsFirst loopsLast delayed
  exact ⟨sized, notDelayAlone, waitsFirst, loopsLast, delayed⟩

/-- A program reads back from what is printed of it if it has the form that a line can give it, and
every program that a line reads as has this form. -/
theorem Program.reads_back_iff_canonical (p : Program) :
    ((∃ q, Request.ofLine p.text = .ok (.program q) ∧ (q == p) = true) ↔ p.Canonical) ∧
      (p.Canonical ↔ ∃ line q, Request.ofLine line = .ok (.program q) ∧ (q == p) = true) := by
  have typed (line : String) (q : Program) (read : Request.ofLine line = .ok (.program q))
      (same : (q == p) = true) : p.Canonical :=
    (Request.canonical_of_ofChars read).congr ((Program.beq_iff q p).mp same).symm
  have printed (canonical : p.Canonical) :
      ∃ q, Request.ofLine p.text = .ok (.program q) ∧ (q == p) = true := by
    obtain ⟨q, read, same⟩ := canonical.reads_back
    refine ⟨q, ?_, (Program.beq_iff q p).mpr same⟩
    rw [Request.ofLine, Program.text, String.toList_ofList]
    exact read
  refine ⟨⟨?_, printed⟩, ⟨fun canonical => ⟨p.text, printed canonical⟩, ?_⟩⟩
  · rintro ⟨q, read, same⟩
    exact typed p.text q read same
  · rintro ⟨line, q, read, same⟩
    exact typed line q read same

/-- A step without a time before another one is printed, and reads back with a time of its own. -/
example : ¬ Program.Canonical { steps := [⟨.opens, 0⟩, ⟨.closes, 0⟩] } := by decide

end RelayTimer
