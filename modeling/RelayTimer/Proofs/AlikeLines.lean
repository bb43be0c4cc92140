import RelayTimer.Proofs.HopelessWord

set_option autoImplicit false

/-!
Neither the gaps between the words of a line nor the case of its letters matter to what the line
says. Only words that begin with a digit are taken as they are, since the units of times are told
apart by case.
-/
namespace RelayTimer

open Text (Token)

section letters

/-- A character is its own small form, or it is a capital letter with a small one. -/
theorem toLower_cases (c : Char) :
    c.toLower = c ∨ c.isUpper = true ∧ c.toLower.isLower = true := by
  by_cases capital : c.val ≥ 'A'.val ∧ c.val ≤ 'Z'.val
  · right
    have small : c.toLower.val = c.val + ('a'.val - 'A'.val) :=
      congrArg Char.val (dif_pos capital)
    unfold Char.isUpper Char.isLower
    simp only [small, Bool.and_eq_true, decide_eq_true_eq, ge_iff_le, UInt32.le_iff_toNat_le,
      UInt32.toNat_add] at capital ⊢
    simp at capital ⊢
    omega
  · left
    exact dif_neg capital

theorem isDigit_toLower (c : Char) : c.toLower.isDigit = c.isDigit := by
  have apart (d : Char) (letter : d.isUpper = true ∨ d.isLower = true) : d.isDigit = false := by
    unfold Char.isUpper Char.isLower at letter
    simp only [Char.isDigit, Bool.and_eq_true, decide_eq_true_eq, ge_iff_le, UInt32.le_iff_toNat_le,
      Bool.and_eq_false_iff, decide_eq_false_iff_not] at letter ⊢
    simp at letter ⊢
    omega
  rcases toLower_cases c with same | ⟨upper, lower⟩
  · rw [same]
  · rw [apart c (.inl upper), apart c.toLower (.inr lower)]

theorem toLower_eq_star_iff (c : Char) : c.toLower = '*' ↔ c = '*' := by
  rcases toLower_cases c with same | ⟨upper, lower⟩
  · rw [same]
  · constructor
    · intro star
      rw [star] at lower
      cases lower
    · rintro rfl
      cases upper

end letters

/-- Words that differ at most in the case of their letters; one that begins with a digit does not
differ at all. -/
structure Text.WordsAlike (word other : List Char) : Prop where
  folded : word.map Char.toLower = other.map Char.toLower
  exact : word.head?.any Char.isDigit = true → word = other

/-- Two tokens with words that are alike, wherever they stand. -/
structure Text.Token.Alike (t u : Token) : Prop extends Text.WordsAlike t.chars u.chars where
  nonempty : t.chars ≠ []

/-- What is wrong, whatever the case of the letters in the text that is quoted. -/
def LineFault.folded : LineFault → LineFault
  | extraArgument token => extraArgument (token.map Char.toLower)
  | notASlot token => notASlot (token.map Char.toLower)
  | numberTooLarge token => numberTooLarge (token.map Char.toLower)
  | unknownUnit suffix => unknownUnit (suffix.map Char.toLower)
  | delayTooLong token => delayTooLong (token.map Char.toLower)
  | unexpected token => unexpected (token.map Char.toLower)
  | slotMissing => slotMissing
  | pastLoop => pastLoop
  | tooManySteps => tooManySteps
  | loopFirst => loopFirst
  | delayAlone => delayAlone

/-- Errors that say the same of two tokens and point to the same place in them. -/
structure LineError.AlikeAt (t u : Token) (e f : LineError) : Prop where
  fault : e.fault.folded = f.fault.folded
  place : ∃ k < t.chars.length, e.offset = t.offset + k ∧ f.offset = u.offset + k

/-- Two attempts that end alike: with values that are so related, or with errors that are. -/
inductive EndAlike {ε α β : Type} (R : α → β → Prop) (E : ε → ε → Prop) :
    Except ε α → Except ε β → Prop
  | ok {a : α} {b : β} (related : R a b) : EndAlike R E (.ok a) (.ok b)
  | error {e f : ε} (related : E e f) : EndAlike R E (.error e) (.error f)

theorem EndAlike.imp {ε α β : Type} {R : α → β → Prop} {E F : ε → ε → Prop}
    {first : Except ε α} {second : Except ε β} (alike : EndAlike R E first second)
    (implies : ∀ e f, E e f → F e f) : EndAlike R F first second := by
  cases alike with
  | ok related => exact .ok related
  | error related => exact .error (implies _ _ related)

theorem EndAlike.bind {ε α β γ δ : Type} {R : α → β → Prop} {S : γ → δ → Prop} {E : ε → ε → Prop}
    {first : Except ε α} {second : Except ε β} (alike : EndAlike R E first second)
    {next : α → Except ε γ} {later : β → Except ε δ}
    (on : ∀ a b, first = .ok a → second = .ok b → R a b → EndAlike S E (next a) (later b)) :
    EndAlike S E (first >>= next) (second >>= later) := by
  cases alike with
  | ok related => exact on _ _ rfl rfl related
  | error related => exact .error related

open LineError (AlikeAt)

section word

variable {t u : Token}

theorem takeWhile_of_no_digit {word : List Char} (noDigit : word.head?.any Char.isDigit = false) :
    word.takeWhile Char.isDigit = [] ∧ word.dropWhile Char.isDigit = word := by
  cases word with
  | nil => exact ⟨rfl, rfl⟩
  | cons c rest =>
      have first : c.isDigit = false := noDigit
      simp [first]

namespace Text.Token.Alike

theorem length (alike : t.Alike u) : t.chars.length = u.chars.length := by
  have same := congrArg List.length alike.folded
  rwa [List.length_map, List.length_map] at same

/-- An error that points to the tokens as a whole. -/
theorem atWord (alike : t.Alike u) {fault other : LineFault}
    (same : fault.folded = other.folded) :
    AlikeAt t u ⟨fault, t.offset⟩ ⟨other, u.offset⟩ :=
  ⟨same, 0, List.length_pos_iff.mpr alike.nonempty, rfl, rfl⟩

/-- The words are the same, or neither begins with a digit. -/
theorem same_or_no_digit (alike : t.Alike u) : t.chars = u.chars ∨
    t.chars.head?.any Char.isDigit = false ∧ u.chars.head?.any Char.isDigit = false := by
  have folds (word : List Char) : (word.map Char.toLower).head?.any Char.isDigit =
      word.head?.any Char.isDigit := by
    cases word with
    | nil => rfl
    | cons c rest => exact isDigit_toLower c
  cases digit : t.chars.head?.any Char.isDigit with
  | true => exact .inl (alike.exact digit)
  | false =>
      right
      refine ⟨rfl, ?_⟩
      rw [← folds, ← alike.folded, folds, digit]

theorem abbreviates_eq (alike : t.Alike u) (word : List Char) :
    abbreviates t.chars word = abbreviates u.chars word := by
  unfold abbreviates
  rw [alike.folded]

theorem eq_star_iff (alike : t.Alike u) : t.chars = ['*'] ↔ u.chars = ['*'] := by
  have folds (word : List Char) : word = ['*'] ↔ word.map Char.toLower = ['*'] := by
    rw [List.map_eq_singleton_iff]
    constructor
    · rintro rfl
      exact ⟨'*', rfl, rfl⟩
    · rintro ⟨c, rfl, star⟩
      rw [(toLower_eq_star_iff c).mp star]
  rw [folds t.chars, folds u.chars, alike.folded]

theorem stepWord?_eq (alike : t.Alike u) : stepWord? t.chars = stepWord? u.chars := by
  unfold stepWord?
  simp only [alike.abbreviates_eq, alike.eq_star_iff]

theorem keyword?_eq (alike : t.Alike u) : keyword? t.chars = keyword? u.chars := by
  unfold keyword?
  simp only [alike.abbreviates_eq]

theorem slotNumber?_eq (alike : t.Alike u) : slotNumber? t.chars = slotNumber? u.chars := by
  have unread (word : List Char) (noDigit : word.head?.any Char.isDigit = false) :
      slotNumber? word = none := by
    match word with
    | [] => rfl
    | [c] => exact if_neg (by simpa using noDigit)
    | _ :: _ :: _ => rfl
  rcases alike.same_or_no_digit with same | ⟨first, second⟩
  · rw [same]
  · rw [unread _ first, unread _ second]

theorem smallNumber?_eq (alike : t.Alike u) : smallNumber? t = smallNumber? u := by
  have unread (t : Token) (nonempty : t.chars ≠ [])
      (noDigit : t.chars.head?.any Char.isDigit = false) : smallNumber? t = none := by
    have rest : t.suffix.isEmpty = false := by
      unfold Token.suffix
      rw [(takeWhile_of_no_digit noDigit).2]
      simpa using nonempty
    unfold smallNumber?
    rw [rest]
    rfl
  rcases alike.same_or_no_digit with same | ⟨first, second⟩
  · unfold smallNumber? Token.suffix Token.number Token.digits
    rw [same]
  · have nonempty : u.chars ≠ [] := by
      rw [← List.length_pos_iff, ← alike.length]
      exact List.length_pos_iff.mpr alike.nonempty
    rw [unread t alike.nonempty first, unread u nonempty second]

/-- The same time is read from both, or none, or the same is wrong with both. -/
theorem readDelay (alike : t.Alike u) :
    EndAlike Eq (AlikeAt t u) (readDelay t) (readDelay u) := by
  rcases alike.same_or_no_digit with same | ⟨first, second⟩
  · obtain ⟨offset, word⟩ := t
    obtain ⟨place, other⟩ := u
    obtain rfl : word = other := same
    unfold RelayTimer.readDelay
    have digits : Token.digits ⟨place, word⟩ = Token.digits ⟨offset, word⟩ := rfl
    have suffix : Token.suffix ⟨place, word⟩ = Token.suffix ⟨offset, word⟩ := rfl
    have number : Token.number ⟨place, word⟩ = Token.number ⟨offset, word⟩ := rfl
    simp only [digits, suffix, number]
    split
    · exact .ok rfl
    · split
      · exact .error (alike.atWord rfl)
      · cases unit : unitMs? (Token.suffix ⟨offset, word⟩) with
        | none =>
            have rest : Token.suffix ⟨offset, word⟩ ≠ [] := by
              intro empty
              rw [empty] at unit
              cases unit
            have inside : (Token.digits ⟨offset, word⟩).length < word.length := by
              have whole := congrArg List.length (digits_append_suffix ⟨offset, word⟩)
              have more := List.length_pos_iff.mpr rest
              rw [List.length_append] at whole
              dsimp only at whole
              omega
            exact .error ⟨rfl, _, inside, rfl, rfl⟩
        | some scale =>
            dsimp only
            split
            · exact .ok rfl
            · exact .error (alike.atWord rfl)
  · have unread (t : Token) (noDigit : t.chars.head?.any Char.isDigit = false) :
        RelayTimer.readDelay t = .ok none :=
      readDelay_none_iff.mpr (takeWhile_of_no_digit noDigit).1
    rw [unread t first, unread u second]
    exact .ok rfl

end Text.Token.Alike

namespace Draft

/-- The same has been typed, wherever the delay stands that it begins with. -/
structure Alike (d e : Draft) : Prop where
  backwards : d.backwards = e.backwards
  slot : d.slot = e.slot

variable {d e : Draft}

theorem Alike.addDelay (same : d.Alike e) (delay : UInt32) (alike : t.Alike u) :
    EndAlike Alike (AlikeAt t u) (d.addDelay delay t) (e.addDelay delay u) := by
  obtain ⟨backwards, bound, slot, place⟩ := d
  obtain ⟨others, boundOther, slotOther, placeOther⟩ := e
  obtain ⟨rfl, rfl⟩ := same
  cases backwards with
  | nil => exact .ok ⟨rfl, rfl⟩
  | cons newest earlier =>
      simp only [Draft.addDelay]
      split
      · exact .error (alike.atWord rfl)
      · split
        · exact .error (alike.atWord (congrArg LineFault.delayTooLong alike.folded))
        · exact .ok ⟨rfl, rfl⟩

theorem Alike.addStep (same : d.Alike e) (kind : StepKind) (alike : t.Alike u) :
    EndAlike Alike (AlikeAt t u) (d.addStep kind t) (e.addStep kind u) := by
  have looped : e.isLooped = d.isLooped := by
    unfold isLooped
    rw [same.backwards]
  unfold Draft.addStep
  simp only [looped, ← same.backwards]
  split
  · exact .error (alike.atWord rfl)
  · split
    · exact .error (alike.atWord rfl)
    · split
      · exact .error (alike.atWord rfl)
      · exact .ok ⟨rfl, same.slot⟩

end Draft

namespace Reading

/-- As much is known of two lines. -/
inductive Alike : Reading → Reading → Prop
  | steps {d e : Draft} (same : d.Alike e) : Alike (.steps d) (.steps e)
  | awaitingSlot (verb : SlotVerb) : Alike (.awaitingSlot verb) (.awaitingSlot verb)
  | complete (request : Request) : Alike (.complete request) (.complete request)

variable {r s : Reading}

theorem alike_of_keyword {token : List Char} {next : Reading} (found : keyword? token = some next) :
    next.Alike next := by
  cases next with
  | steps d => exact .steps ⟨rfl, rfl⟩
  | awaitingSlot verb => exact .awaitingSlot verb
  | complete request => exact .complete request

/-- Tokens that are alike are taken alike. -/
theorem Alike.take (same : r.Alike s) (alike : t.Alike u) :
    EndAlike Alike (AlikeAt t u) (r.take t) (s.take u) := by
  cases same with
  | complete request =>
      exact .error (alike.atWord (congrArg LineFault.extraArgument alike.folded))
  | awaitingSlot verb =>
      simp only [Reading.take, alike.slotNumber?_eq]
      split
      · exact .ok (.complete _)
      · exact .error (alike.atWord (congrArg LineFault.notASlot alike.folded))
  | @steps d e same =>
      have unexpected : EndAlike Alike (AlikeAt t u) (take.unexpected t) (take.unexpected u) :=
        .error (alike.atWord (congrArg LineFault.unexpected alike.folded))
      refine alike.readDelay.bind ?_
      rintro time _ - - rfl
      cases time with
      | some delay =>
          have noted : Draft.Alike { d with slot := smallNumber? t <|> d.slot }
              { e with slot := smallNumber? u <|> e.slot } :=
            ⟨same.backwards, by rw [alike.smallNumber?_eq, same.slot]⟩
          exact (noted.addDelay delay alike).bind fun _ _ _ _ added => .ok (.steps added)
      | none =>
          dsimp only
          rw [alike.stepWord?_eq, alike.keyword?_eq, same.backwards]
          split
          · exact (same.addStep _ alike).bind fun _ _ _ _ added => .ok (.steps added)
          · split
            · split
              · exact .ok (alike_of_keyword ‹_›)
              · exact unexpected
            · exact unexpected

end Reading

end word

/-- Errors that say the same of two tokens with the same number, and point to the same place in
them. -/
def LineError.AlikeIn (tokens others : List Token) (e f : LineError) : Prop :=
  ∃ (i : Nat) (t u : Token), tokens[i]? = some t ∧ others[i]? = some u ∧ AlikeAt t u e f

theorem LineError.AlikeIn.later {tokens others : List Token} {e f : LineError}
    (alike : AlikeIn tokens others e f) (t u : Token) :
    AlikeIn (t :: tokens) (u :: others) e f := by
  obtain ⟨i, first, second, here, there, same⟩ := alike
  exact ⟨i + 1, first, second, here, there, same⟩

/-- Errors that say the same of two lines and point to the same place: into words with the same
number, or both to the end of their line, where a program number is missing. -/
inductive LineError.Alike (line other : List Char) : LineError → LineError → Prop
  | inWord {e f : LineError} (same : AlikeIn (Text.tokens line) (Text.tokens other) e f) :
      Alike line other e f
  | atEnd : Alike line other ⟨.slotMissing, line.length⟩ ⟨.slotMissing, other.length⟩

namespace Reading

variable {r s : Reading} {tokens others : List Token}

theorem Alike.foldlM (same : r.Alike s) (alike : List.Forall₂ Token.Alike tokens others) :
    EndAlike Alike (LineError.AlikeIn tokens others) (tokens.foldlM Reading.take r)
      (others.foldlM Reading.take s) := by
  induction alike generalizing r s with
  | nil => exact .ok same
  | @cons t u rest more first _ ih =>
      rw [List.foldlM_cons, List.foldlM_cons]
      have taken := (same.take first).imp fun e f alike =>
        (⟨0, t, u, rfl, rfl, alike⟩ : LineError.AlikeIn (t :: rest) (u :: more) e f)
      exact taken.bind fun _ _ _ _ same => (ih same).imp fun _ _ alike => alike.later t u

variable {line other : List Char}

/-- A delay that is all there is is pointed at in the first token of both lines. -/
theorem delayAlone_alike (alike : List.Forall₂ Token.Alike (Text.tokens line) (Text.tokens other))
    {d e : Draft} (read : (Text.tokens line).foldlM Reading.take .start = .ok (.steps d))
    (readOther : (Text.tokens other).foldlM Reading.take .start = .ok (.steps e))
    (alone : d.isDelayAlone = true) (aloneOther : e.isDelayAlone = true) :
    LineError.AlikeIn (Text.tokens line) (Text.tokens other) ⟨.delayAlone, d.delayOffset⟩
      ⟨.delayAlone, e.delayOffset⟩ := by
  have nonempty (line : List Char) : ∀ t ∈ Text.tokens line, t.chars ≠ [] :=
    fun t member => Text.ne_nil_of_mem_tokensFrom member
  obtain ⟨t, rest, cut, place⟩ := delayOffset_of_reads (nonempty line) read alone
  obtain ⟨u, more, cutOther, placeOther⟩ :=
    delayOffset_of_reads (nonempty other) readOther aloneOther
  rw [cut, cutOther] at alike ⊢
  cases alike with
  | cons first _ =>
      rw [place, placeOther]
      exact ⟨0, t, u, rfl, rfl, first.atWord rfl⟩

/-- What is wrong at the end is wrong with both lines. -/
theorem finish_alike
    (alike : List.Forall₂ Token.Alike (Text.tokens line) (Text.tokens other))
    (read : (Text.tokens line).foldlM Reading.take .start = .ok r)
    (readOther : (Text.tokens other).foldlM Reading.take .start = .ok s) (same : r.Alike s) :
    EndAlike Eq (LineError.Alike line other) (r.finish line.length) (s.finish other.length) := by
  cases same with
  | complete request => exact .ok rfl
  | awaitingSlot verb => exact .error .atEnd
  | @steps d e same =>
      have alone : e.isDelayAlone = d.isDelayAlone := by
        unfold Draft.isDelayAlone
        rw [same.backwards]
      have program : e.program = d.program := by
        simp only [Draft.program, same.backwards]
      simp only [Reading.finish, ← same.backwards, ← same.slot, alone, program]
      split
      · exact .ok rfl
      · split
        · exact .ok rfl
        · rename_i delay
          split
          · exact .ok rfl
          · have only : d.isDelayAlone = true := by simpa using delay
            exact .error (.inWord (delayAlone_alike alike read readOther only (alone.trans only)))

end Reading

namespace Request

theorem tokens_alike {line other : List Char}
    (alike : List.Forall₂ Text.WordsAlike (Text.words line) (Text.words other)) :
    List.Forall₂ Token.Alike (Text.tokens line) (Text.tokens other) := by
  rw [← Text.chars_tokensFrom 0, ← Text.chars_tokensFrom 0, List.forall₂_map_left_iff,
    List.forall₂_map_right_iff] at alike
  have nonempty : ∀ t ∈ Text.tokens line, t.chars ≠ [] :=
    fun t member => Text.ne_nil_of_mem_tokensFrom member
  exact ((List.forall₂_and_left ..).mpr ⟨nonempty, alike⟩).imp fun t u both => ⟨both.2, both.1⟩

/-- Lines whose words are alike say the same: either both are the same request, or the same is wrong
with both, at the same place in the same word or at the end. -/
theorem ofLine_alike {line other : String}
    (alike : List.Forall₂ Text.WordsAlike (Text.words line.toList) (Text.words other.toList)) :
    (∃ request, ofLine line = .ok request ∧ ofLine other = .ok request) ∨
      ∃ e f, ofLine line = .error e ∧ ofLine other = .error f ∧
        e.Alike line.toList other.toList f := by
  have tokens := tokens_alike alike
  have start : Reading.start.Alike .start := .steps ⟨rfl, rfl⟩
  have read := (start.foldlM tokens).imp fun _ _ same => LineError.Alike.inWord same
  have ended : EndAlike Eq (LineError.Alike line.toList other.toList) (ofLine line)
      (ofLine other) :=
    read.bind fun r s done doneOther same => Reading.finish_alike tokens done doneOther same
  generalize ofLine line = answer, ofLine other = answerOther at ended
  cases ended with
  | ok same => exact .inl ⟨_, rfl, congrArg _ same.symm⟩
  | error same => exact .inr ⟨_, _, rfl, rfl, same⟩

/-- What is wrong with both lines stands behind the loop, wherever that is in the line. -/
theorem ofLine_alike_past_loop :
    let line := "o 5s,* Close"
    let other := "  O,5s  *, CLOSE"
    List.Forall₂ Text.WordsAlike (Text.words line.toList) (Text.words other.toList) ∧
      ofLine line = .error ⟨.pastLoop, 7⟩ ∧ ofLine other = .error ⟨.pastLoop, 11⟩ ∧
      LineError.Alike line.toList other.toList ⟨.pastLoop, 7⟩ ⟨.pastLoop, 11⟩ := by
  intro line other
  have words : Text.words line.toList = ["o".toList, "5s".toList, "*".toList, "Close".toList] ∧
      Text.words other.toList = ["O".toList, "5s".toList, "*".toList, "CLOSE".toList] := by
    decide +kernel
  have alike : List.Forall₂ Text.WordsAlike (Text.words line.toList) (Text.words other.toList) := by
    rw [words.1, words.2]
    exact .cons ⟨by decide, by decide⟩ (.cons ⟨by decide, by decide⟩ (.cons ⟨by decide, by decide⟩
      (.cons ⟨by decide, by decide⟩ .nil)))
  have fails : ofLine line = .error ⟨.pastLoop, 7⟩ := by
    rw [ofLine_of_tokens [⟨0, ['o']⟩, ⟨2, "5s".toList⟩, ⟨5, ['*']⟩, ⟨7, "Close".toList⟩]
      (by decide +kernel)]
    rfl
  have failsOther : ofLine other = .error ⟨.pastLoop, 11⟩ := by
    rw [ofLine_of_tokens [⟨2, ['O']⟩, ⟨4, "5s".toList⟩, ⟨8, ['*']⟩, ⟨11, "CLOSE".toList⟩]
      (by decide +kernel)]
    rfl
  refine ⟨alike, fails, failsOther, ?_⟩
  rcases ofLine_alike alike with ⟨request, reads, -⟩ | ⟨e, f, wrong, wrongOther, same⟩
  · rw [fails] at reads
    cases reads
  · rw [fails] at wrong
    rw [failsOther] at wrongOther
    cases wrong
    cases wrongOther
    exact same

end Request

end RelayTimer
