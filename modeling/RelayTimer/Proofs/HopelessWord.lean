import RelayTimer.Proofs.ReadingPrograms
import RelayTimer.Proofs.TokenPlaces

set_option autoImplicit false

/-!
Where the error of a line points to. A word is refused once nothing that comes after it could help,
and not before: what is in front of it can still be completed, whatever comes behind it is ignored.
What is missing at the end of a line is missed there, and a delay that is all there is is pointed at
where it begins.
-/
namespace RelayTimer

open Text (Token IsWord Around tokensFrom isSeparator)

/-- What is wrong with a word as a whole. -/
def LineFault.OfWord : LineFault → Prop
  | slotMissing | delayAlone | unknownUnit _ => False
  | _ => True

/-- What an error says of a word at a place, and where it points: at the word, or at the unit of a
time. -/
inductive LineError.PointsAt (word : List Char) (place : Nat) : LineError → Prop
  | word {fault : LineFault} (ofWord : fault.OfWord) : PointsAt word place ⟨fault, place⟩
  | unit {digits suffix : List Char} (whole : word = digits ++ suffix) (begun : digits ≠ [])
      (decimal : ∀ c ∈ digits, c.isDigit = true)
      (ends : ∃ c, suffix.head? = some c ∧ c.isDigit = false) :
      PointsAt word place ⟨.unknownUnit suffix, place + digits.length⟩

variable {t : Token} {e : LineError}

open LineError (PointsAt)

theorem LineError.PointsAt.offset_le {word : List Char} {place : Nat}
    (points : e.PointsAt word place) : e.offset ≤ place + word.length := by
  cases points with
  | word ofWord => exact Nat.le_add_right place word.length
  | unit whole _ _ _ =>
      rw [whole, List.length_append]
      exact Nat.add_le_add_left (Nat.le_add_right _ _) place

theorem LineError.PointsAt.fault_ne {word : List Char} {place : Nat}
    (points : e.PointsAt word place) : e.fault ≠ .slotMissing ∧ e.fault ≠ .delayAlone := by
  cases points with
  | word ofWord =>
      constructor
      · rintro rfl
        exact ofWord
      · rintro rfl
        exact ofWord
  | unit => exact ⟨nofun, nofun⟩

theorem pointsAt_of_readDelay (refused : readDelay t = .error e) : PointsAt t.chars t.offset e := by
  unfold readDelay at refused
  split at refused
  · cases refused
  · rename_i begun
    split at refused
    · cases refused
      exact .word trivial
    · split at refused
      · rename_i unknown
        cases refused
        refine .unit (digits_append_suffix t).symm (by simpa using begun)
          (fun c member => List.all_eq_true.mp List.all_takeWhile c member) ?_
        cases suffix : t.suffix with
        | nil =>
            rw [suffix] at unknown
            cases unknown
        | cons c rest =>
            refine ⟨c, rfl, ?_⟩
            have stops := List.head?_dropWhile_not Char.isDigit t.chars
            have first : (t.chars.dropWhile Char.isDigit).head? = some c :=
              congrArg List.head? suffix
            rw [first] at stops
            simpa using stops
      · split at refused
        · cases refused
        · cases refused
          exact .word trivial

namespace Draft

variable {d after : Draft}

theorem pointsAt_of_addDelay {delay : UInt32} (refused : d.addDelay delay t = .error e) :
    PointsAt t.chars t.offset e := by
  obtain ⟨backwards, bound, slot, delayOffset⟩ := d
  cases backwards with
  | nil => cases refused
  | cons newest earlier =>
      simp only [addDelay] at refused
      split at refused
      · cases refused
        exact .word trivial
      · split at refused
        · cases refused
          exact .word trivial
        · cases refused

theorem pointsAt_of_addStep {kind : StepKind} (refused : d.addStep kind t = .error e) :
    PointsAt t.chars t.offset e := by
  unfold addStep at refused
  split at refused
  · cases refused
    exact .word trivial
  · split at refused
    · cases refused
      exact .word trivial
    · split at refused
      · cases refused
        exact .word trivial
      · cases refused

/-- Time that is added to a delay leaves it where it is. -/
theorem alone_of_addDelay {delay : UInt32} (added : d.addDelay delay t = .ok after)
    (begun : d.backwards ≠ []) (alone : after.isDelayAlone = true) :
    d.isDelayAlone = true ∧ after.delayOffset = d.delayOffset := by
  obtain ⟨backwards, bound, slot, place⟩ := d
  obtain ⟨newest, others, rfl⟩ := List.exists_cons_of_ne_nil begun
  simp only [addDelay] at added
  split at added
  · cases added
  · split at added
    · cases added
    · cases added
      cases others with
      | nil => exact ⟨alone, rfl⟩
      | cons other rest => cases alone

/-- With an action there is more than a delay. -/
theorem isDelayAlone_of_addStep {kind : StepKind} (added : d.addStep kind t = .ok after)
    (acts : kind ≠ .waits) : after.backwards ≠ [] ∧ after.isDelayAlone = false := by
  unfold addStep at added
  split at added
  · cases added
  · split at added
    · cases added
    · split at added
      · cases added
      · cases added
        refine ⟨List.cons_ne_nil _ _, ?_⟩
        unfold isDelayAlone
        split
        · rename_i only same
          obtain ⟨rfl, -⟩ := List.cons_eq_cons.mp same
          exact decide_eq_false acts
        · rfl

/-- The contact can be opened after a delay. -/
theorem exists_addStep_of_alone (alone : d.isDelayAlone = true) (t : Token) :
    ∃ after, d.addStep .opens t = .ok after := by
  obtain ⟨backwards, bound, slot, place⟩ := d
  match backwards with
  | [] => cases alone
  | [only] =>
      have waits : only.kind = .waits := of_decide_eq_true alone
      have short : ¬ ([only].length = maxSteps) := by simp [maxSteps]
      simp only [addStep, isLooped, short, waits, List.head?_cons, Option.any_some, reduceCtorEq,
        decide_false, Bool.and_false, Bool.false_eq_true, ↓reduceIte, ↓reduceDIte]
      exact ⟨_, rfl⟩
  | _ :: _ :: _ => cases alone

end Draft

namespace Reading

variable {r : Reading}

/-- A word that is refused is what the error points at. -/
theorem pointsAt_of_take (refused : r.take t = .error e) : PointsAt t.chars t.offset e := by
  cases r with
  | complete request =>
      cases refused
      exact .word trivial
  | awaitingSlot verb =>
      simp only [take] at refused
      split at refused
      · cases refused
      · cases refused
        exact .word trivial
  | steps draft =>
      simp only [take, bind_eq_error_iff] at refused
      rcases refused with unread | ⟨time, -, refused⟩
      · exact pointsAt_of_readDelay unread
      · cases time with
        | some delay =>
            rcases (bind_eq_error_iff _ _ _).mp refused with stuck | ⟨_, _, ok⟩
            · exact Draft.pointsAt_of_addDelay stuck
            · cases ok
        | none =>
            dsimp only at refused
            split at refused
            · rcases (bind_eq_error_iff _ _ _).mp refused with stuck | ⟨_, _, ok⟩
              · exact Draft.pointsAt_of_addStep stuck
              · cases ok
            · split at refused
              · split at refused
                · cases refused
                · cases refused
                  exact .word trivial
              · cases refused
                exact .word trivial

/-- Tokens that are not all taken are taken up to one that is refused. -/
theorem exists_refused {tokens : List Token} (failed : tokens.foldlM take r = .error e) :
    ∃ before t after mid, tokens = before ++ t :: after ∧ before.foldlM take r = .ok mid ∧
      mid.take t = .error e := by
  induction tokens generalizing r with
  | nil => cases failed
  | cons t rest ih =>
      rw [List.foldlM_cons] at failed
      rcases (bind_eq_error_iff _ _ _).mp failed with refused | ⟨next, taken, later⟩
      · exact ⟨[], t, rest, r, rfl, rfl, refused⟩
      · obtain ⟨before, stuck, after, mid, rfl, read, refused⟩ := ih later
        refine ⟨t :: before, stuck, after, mid, rfl, ?_, refused⟩
        rw [foldlM_take_cons before taken, read]

/-- Steps that have been read without any being typed are no tokens at all. -/
theorem eq_nil_of_reads {tokens : List Token} (nonempty : ∀ t ∈ tokens, t.chars ≠ [])
    {d : Draft} (read : tokens.foldlM take .start = .ok (.steps d)) (blank : d.backwards = []) :
    tokens = [] := by
  obtain ⟨items, spelled, -, shows⟩ := spelled_of_reads nonempty read
  obtain rfl : items = [] := shows.isEmpty_iff.mp (List.isEmpty_iff.mpr blank)
  cases spelled
  rfl

/-- A delay that is all there is stands where the first token does. -/
theorem delayOffset_of_reads {tokens : List Token} (nonempty : ∀ t ∈ tokens, t.chars ≠ [])
    {d : Draft} (read : tokens.foldlM take .start = .ok (.steps d)) (alone : d.isDelayAlone = true) :
    ∃ first rest, tokens = first :: rest ∧ d.delayOffset = first.offset := by
  -- Only the first token sets the place; all that come later find a step to add their time to.
  induction tokens using List.reverseRecOn generalizing d with
  | nil =>
      cases read
      cases alone
  | append_singleton tokens t ih =>
      have before : ∀ other ∈ tokens, other.chars ≠ [] :=
        fun other member => nonempty other (List.mem_append_left _ member)
      obtain ⟨mid, earlier, taken⟩ := (foldlM_concat_iff ..).mp read
      obtain ⟨typed, rfl⟩ := steps_of_take taken
      cases (take_steps_iff ..).mp taken with
      | delay reads added =>
          by_cases begun : typed.backwards = []
          · obtain rfl := eq_nil_of_reads before earlier begun
            obtain ⟨backwards, bound, slot, place⟩ := typed
            cases begun
            cases added
            exact ⟨t, [], rfl, rfl⟩
          · obtain ⟨same, place⟩ := Draft.alone_of_addDelay added begun alone
            obtain ⟨first, rest, rfl, there⟩ := ih before earlier same
            exact ⟨first, rest ++ [t], rfl, place.trans there⟩
      | step noDelay word added =>
          rw [(Draft.isDelayAlone_of_addStep added (stepWord?_ne_waits word)).2] at alone
          cases alone
      | keyword noDelay noStep found first => exact absurd rfl (keyword?_ne_steps found d)

theorem finish_of_more {d : Draft} (nonempty : d.backwards ≠ []) (more : d.isDelayAlone = false)
    (length : Nat) : (Reading.steps d).finish length = .ok (.program d.program) := by
  have typed : d.backwards.isEmpty = false := by simpa using nonempty
  simp only [finish, typed, more, Bool.false_eq_true, Bool.not_false, ↓reduceIte]

/-- What has been read of a line is a request, or one word more makes it one. -/
theorem completes (r : Reading) : (∀ length, ∃ request, r.finish length = .ok request) ∨
    ∃ word, IsWord word ∧ ∀ offset, ∃ after, r.take ⟨offset, word⟩ = .ok after ∧
      ∀ length, ∃ request, after.finish length = .ok request := by
  cases r with
  | complete request => exact .inl fun _ => ⟨request, rfl⟩
  | awaitingSlot verb =>
      exact .inr ⟨['0'], Text.isWord_singleton rfl, fun _ => ⟨_, rfl, fun _ => ⟨_, rfl⟩⟩⟩
  | steps d =>
      by_cases alone : d.isDelayAlone = true
      · right
        refine ⟨['o'], Text.isWord_singleton rfl, fun offset => ?_⟩
        obtain ⟨after, added⟩ := Draft.exists_addStep_of_alone alone ⟨offset, ['o']⟩
        obtain ⟨nonempty, more⟩ := Draft.isDelayAlone_of_addStep added (by decide)
        refine ⟨.steps after, (take_steps_iff ..).mpr (.step rfl rfl added), fun length => ?_⟩
        exact ⟨_, finish_of_more nonempty more length⟩
      · left
        intro length
        by_cases blank : d.backwards = []
        · exact ⟨.nothing, by simp only [finish, blank, List.isEmpty_nil, ↓reduceIte]⟩
        · exact ⟨_, finish_of_more blank (Bool.eq_false_iff.mpr alone) length⟩

/-- What can be wrong at the end of a line: a number is missing, or there is nothing but a delay. -/
theorem finish_eq_error {length : Nat} (unfinished : r.finish length = .error e) :
    e = ⟨.slotMissing, length⟩ ∨
      ∃ d, r = .steps d ∧ d.isDelayAlone = true ∧ e = ⟨.delayAlone, d.delayOffset⟩ := by
  cases r with
  | complete request => cases unfinished
  | awaitingSlot verb =>
      cases unfinished
      exact .inl rfl
  | steps d =>
      simp only [finish] at unfinished
      split at unfinished
      · cases unfinished
      · split at unfinished
        · cases unfinished
        · rename_i alone
          split at unfinished
          · cases unfinished
          · cases unfinished
            exact .inr ⟨d, rfl, by simpa using alone, rfl⟩

end Reading

namespace Request

/-- A line is read on from where its front has been read. -/
theorem ofChars_append {front : List Char} (apart : ∀ c ∈ front.getLast?, isSeparator c = true)
    {r : Reading} (read : (tokensFrom 0 front).foldlM Reading.take .start = .ok r)
    (more : List Char) :
    ofChars (front ++ more) = (tokensFrom front.length more).foldlM Reading.take r >>=
      (·.finish (front ++ more).length) := by
  rw [ofChars, Text.tokens, Text.tokensFrom_append apart, List.foldlM_append, read, Nat.zero_add]
  rfl

/-- What has been read without an error can be completed. -/
theorem exists_completed {front : List Char} (apart : ∀ c ∈ front.getLast?, isSeparator c = true)
    {r : Reading} (read : (tokensFrom 0 front).foldlM Reading.take .start = .ok r) :
    ∃ more request, ofChars (front ++ more) = .ok request := by
  rcases r.completes with done | ⟨word, isWord, taken⟩
  · obtain ⟨request, finished⟩ := done (front ++ []).length
    refine ⟨[], request, ?_⟩
    rw [ofChars_append apart read, ← finished]
    simp only [tokensFrom]
    rfl
  · obtain ⟨after, next, done⟩ := taken front.length
    obtain ⟨request, finished⟩ := done (front ++ word).length
    refine ⟨word, request, ?_⟩
    have single : tokensFrom front.length word = [⟨front.length, word⟩] := by
      have whole := Text.tokensFrom_word isWord (by simp : ∀ c ∈ [].head?, _) front.length
      simpa only [List.append_nil, tokensFrom] using whole
    rw [ofChars_append apart read, single, foldlM_take_cons [] next, ← finished]
    rfl

/-- Nothing that comes behind a word that is refused is looked at. -/
theorem ofChars_of_refused {front word : List Char}
    (apart : ∀ c ∈ front.getLast?, isSeparator c = true) {r : Reading}
    (read : (tokensFrom 0 front).foldlM Reading.take .start = .ok r) (isWord : IsWord word)
    (refused : r.take ⟨front.length, word⟩ = .error e) (tail : List Char)
    (ends : ∀ c ∈ tail.head?, isSeparator c = true) :
    ofChars (front ++ word ++ tail) = .error e := by
  rw [List.append_assoc, ofChars_append apart read, Text.tokensFrom_word isWord ends,
    List.foldlM_cons, refused]
  rfl

/-- A line fails at one of its words, or at its end. -/
theorem ofLine_eq_error {line : String} (fails : ofLine line = .error e) :
    (∃ before t after r, Text.tokens line.toList = before ++ t :: after ∧
      before.foldlM Reading.take .start = .ok r ∧ r.take t = .error e) ∨
    ∃ r, (Text.tokens line.toList).foldlM Reading.take .start = .ok r ∧
      r.finish line.toList.length = .error e := by
  rcases (bind_eq_error_iff _ _ _).mp fails with stuck | ⟨r, read, unfinished⟩
  · exact .inl (Reading.exists_refused stuck)
  · exact .inr ⟨r, read, unfinished⟩

/-- A word that nothing behind it can help, while what is in front of it can be completed. -/
structure Hopeless (front word : List Char) (e : LineError) : Prop where
  same : ∀ tail : List Char, (∀ c ∈ tail.head?, isSeparator c = true) →
    ofChars (front ++ word ++ tail) = .error e
  completed : ∃ more request, ofChars (front ++ more) = .ok request

/-- An error points at the first word of its line that is hopeless, except that a number is missed
at the end of the line, and that a delay that is all there is is pointed at where it begins. -/
theorem error_at_hopeless_word (line : String) (e : LineError) (fails : ofLine line = .error e) :
    e.offset ≤ line.length ∧
    (e.fault = .slotMissing → e.offset = line.length) ∧
    (e.fault = .delayAlone → ∃ front word back, Around line.toList front word back ∧
      (∀ c ∈ front, isSeparator c = true) ∧ e.offset = front.length) ∧
    (e.fault ≠ .slotMissing → e.fault ≠ .delayAlone →
      ∃ front word back, Around line.toList front word back ∧ e.PointsAt word front.length ∧
        Hopeless front word e) := by
  have nonempty : ∀ t ∈ Text.tokens line.toList, t.chars ≠ [] :=
    fun t member => Text.ne_nil_of_mem_tokensFrom member
  rw [← String.length_toList]
  rcases ofLine_eq_error fails with
    ⟨before, t, after, r, cut, read, refused⟩ | ⟨r, read, unfinished⟩
  · obtain ⟨front, back, around, place, rfl⟩ := Text.around_of_tokensFrom cut
    have points := Reading.pointsAt_of_take refused
    obtain ⟨offset, word⟩ := t
    obtain rfl : offset = front.length := place.trans (Nat.zero_add _)
    obtain ⟨notMissing, notAlone⟩ := points.fault_ne
    have inside := points.offset_le
    have length := around.length
    exact ⟨by omega, fun missing => absurd missing notMissing, fun alone => absurd alone notAlone,
      fun _ _ => ⟨front, word, back, around, points,
        ofChars_of_refused around.apart read around.isWord refused,
        exists_completed around.apart read⟩⟩
  · rcases Reading.finish_eq_error unfinished with rfl | ⟨d, rfl, alone, rfl⟩
    · exact ⟨Nat.le_refl _, fun _ => rfl, nofun, fun missing => absurd rfl missing⟩
    · obtain ⟨first, rest, cut, place⟩ := Reading.delayOffset_of_reads nonempty read alone
      obtain ⟨front, back, around, there, blank⟩ :=
        Text.around_of_tokensFrom (cut.trans (List.nil_append _).symm)
      rw [Nat.zero_add, ← place] at there
      have length := around.length
      refine ⟨by simp only; omega, nofun, fun _ => ?_, fun _ alone => absurd rfl alone⟩
      exact ⟨front, first.chars, back, around, Text.separators_of_tokensFrom blank, there⟩

/-- The unit of a time is not known. It is the fourth character, also where a letter takes more than
a byte. -/
theorem error_at_hopeless_word_unit :
    let line := "o 5µ, 3"
    let e : LineError := ⟨.unknownUnit ['µ'], 3⟩
    ofLine line = .error e ∧ e.offset ≤ line.length ∧
      ∃ front word back, Around line.toList front word back ∧ e.PointsAt word front.length ∧
        Hopeless front word e := by
  intro line e
  have fails : ofLine line = .error e := by
    rw [ofLine_of_tokens [⟨0, ['o']⟩, ⟨2, ['5', 'µ']⟩, ⟨6, ['3']⟩] (by decide +kernel)]
    rfl
  obtain ⟨inside, -, -, somewhere⟩ := error_at_hopeless_word line e fails
  exact ⟨fails, inside, somewhere nofun nofun⟩

end Request

end RelayTimer
