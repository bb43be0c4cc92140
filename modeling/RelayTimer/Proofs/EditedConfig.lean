import Mathlib.Logic.Relation
import RelayTimer.Proofs.WrittenConfig

set_option autoImplicit false

/-!
Blank lines, blanks at the ends of lines and comments in a configuration. They change nothing in
what is read, except for a comment behind the header of a section: a header must end with its
bracket, and a text that has such a comment is refused.
-/
namespace RelayTimer

namespace ConfigText

open Text (AllBlank Trimmed trim isBlank)

/-- A line that says nothing: it is blank or a comment. -/
def IsQuiet (line : List Char) : Prop := ∀ c ∈ (trim line).head?, c = '#'

/-- The header of a section. -/
def IsHeader (line : List Char) : Prop := (trim line).head? = some '['

instance (line : List Char) : Decidable (IsHeader line) := inferInstanceAs (Decidable (_ = _))

/-- A header with a comment behind it. -/
def IsCommentedHeader (line : List Char) : Prop := IsHeader line ∧ '#' ∈ line

instance (line : List Char) : Decidable (IsCommentedHeader line) :=
  inferInstanceAs (Decidable (_ ∧ _))

/-- A line with a comment behind it. -/
def commented (line text : List Char) : List Char := line ++ " # ".toList ++ text

/-- Edits of the lines of a text that are not meant to change what it says. -/
inductive Edit : List (List Char) → List (List Char) → Prop
  /-- One more blank line or comment. -/
  | insert (before after : List (List Char)) {line : List Char} (quiet : IsQuiet line) :
    Edit (before ++ after) (before ++ line :: after)
  /-- Blanks at the ends of a line. -/
  | pad (before after : List (List Char)) (line : List Char) {left right : List Char}
    (blank : AllBlank left) (alsoBlank : AllBlank right) :
    Edit (before ++ line :: after) (before ++ (left ++ line ++ right) :: after)
  /-- A comment behind a line. -/
  | comment (before after : List (List Char)) (line text : List Char) :
    Edit (before ++ line :: after) (before ++ commented line text :: after)

/-- The lines of the second text are those of the first one after some edits. -/
def Edited (text edited : String) : Prop :=
  Relation.ReflTransGen Edit (Text.lines text.toList) (Text.lines edited.toList)

section values

/-- A value has no comment in it, and its quotation marks come in pairs. -/
structure Clean (value : List Char) : Prop where
  uncommented : '#' ∉ value
  paired : value.count '"' % 2 = 0

theorem Clean.of_forall {value : List Char} (plain : ∀ c ∈ value, c ≠ '#' ∧ c ≠ '"') :
    Clean value where
  uncommented member := (plain _ member).1 rfl
  paired := by
    rw [List.count_eq_zero.mpr fun member => (plain _ member).2 rfl]

theorem ne_of_isDigit {c : Char} (digit : c.isDigit = true) : c ≠ '#' ∧ c ≠ '"' := by
  constructor
  · rintro rfl
    cases digit
  · rintro rfl
    cases digit

theorem plain_of_readBelow? {bound n : Nat} {text : List Char}
    (read : Text.readBelow? bound text = some n) : ∀ c ∈ text, c ≠ '#' ∧ c ≠ '"' := by
  unfold Text.readBelow? at read
  obtain ⟨digits, -⟩ := Option.filter_eq_some_iff.mp read
  intro c member
  split at digits
  · rcases List.mem_cons.mp member with rfl | digit
    · decide
    · exact ne_of_isDigit (isDigit_of_readDigits? digits c digit)
  · exact ne_of_isDigit (isDigit_of_readDigits? digits c member)

theorem clean_of_readNumber {bound n : Nat} {value : List Char}
    (read : readNumber bound value = .ok n) : Clean value := by
  unfold readNumber at read
  simp only at read
  split at read
  · cases read
  · split at read
    · rename_i found
      refine Clean.of_forall fun c member => ?_
      by_cases line : c = '_'
      · subst line
        decide
      · refine plain_of_readBelow? found c (List.mem_filter.mpr ⟨member, ?_⟩)
        simpa using line
    · cases read

theorem clean_of_readFlag {value : List Char} {b : Bool} (read : readFlag value = .ok b) :
    Clean value := by
  unfold readFlag at read
  split at read
  · rename_i yes
    subst yes
    exact ⟨by decide, by decide⟩
  · split at read
    · rename_i no
      subst no
      exact ⟨by decide, by decide⟩
    · cases read

theorem unquote_cases (value : List Char) :
    unquote value = value ∨ value = '"' :: (unquote value ++ ['"']) := by
  unfold unquote
  split
  · rename_i rest
    split
    · rename_i last
      refine .inr ?_
      rw [List.dropLast_append_getLast? _ last]
    · exact .inl rfl
  · exact .inl rfl

theorem afterGpio?_eq_some {name rest : List Char} (named : afterGpio? name = some rest) :
    name = "gpio".toList ++ rest := by
  unfold afterGpio? at named
  split at named
  · cases named
    rfl
  · cases named

theorem clean_of_readPin {value : List Char} {pin : PinSetting} (read : readPin value = .ok pin) :
    Clean value := by
  have letters : ∀ c ∈ "gpio".toList, c ≠ '#' ∧ c ≠ '"' := forall_mem_of_all (by decide)
  have named (name : List Char) {gpio : Nat}
      (found : (afterGpio? name).bind (Text.readBelow? pinCount) = some gpio) :
      ∀ c ∈ name, c ≠ '#' ∧ c ≠ '"' := by
    obtain ⟨rest, word, number⟩ := Option.bind_eq_some_iff.mp found
    rw [afterGpio?_eq_some word]
    exact List.forall_mem_append.mpr ⟨letters, plain_of_readBelow? number⟩
  have plain : ∀ c ∈ unquote value, c ≠ '#' ∧ c ≠ '"' := by
    unfold readPin at read
    simp only at read
    split at read
    · rename_i gpio found
      split at found
      · rename_i rest marked
        rw [marked]
        exact List.forall_mem_cons.mpr ⟨by decide, named rest found⟩
      · exact named _ found
    · cases read
  have clean := Clean.of_forall plain
  rcases unquote_cases value with bare | quoted
  · rwa [bare] at clean
  · rw [quoted]
    refine ⟨?_, ?_⟩
    · simpa using clean.uncommented
    · have paired := clean.paired
      simp only [List.count_cons_self, List.count_append, List.count_nil]
      omega

/-- What can be set to a value is set to a clean one. -/
theorem clean_of_assign {c after : BoardConfig} {s : Setting} {value : List Char}
    (assigned : assign c s value = .ok after) : Clean value := by
  cases s with
  | relayPin | noPin | ncPin =>
      obtain ⟨pin, read, -⟩ := (bind_eq_ok_iff ..).mp assigned
      exact clean_of_readPin read
  | sampleHz | baudrate | splashMs | healthIntervalMs | storageOffset =>
      obtain ⟨n, read, -⟩ := (bind_eq_ok_iff ..).mp assigned
      exact clean_of_readNumber read
  | banner =>
      obtain ⟨b, read, -⟩ := (bind_eq_ok_iff ..).mp assigned
      exact clean_of_readFlag read

end values

section lines

variable {value line text : List Char} {p q : Progress}

theorem splitAt?_append_right {c : Char} {first before after : List Char}
    (split : splitAt? c first = some (before, after)) (second : List Char) :
    splitAt? c (first ++ second) = some (before, after ++ second) := by
  induction first generalizing before with
  | nil => cases split
  | cons d rest ih =>
      rw [splitAt?] at split
      rw [List.cons_append, splitAt?]
      split at split
      · rename_i same
        cases split
        rw [if_pos same]
      · rename_i differs
        obtain ⟨⟨front, back⟩, here, whole⟩ := Option.map_eq_some_iff.mp split
        cases whole
        rw [if_neg differs, ih here]
        rfl

theorem splitAt?_eq_none {c : Char} {text : List Char} (absent : splitAt? c text = none) : c ∉ text := by
  induction text with
  | nil => simp
  | cons d rest ih =>
      rw [splitAt?] at absent
      split at absent
      · cases absent
      · rename_i differs
        rw [List.mem_cons, not_or]
        exact ⟨Ne.symm differs, ih (Option.map_eq_none_iff.mp absent)⟩

/-- A comment more does not change a clean value. -/
theorem uncomment_append {gap tail : List Char} (trimmed : Trimmed value)
    (clean : Clean (uncomment value)) (blank : AllBlank gap) :
    uncomment (value ++ gap ++ '#' :: tail) = uncomment value := by
  unfold uncomment at clean ⊢
  split at clean
  · rename_i before after found
    rw [List.append_assoc, splitAt?_append_right found]
    simp only
    by_cases paired : before.count '"' % 2 = 0
    · rw [if_pos paired, if_pos paired]
    · rw [if_neg paired] at clean
      have member : '#' ∈ value := by
        by_contra absent
        rw [splitAt?_none absent] at found
        cases found
      exact absurd member clean.uncommented
  · rename_i absent
    have absent : '#' ∉ value ++ gap := by
      rw [List.mem_append, not_or]
      exact ⟨splitAt?_eq_none absent, blank.absent rfl⟩
    have quotes : (value ++ gap).count '"' = value.count '"' := by
      rw [List.count_append, List.count_eq_zero.mpr (blank.absent rfl), Nat.add_zero]
    rw [splitAt?_append absent]
    simp only
    rw [quotes, if_pos clean.paired]
    exact trimmed.trim_around Text.allBlank_nil blank

theorem keyValue?_eq_some_iff {key : List Char} : keyValue? line = some (key, value) ↔
    ∃ before after, splitAt? '=' line = some (before, after) ∧ trim before = key ∧
      uncomment (trim after) = value ∧ key ≠ [] ∧ value ≠ [] := by
  unfold keyValue?
  cases splitAt? '=' line with
  | none => simp
  | some sides =>
      obtain ⟨before, after⟩ := sides
      simp only [Bool.or_eq_true, List.isEmpty_iff]
      constructor
      · intro found
        split at found
        · cases found
        · rename_i visible
          obtain ⟨rfl, rfl⟩ := Prod.mk.inj (Option.some.inj found)
          exact ⟨before, after, rfl, rfl, rfl, not_or.mp visible⟩
      · rintro ⟨front, back, same, rfl, rfl, visible⟩
        cases same
        rw [if_neg (not_or.mpr visible)]

/-- A comment behind a key and its value does not change them. -/
theorem keyValue?_append {key gap tail : List Char} (found : keyValue? line = some (key, value))
    (clean : Clean value) (blank : AllBlank gap)
    (last : ∀ c ∈ ('#' :: tail).getLast?, isBlank c = false) :
    keyValue? (line ++ gap ++ '#' :: tail) = some (key, value) := by
  obtain ⟨before, after, split, named, rfl, nonempty, visible⟩ := keyValue?_eq_some_iff.mp found
  refine keyValue?_eq_some_iff.mpr
    ⟨before, after ++ gap ++ '#' :: tail, ?_, named, ?_, nonempty, visible⟩
  · rw [List.append_assoc, splitAt?_append_right split, List.append_assoc]
  · have own : trim after ≠ [] := by
      intro empty
      rw [empty] at visible
      exact visible rfl
    obtain ⟨left, right, front, behind, whole⟩ := Text.exists_around_trim after
    have trimmed := Text.trimmed_trim after
    have around : after ++ gap ++ '#' :: tail =
        left ++ (trim after ++ (right ++ gap) ++ '#' :: tail) ++ [] := by
      conv_lhs => rw [whole]
      simp only [List.append_assoc, List.append_nil]
    rw [around, (trimmed.append own (right ++ gap) (by simp) last).trim_around front
      Text.allBlank_nil]
    exact uncomment_append trimmed clean (behind.append blank)

theorem take_congr {other : List Char} (same : trim line = trim other) (p : Progress) :
    p.take line = p.take other := by
  unfold Progress.take
  rw [same]

/-- A line that says nothing is passed over. -/
theorem take_of_quiet (quiet : IsQuiet line) (p : Progress) : p.take line = .ok p := by
  unfold Progress.take
  unfold IsQuiet at quiet
  cases visible : trim line with
  | nil => rfl
  | cons c rest =>
      rw [visible] at quiet
      obtain rfl := quiet c rfl
      rfl

/-- What a line is with a comment behind it. -/
theorem exists_commented (line text : List Char) :
    ∃ left gap tail right, AllBlank left ∧ AllBlank gap ∧ AllBlank right ∧
      (∀ c ∈ ('#' :: tail).getLast?, isBlank c = false) ∧
      commented line text = left ++ (trim line ++ gap ++ '#' :: tail) ++ right := by
  obtain ⟨left, behind, front, blank, whole⟩ := Text.exists_around_trim line
  obtain ⟨right, rest, cut⟩ := Text.trimEnd_append (' ' :: text)
  refine ⟨left, behind ++ [' '], Text.trimEnd (' ' :: text), right, front,
    blank.append (forall_mem_of_all rfl), rest, ?_, ?_⟩
  · have last := Text.last_of_trimEnd (' ' :: text)
    cases tail : Text.trimEnd (' ' :: text) with
    | nil => exact fun c here => by cases here; rfl
    | cons d more =>
        rw [tail] at last
        rwa [List.getLast?_cons_cons]
  · have sign : commented line text =
        line ++ ([' '] ++ '#' :: (Text.trimEnd (' ' :: text) ++ right)) := by
      rw [cut]
      simp [commented]
    rw [sign]
    conv_lhs => rw [whole]
    simp

/-- A comment behind a line that can be seen stays behind it. -/
theorem exists_trim_commented (visible : trim line ≠ []) (text : List Char) :
    ∃ gap tail, AllBlank gap ∧ (∀ c ∈ ('#' :: tail).getLast?, isBlank c = false) ∧
      trim (commented line text) = trim line ++ gap ++ '#' :: tail := by
  obtain ⟨left, gap, tail, right, front, blank, back, last, whole⟩ := exists_commented line text
  refine ⟨gap, tail, blank, last, ?_⟩
  rw [whole]
  exact ((Text.trimmed_trim line).append visible gap (by simp) last).trim_around front back

/-- A comment behind a blank line makes it a comment. -/
theorem isQuiet_commented (quiet : IsQuiet line) (text : List Char) :
    IsQuiet (commented line text) := by
  intro c first
  by_cases visible : trim line = []
  · obtain ⟨left, gap, tail, right, front, blank, back, last, whole⟩ := exists_commented line text
    have sign : Trimmed ('#' :: tail) := ⟨by simp; decide, last⟩
    rw [whole, visible, List.nil_append, ← List.append_assoc,
      sign.trim_around (front.append blank) back] at first
    exact (Option.some.inj first).symm
  · obtain ⟨gap, tail, -, -, same⟩ := exists_trim_commented visible text
    rw [same, List.append_assoc, List.head?_append_of_ne_nil _ visible] at first
    exact quiet c first

/-- A comment does not make a header, and does not make it something else. -/
theorem isHeader_commented_iff (text : List Char) :
    IsHeader (commented line text) ↔ IsHeader line := by
  unfold IsHeader
  by_cases visible : trim line = []
  · have quiet : IsQuiet line := by
      unfold IsQuiet
      rw [visible]
      simp
    rw [visible]
    constructor
    · intro header
      exact absurd (isQuiet_commented quiet text '[' header) (by decide)
    · nofun
  · obtain ⟨gap, tail, -, -, same⟩ := exists_trim_commented visible text
    rw [same, List.append_assoc, List.head?_append_of_ne_nil _ visible]

/-- What a line does is not changed by a comment behind it, unless it is a header. -/
theorem take_commented (plain : ¬ IsHeader line) (taken : p.take line = .ok q)
    (text : List Char) : p.take (commented line text) = .ok q := by
  by_cases quiet : IsQuiet line
  · rw [take_of_quiet (isQuiet_commented quiet text), ← take_of_quiet quiet p, taken]
  · cases seen : trim line with
    | nil =>
        unfold IsQuiet at quiet
        rw [seen] at quiet
        simp at quiet
    | cons c rest =>
        have noComment : c ≠ '#' := by
          rintro rfl
          unfold IsQuiet at quiet
          rw [seen] at quiet
          simp at quiet
        have noHeader : c ≠ '[' := by
          rintro rfl
          exact plain (by rw [IsHeader, seen]; rfl)
        have visible : trim line ≠ [] := by simp [seen]
        obtain ⟨gap, tail, blank, last, same⟩ := exists_trim_commented visible text
        rw [seen, List.append_assoc, List.cons_append, ← List.append_assoc] at same
        rw [take_key_line seen noComment noHeader] at taken
        rw [take_key_line same noComment noHeader]
        split at taken
        · cases taken
        · rename_i key value found
          split at taken
          · cases taken
          · rename_i setting known
            obtain ⟨config, assigned, done⟩ := (bind_eq_ok_iff ..).mp taken
            have more := keyValue?_append found (clean_of_assign assigned) blank last
            rw [List.cons_append, List.cons_append] at more
            rw [more]
            simp only [known, assigned]
            exact done

theorem group_plain (s : Setting) : '#' ∉ s.group.toList := by
  cases s <;> decide

/-- A header with a comment is refused: its last character is not its bracket, or there is more
than a name in the brackets. -/
theorem take_commentedHeader (commented : IsCommentedHeader line) (p : Progress) :
    p.take line = .error .invalidSection := by
  obtain ⟨header, member⟩ := commented
  have sign : '#' ∈ trim line := Text.mem_trim rfl member
  obtain ⟨rest, visible⟩ := List.head?_eq_some_iff.mp header
  rw [visible] at sign
  have inside : '#' ∈ rest := by simpa using sign
  have refused : readHeader ('[' :: rest) = .error .invalidSection := by
    unfold readHeader
    split
    · rename_i closed
      rw [if_neg]
      intro known
      obtain ⟨s, -, same⟩ := List.any_eq_true.mp known
      have name : s.group.toList = trim rest.dropLast := by
        rw [beq_iff_eq.mp same, String.toList_ofList]
        rfl
      refine group_plain s ?_
      rw [name]
      refine Text.mem_trim rfl ?_
      cases rest with
      | nil => cases inside
      | cons d more =>
          rw [List.getLast?_cons_cons] at closed
          rw [← List.dropLast_append_getLast? _ closed] at inside
          simpa using inside
    · rfl
  unfold Progress.take
  rw [visible]
  simp only [refused]
  rfl

end lines

section edits

/-- A line without the comment behind it if it is a header. -/
def mend (line : List Char) : List Char :=
  if IsHeader line then line.takeWhile (· ≠ '#') else line

variable {line text left right : List Char} {lines edited : List (List Char)} {p q : Progress}

/-- What has no comment in it goes on to its end. -/
theorem takeWhile_of_absent (absent : '#' ∉ line) : line.takeWhile (· ≠ '#') = line := by
  rw [List.takeWhile_eq_self_iff]
  intro c member
  rw [decide_eq_true_eq]
  rintro rfl
  exact absent member

theorem mend_of_plain (plain : ¬ IsCommentedHeader line) : mend line = line := by
  unfold mend
  split
  · rename_i header
    exact takeWhile_of_absent fun member => plain ⟨header, member⟩
  · rfl

theorem takeWhile_append_of_mem (member : '#' ∈ line) (more : List Char) :
    (line ++ more).takeWhile (· ≠ '#') = line.takeWhile (· ≠ '#') := by
  rw [List.takeWhile_append, if_neg]
  intro whole
  have all := (List.takeWhile_prefix fun c => decide (c ≠ '#')).eq_of_length whole
  have differs := List.takeWhile_eq_self_iff.mp all '#' member
  simp at differs

theorem takeWhile_append_of_absent (absent : '#' ∉ line) (more : List Char) :
    (line ++ more).takeWhile (· ≠ '#') = line ++ more.takeWhile (· ≠ '#') := by
  rw [List.takeWhile_append_of_pos]
  intro c member
  rw [decide_eq_true_eq]
  rintro rfl
  exact absent member

theorem trim_mend_padded (blank : AllBlank left) (alsoBlank : AllBlank right) :
    trim (mend (left ++ line ++ right)) = trim (mend line) := by
  have header_iff : IsHeader (left ++ line ++ right) ↔ IsHeader line := by
    unfold IsHeader
    rw [Text.trim_padded blank alsoBlank]
  unfold mend
  by_cases header : IsHeader line
  · rw [if_pos (header_iff.mpr header), if_pos header, List.append_assoc,
      takeWhile_append_of_absent (blank.absent rfl)]
    by_cases member : '#' ∈ line
    · have padded := Text.trim_padded blank Text.allBlank_nil (line.takeWhile (· ≠ '#'))
      rw [takeWhile_append_of_mem member]
      rwa [List.append_nil] at padded
    · rw [takeWhile_append_of_absent member, takeWhile_of_absent member,
        takeWhile_of_absent (alsoBlank.absent rfl), ← List.append_assoc]
      exact Text.trim_padded blank alsoBlank line
  · rw [if_neg fun other => header (header_iff.mp other), if_neg header]
    exact Text.trim_padded blank alsoBlank line

theorem trim_mend_commented (header : IsHeader line) (text : List Char) :
    trim (mend (commented line text)) = trim (mend line) := by
  unfold mend
  rw [if_pos ((isHeader_commented_iff text).mpr header), if_pos header]
  have sign : commented line text = line ++ ([' '] ++ '#' :: (' ' :: text)) := by
    simp [commented]
  rw [sign]
  by_cases member : '#' ∈ line
  · rw [takeWhile_append_of_mem member]
  · have space : AllBlank [' '] := forall_mem_of_all rfl
    have padded := Text.trim_padded Text.allBlank_nil space line
    rw [takeWhile_append_of_absent member, takeWhile_of_absent member]
    simpa using padded

/-- With its headers mended, a text is read to its end. -/
def Mends (lines : List (List Char)) (p : Progress) : Prop :=
  (lines.map mend).foldlM Progress.take {} = .ok p

/-- A line may be put in the place of another one that does no more than it. -/
theorem foldlM_replaced {start : Progress} {before after : List (List Char)} {other : List Char}
    (read : (before ++ line :: after).foldlM Progress.take start = .ok p)
    (same : ∀ first next, Progress.take first line = .ok next →
      Progress.take first other = .ok next) :
    (before ++ other :: after).foldlM Progress.take start = .ok p := by
  rw [List.foldlM_append] at read ⊢
  obtain ⟨first, front, back⟩ := (bind_eq_ok_iff ..).mp read
  refine (bind_eq_ok_iff ..).mpr ⟨first, front, ?_⟩
  rw [List.foldlM_cons] at back ⊢
  obtain ⟨next, taken, rest⟩ := (bind_eq_ok_iff ..).mp back
  exact (bind_eq_ok_iff ..).mpr ⟨next, same first next taken, rest⟩

/-- An edit does not change what is read of a text with its headers mended. -/
theorem Mends.edit (mends : Mends lines p) (edit : Edit lines edited) : Mends edited p := by
  unfold Mends at mends ⊢
  cases edit with
  | insert before after quiet =>
      rename_i line
      have plain : ¬ IsHeader line := by
        intro header
        exact absurd (quiet '[' header) (by decide)
      rw [List.map_append, List.foldlM_append] at mends ⊢
      obtain ⟨first, front, back⟩ := (bind_eq_ok_iff ..).mp mends
      refine (bind_eq_ok_iff ..).mpr ⟨first, front, ?_⟩
      rw [List.map_cons, List.foldlM_cons, mend_of_plain fun commented => plain commented.1,
        take_of_quiet quiet]
      exact back
  | pad before after line blank alsoBlank =>
      rw [List.map_append, List.map_cons] at mends ⊢
      refine foldlM_replaced mends fun first next taken => ?_
      rw [take_congr (trim_mend_padded blank alsoBlank), taken]
  | comment before after line text =>
      rw [List.map_append, List.map_cons] at mends ⊢
      refine foldlM_replaced mends fun first next taken => ?_
      by_cases header : IsHeader line
      · rw [take_congr (trim_mend_commented header text), taken]
      · have plain : ¬ IsHeader (commented line text) :=
          fun other => header ((isHeader_commented_iff text).mp other)
        rw [mend_of_plain fun commented => header commented.1] at taken
        rw [mend_of_plain fun commented => plain commented.1]
        exact take_commented header taken text

theorem Mends.edits (mends : Mends lines p) (edits : Relation.ReflTransGen Edit lines edited) :
    Mends edited p := by
  induction edits with
  | refl => exact mends
  | tail _ edit ih => exact ih.edit edit

theorem map_mend (plain : ∀ line ∈ lines, ¬ IsCommentedHeader line) : lines.map mend = lines :=
  (List.map_congr_left fun line member => mend_of_plain (plain line member)).trans
    (List.map_id' lines)

/-- A text that is read to its end has no commented header. -/
theorem plain_of_read {start : Progress} (read : lines.foldlM Progress.take start = .ok p) :
    ∀ line ∈ lines, ¬ IsCommentedHeader line := by
  induction lines generalizing start with
  | nil => nofun
  | cons first rest ih =>
      rw [List.foldlM_cons] at read
      obtain ⟨next, taken, later⟩ := (bind_eq_ok_iff ..).mp read
      intro line member
      rcases List.mem_cons.mp member with rfl | among
      · intro commented
        rw [take_commentedHeader commented] at taken
        cases taken
      · exact ih later line among

/-- Reading stops at the first commented header. -/
theorem Mends.refused {start : Progress}
    (mends : (lines.map mend).foldlM Progress.take start = .ok p)
    (commented : ∃ line ∈ lines, IsCommentedHeader line) :
    lines.foldlM Progress.take start = .error .invalidSection := by
  induction lines generalizing start with
  | nil =>
      obtain ⟨line, member, -⟩ := commented
      cases member
  | cons first rest ih =>
      rw [List.map_cons, List.foldlM_cons] at mends
      obtain ⟨next, taken, later⟩ := (bind_eq_ok_iff ..).mp mends
      rw [List.foldlM_cons]
      by_cases here : IsCommentedHeader first
      · rw [take_commentedHeader here]
        rfl
      · rw [mend_of_plain here] at taken
        rw [taken]
        obtain ⟨line, member, header⟩ := commented
        rcases List.mem_cons.mp member with rfl | among
        · exact absurd header here
        · exact ih later ⟨line, among, header⟩

end edits

end ConfigText

namespace BoardConfig

open ConfigText (Progress Edited IsCommentedHeader Mends)

/-- A text is read as a board that can be run when its lines are. -/
theorem ofText_eq_ok_iff {text : String} {c : BoardConfig} : ofText text = .ok c ↔
    ∃ p : Progress, (Text.lines text.toList).foldlM Progress.take {} = .ok p ∧
      p.config = c ∧ c.validate = .ok () := by
  unfold ofText ofChars
  constructor
  · intro read
    obtain ⟨p, lines, checked⟩ := (bind_eq_ok_iff ..).mp read
    obtain ⟨⟨⟩, valid, same⟩ := (bind_eq_ok_iff ..).mp checked
    obtain rfl := Except.ok.inj same
    exact ⟨p, lines, rfl, valid⟩
  · rintro ⟨p, lines, rfl, valid⟩
    refine (bind_eq_ok_iff ..).mpr ⟨p, lines, ?_⟩
    exact (bind_eq_ok_iff ..).mpr ⟨(), valid, rfl⟩

/-- The pins of a board that can be run are there, and they differ. -/
theorem pins_of_validate {c : BoardConfig} (valid : c.validate = .ok ()) :
    (∀ gpio ∈ c.pins, gpio < pinCount) ∧ c.pins.Nodup := by
  unfold validate at valid
  split at valid
  · cases valid
  · rename_i fine
    exact ⟨Decidable.not_not.mp (not_or.mp fine).1, Decidable.not_not.mp (not_or.mp fine).2⟩

/-- Blank lines, comments and blanks at the ends of lines do not change what a text is read as,
unless there is a comment behind the header of a section: then the text is refused. -/
theorem ofText_edited {text edited : String} {c : BoardConfig} (reads : ofText text = .ok c)
    (edits : Edited text edited) :
    ((∀ line ∈ Text.lines edited.toList, ¬ IsCommentedHeader line) → ofText edited = .ok c) ∧
      ((∃ line ∈ Text.lines edited.toList, IsCommentedHeader line) →
        ofText edited = .error .invalidSection) := by
  obtain ⟨p, lines, rfl, valid⟩ := ofText_eq_ok_iff.mp reads
  have mends : Mends (Text.lines edited.toList) p := by
    refine Mends.edits ?_ edits
    unfold Mends
    rw [ConfigText.map_mend (ConfigText.plain_of_read lines)]
    exact lines
  constructor
  · intro plain
    unfold Mends at mends
    rw [ConfigText.map_mend plain] at mends
    exact ofText_eq_ok_iff.mpr ⟨p, mends, rfl, valid⟩
  · intro commented
    unfold ofText ofChars
    rw [Mends.refused mends commented]
    rfl

/-- A comment in front, blanks around a header, a comment behind a comment, a blank line, and one
behind a number. -/
theorem ofText_edited_board :
    let text := "[relay]\npin = \"!gpio7\" # driver\n[ui]\nsplash_ms = 0"
    let edited := "# Board\r\n [relay]\t\r\npin = \"!gpio7\" # driver # of the \"load\"\r\n\r\n" ++
      "[ui]\r\nsplash_ms = 0 # none\r\n"
    ofText text = .ok { relay := ⟨7, true⟩, splashMs := 0 } ∧ Edited text edited ∧
      (∀ line ∈ Text.lines edited.toList, ¬ IsCommentedHeader line) ∧
      ofText edited = .ok { relay := ⟨7, true⟩, splashMs := 0 } := by
  intro text edited
  let relay := "[relay]".toList
  let pin := "pin = \"!gpio7\" # driver".toList
  let ui := "[ui]".toList
  let splash := "splash_ms = 0".toList
  let padded := " ".toList ++ relay ++ "\t".toList
  let driver := ConfigText.commented pin "of the \"load\"".toList
  let board := "# Board".toList
  have before : Text.lines text.toList = [relay, pin, ui, splash] := by decide +kernel
  have after : Text.lines edited.toList =
      [board, padded, driver, [], ui, ConfigText.commented splash "none".toList] := by
    decide +kernel
  have reads : ofText text = .ok { relay := ⟨7, true⟩, splashMs := 0 } := by decide +kernel
  have edits : Edited text edited := by
    have noted : ConfigText.IsQuiet board := by
      intro c first
      exact (Option.some.inj first).symm
    have blank : ConfigText.IsQuiet [] := nofun
    unfold Edited
    rw [before, after]
    exact .head (.insert [] [relay, pin, ui, splash] noted) <|
      .head (.pad [board] [pin, ui, splash] relay (forall_mem_of_all rfl) (forall_mem_of_all rfl)) <|
      .head (.comment [board, padded] [ui, splash] pin _) <|
      .head (.insert [board, padded, driver] [ui, splash] blank) <|
      .single (.comment [board, padded, driver, [], ui] [] splash _)
  have plain : ∀ line ∈ Text.lines edited.toList, ¬ IsCommentedHeader line := by decide +kernel
  exact ⟨reads, edits, plain, (ofText_edited reads edits).1 plain⟩

/-- The header of the relay's section with a comment behind it is refused. -/
theorem commented_header_refused :
    let text := "[relay]\npin = \"gpio7\"\n"
    let edited := "[relay] # driver\npin = \"gpio7\"\n"
    ofText text = .ok { relay := ⟨7, false⟩ } ∧ Edited text edited ∧
      ofText edited = .error .invalidSection := by
  intro text edited
  let relay := "[relay]".toList
  let pin := "pin = \"gpio7\"".toList
  have before : Text.lines text.toList = [relay, pin] := by decide +kernel
  have after : Text.lines edited.toList = [ConfigText.commented relay "driver".toList, pin] := by
    decide +kernel
  refine ⟨by decide +kernel, ?_, by decide +kernel⟩
  unfold Edited
  rw [before, after]
  exact .single (.comment [] [pin] relay _)

end BoardConfig

end RelayTimer
