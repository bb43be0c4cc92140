import Mathlib.Data.List.Forall2
import RelayTimer.Text.Box

set_option autoImplicit false

/-!
A message in a box. As long as no line that is too long is cut in the middle of a character, there is
a line of the box for each line of the message, and all lines of the box are equally long, whatever
the bytes and the characters of the message. A line that is cut in the middle of a character leaves
nothing of the box.
-/
namespace RelayTimer.Text

/-- A character of the text lies across the end of its first `size` bytes. -/
def Across (size : Nat) (text : List Char) : Prop :=
  ∃ before c after, text = before ++ c :: after ∧ byteLength before < size ∧
    size < byteLength before + c.utf8Size

theorem not_across_nil (size : Nat) : ¬ Across size [] := by
  rintro ⟨before, c, after, whole, -, -⟩
  cases before <;> cases whole

/-- A first character that fits does not lie across. -/
theorem across_cons_of_fits {size : Nat} {c : Char} (rest : List Char) (fits : c.utf8Size ≤ size) :
    Across size (c :: rest) ↔ Across (size - c.utf8Size) rest := by
  constructor
  · rintro ⟨before, d, after, whole, short, long⟩
    cases before with
    | nil =>
        obtain ⟨rfl, -⟩ := List.cons_eq_cons.mp whole
        simp only [byteLength] at long
        omega
    | cons first others =>
        obtain ⟨rfl, rfl⟩ := List.cons_eq_cons.mp whole
        simp only [byteLength] at short long
        exact ⟨others, d, after, rfl, by omega, by omega⟩
  · rintro ⟨before, d, after, rfl, short, long⟩
    refine ⟨c :: before, d, after, rfl, ?_, ?_⟩
    · simp only [byteLength]
      omega
    · simp only [byteLength]
      omega

theorem across_cons_of_large {size : Nat} {c : Char} (rest : List Char) (large : size < c.utf8Size) :
    Across size (c :: rest) ↔ 0 < size := by
  constructor
  · rintro ⟨before, d, after, -, short, -⟩
    omega
  · intro room
    exact ⟨[], c, rest, rfl, room, by simpa only [byteLength, Nat.zero_add] using large⟩

/-- A beginning of a text is as long as it was to be, unless a character is in the way. -/
theorem byteLength_cut_eq_iff (size : Nat) (text : List Char) :
    byteLength (cut size text) = min size (byteLength text) ↔ ¬ Across size text := by
  induction text generalizing size with
  | nil => simp [cut, byteLength, not_across_nil]
  | cons c rest ih =>
      by_cases fits : c.utf8Size ≤ size
      · rw [across_cons_of_fits rest fits, ← ih, cut, if_pos fits]
        simp only [byteLength]
        omega
      · rw [across_cons_of_large rest (by omega), cut, if_neg fits]
        simp only [byteLength]
        omega

namespace Box

variable {line shown side : List Char}

/-- A line is too long, and it cannot be cut where it would be. -/
def CutsCharacter (line : List Char) : Prop := width < byteLength line ∧ Across keptBytes line

/-- What stands in the box for a line: the line, or if that is too long its beginning and three
dots. -/
inductive Shows (line : List Char) : List Char → Prop
  | whole (fits : byteLength line ≤ width) : Shows line line
  | begun {kept : List Char} (long : width < byteLength line) (begins : kept <+: line)
      (full : byteLength kept = keptBytes) : Shows line (kept ++ "...".toList)

/-- A line of the box has an edge at either end and is filled up with blanks. -/
def Frames (line side : List Char) : Prop :=
  ∃ shown blanks, Shows line shown ∧ shown.length + blanks = width ∧
    side = "║  ".toList ++ shown ++ List.replicate blanks ' ' ++ " ║".toList

theorem shorten?_eq_none_iff : shorten? line = none ↔ CutsCharacter line := by
  unfold shorten? CutsCharacter
  by_cases long : width < byteLength line
  · have cuts := byteLength_cut_eq_iff keptBytes line
    rw [if_pos long, Option.map_eq_none_iff, firstBytes?, ite_eq_right_iff]
    simp only [reduceCtorEq, imp_false, long, true_and]
    rw [cuts, not_not]
  · simp only [long, ↓reduceIte, reduceCtorEq, false_and]

theorem shows_of_shorten? (cut : shorten? line = some shown) : Shows line shown := by
  unfold shorten? at cut
  split at cut
  · rename_i long
    obtain ⟨kept, found, rfl⟩ := Option.map_eq_some_iff.mp cut
    unfold firstBytes? at found
    split at found
    · rename_i whole
      cases found
      have begins := cut_prefix line keptBytes
      refine .begun long begins ?_
      have most : keptBytes ≤ byteLength line := Nat.le_trans (by decide) (Nat.le_of_lt long)
      rw [whole, Nat.min_eq_left most]
    · cases found
  · rename_i fits
    cases cut
    exact .whole (Nat.le_of_not_lt fits)

/-- What is shown fits by its characters, since it does by its bytes. -/
theorem Shows.length_le (shows : Shows line shown) : shown.length ≤ width := by
  cases shows with
  | whole fits => exact Nat.le_trans (length_le_byteLength line) fits
  | @begun kept _ _ full =>
      have few := length_le_byteLength kept
      rw [full] at few
      have dots : "...".toList.length = 3 := rfl
      rw [List.length_append, dots]
      exact Nat.add_le_add_right few 3

theorem Shows.frames (shows : Shows line shown) : Frames line (Box.side shown) :=
  ⟨shown, width - shown.length, shows, Nat.add_sub_cancel' shows.length_le, rfl⟩

theorem Frames.length (frames : Frames line side) : side.length = width + 5 := by
  obtain ⟨shown, blanks, -, full, rfl⟩ := frames
  have edges : "║  ".toList.length = 3 ∧ " ║".toList.length = 2 := ⟨rfl, rfl⟩
  simp only [List.length_append, List.length_replicate, edges]
  omega

theorem Frames.getLast? (frames : Frames line side) : side.getLast? = some '║' := by
  obtain ⟨shown, blanks, -, -, rfl⟩ := frames
  rw [List.getLast?_append]
  rfl

theorem Frames.newline_notMem (frames : Frames line side) (single : '\n' ∉ line) : '\n' ∉ side := by
  obtain ⟨shown, blanks, shows, -, rfl⟩ := frames
  have inside : '\n' ∉ shown := by
    cases shows with
    | whole => exact single
    | begun _ begins _ =>
        rw [List.mem_append, not_or]
        exact ⟨fun member => single (begins.subset member), by decide⟩
  have blank : '\n' ∉ List.replicate blanks ' ' := fun member =>
    absurd (List.eq_of_mem_replicate member) (by decide)
  simp only [List.mem_append, not_or]
  exact ⟨⟨⟨by decide, inside⟩, blank⟩, by decide⟩

/-- Each line of a message gets its line of the box, or the whole message gets none. -/
theorem mapM_side_cases (message : List (List Char)) :
    (∃ line ∈ message, CutsCharacter line) ∧
        message.mapM (fun line => (shorten? line).map Box.side) = none ∨
      (∀ line ∈ message, ¬ CutsCharacter line) ∧
        ∃ sides, message.mapM (fun line => (shorten? line).map Box.side) = some sides ∧
          List.Forall₂ Frames message sides := by
  induction message with
  | nil => exact .inr ⟨nofun, [], rfl, .nil⟩
  | cons line rest ih =>
      rw [List.mapM_cons]
      cases first : shorten? line with
      | none => exact .inl ⟨⟨line, List.mem_cons_self, shorten?_eq_none_iff.mp first⟩, rfl⟩
      | some shown =>
          have uncut : ¬ CutsCharacter line := fun cuts => by
            rw [shorten?_eq_none_iff.mpr cuts] at first
            cases first
          rcases ih with ⟨⟨bad, member, cuts⟩, refused⟩ | ⟨clean, sides, found, frames⟩
          · rw [refused]
            exact .inl ⟨⟨bad, List.mem_cons_of_mem _ member, cuts⟩, rfl⟩
          · rw [found]
            exact .inr ⟨List.forall_mem_cons.mpr ⟨uncut, clean⟩, Box.side shown :: sides, rfl,
              .cons (shows_of_shorten? first).frames frames⟩

/-- A message has its box unless one of its lines is too long and a character lies across the place
where that line is cut. A box has a line for each line of the message, in their order, and its lines
are equally long in characters. -/
theorem around?_straight (message : List Char) :
    (around? message = none ↔ ∃ line ∈ lines message, CutsCharacter line) ∧
    ∀ box, around? message = some box →
      List.Forall₂ Frames (lines message) (lines box) ∧ ∀ side ∈ lines box, side.length = width + 5 := by
  rcases mapM_side_cases (lines message) with ⟨cuts, refused⟩ | ⟨clean, sides, found, frames⟩
  · have broken : around? message = none := by rw [around?, refused]; rfl
    refine ⟨iff_of_true broken cuts, fun box whole => ?_⟩
    rw [broken] at whole
    cases whole
  · have whole : around? message = some (['\n'].intercalate sides) := by rw [around?, found]; rfl
    have framed : ∀ side ∈ sides, ∃ line ∈ lines message, Frames line side := by
      intro side member
      obtain ⟨i, inside, rfl⟩ := List.getElem_of_mem member
      have before : i < (lines message).length := frames.length_eq ▸ inside
      exact ⟨(lines message)[i], List.getElem_mem before, frames.get before inside⟩
    have split : lines (['\n'].intercalate sides) = sides := by
      refine lines_intercalate (fun side member => ?_) (fun side member => ?_) fun side member => ?_
      · obtain ⟨line, -, frames⟩ := framed side member
        rintro rfl
        cases frames.getLast?
      · obtain ⟨line, inMessage, frames⟩ := framed side member
        exact frames.newline_notMem (newline_notMem_of_mem_lines inMessage)
      · obtain ⟨line, -, frames⟩ := framed side member
        rw [frames.getLast?]
        decide
    refine ⟨iff_of_false ?_ ?_, fun box same => ?_⟩
    · rw [whole]
      nofun
    · rintro ⟨line, member, cuts⟩
      exact clean line member cuts
    · obtain rfl := Option.some.inj (whole.symm.trans same)
      rw [split]
      refine ⟨frames, fun side member => ?_⟩
      obtain ⟨line, -, frames⟩ := framed side member
      exact frames.length

/-- An error in a configuration is told with the line that it is in. If an accent of that line is in
the way, nothing is told. -/
theorem around?_accent : around? ("TOML parse error at line 6, column 7\n  |\n" ++
    "6 | pin = gpio23 # relay of the fountain pump behind the café, NO\n  |       ^\n").toList =
    none := by
  decide +kernel

end Box

end RelayTimer.Text
