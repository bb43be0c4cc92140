import Mathlib.Data.List.TakeWhile
import RelayTimer.Proofs.TrimmedLine

set_option autoImplicit false

/-!
Text and the blanks around it: what trimming takes away is blank, and what it leaves neither begins
nor ends with a blank.
-/
namespace RelayTimer.Text

/-- Nothing but blanks. -/
def AllBlank (gap : List Char) : Prop := ∀ c ∈ gap, isBlank c = true

/-- Text with no blank at either end. -/
structure Trimmed (text : List Char) : Prop where
  first : ∀ c ∈ text.head?, isBlank c = false
  last : ∀ c ∈ text.getLast?, isBlank c = false

variable {text left right gap : List Char}

theorem allBlank_nil : AllBlank [] := by
  intro c member
  cases member

theorem AllBlank.append (blank : AllBlank left) (alsoBlank : AllBlank right) :
    AllBlank (left ++ right) := by
  intro c member
  rcases List.mem_append.mp member with inLeft | inRight
  · exact blank c inLeft
  · exact alsoBlank c inRight

theorem AllBlank.absent (blank : AllBlank gap) {c : Char} (visible : isBlank c = false) :
    c ∉ gap := by
  intro member
  rw [blank c member] at visible
  cases visible

theorem dropWhile_isBlank (first : ∀ c ∈ text.head?, isBlank c = false) :
    text.dropWhile isBlank = text := by
  cases text with
  | nil => rfl
  | cons c rest => rw [List.dropWhile_cons_of_neg (by simp [first c rfl])]

theorem first_of_dropWhile (text : List Char) :
    ∀ c ∈ (text.dropWhile isBlank).head?, isBlank c = false := by
  intro c here
  have stopped := List.head?_dropWhile_not isBlank text
  rw [Option.mem_def.mp here] at stopped
  exact stopped

theorem last_of_trimEnd (text : List Char) : ∀ c ∈ (trimEnd text).getLast?, isBlank c = false := by
  unfold trimEnd
  rw [List.getLast?_reverse]
  exact first_of_dropWhile text.reverse

theorem trimEnd_append_gap (blank : AllBlank gap) (text : List Char) :
    trimEnd (text ++ gap) = trimEnd text := by
  unfold trimEnd
  rw [List.reverse_append, List.dropWhile_append_of_pos]
  intro c member
  exact blank c (List.mem_reverse.mp member)

/-- Text that neither begins nor ends with a blank is trimmed. -/
theorem Trimmed.trim (trimmed : Trimmed text) : trim text = text := by
  unfold Text.trim trimEnd
  rw [dropWhile_isBlank trimmed.first, dropWhile_isBlank (by simpa using trimmed.last),
    List.reverse_reverse]

theorem trimmed_trim (text : List Char) : Trimmed (trim text) where
  first := by
    intro c here
    obtain ⟨gap, -, whole⟩ := trimEnd_append (text.dropWhile isBlank)
    have head := first_of_dropWhile text c
    rw [← whole, List.head?_append] at head
    exact head (by rw [← Text.trim, Option.mem_def.mp here]; rfl)
  last := last_of_trimEnd _

/-- Trimming takes blanks away. -/
theorem exists_around_trim (text : List Char) :
    ∃ left right, AllBlank left ∧ AllBlank right ∧ text = left ++ trim text ++ right := by
  obtain ⟨right, blank, behind⟩ := trimEnd_append (text.dropWhile isBlank)
  refine ⟨text.takeWhile isBlank, right, ?_, blank, ?_⟩
  · intro c member
    exact List.all_eq_true.mp List.all_takeWhile c member
  · rw [List.append_assoc, Text.trim, behind, List.takeWhile_append_dropWhile]

/-- Trimming takes away the blanks around text that is trimmed. -/
theorem Trimmed.trim_around (trimmed : Trimmed text) (before : AllBlank left)
    (behind : AllBlank right) : Text.trim (left ++ text ++ right) = text := by
  cases text with
  | nil =>
      have gone : (left ++ [] ++ right).dropWhile isBlank = [] := by
        rw [List.append_nil, List.dropWhile_eq_nil_iff]
        exact before.append behind
      rw [Text.trim, gone]
      rfl
  | cons c rest =>
      have front : (left ++ (c :: rest) ++ right).dropWhile isBlank = c :: rest ++ right := by
        rw [List.append_assoc, List.dropWhile_append_of_pos before]
        exact dropWhile_isBlank trimmed.first
      rw [Text.trim, front, trimEnd_append_gap behind]
      have whole := trimmed.trim
      rwa [Text.trim, dropWhile_isBlank trimmed.first] at whole

/-- Something that can be seen behind trimmed text. -/
theorem Trimmed.append (trimmed : Trimmed text) (nonempty : text ≠ []) (gap : List Char)
    {tail : List Char} (visible : tail ≠ []) (last : ∀ c ∈ tail.getLast?, isBlank c = false) :
    Trimmed (text ++ gap ++ tail) where
  first := by
    rw [List.append_assoc, List.head?_append_of_ne_nil _ nonempty]
    exact trimmed.first
  last := by
    rw [List.getLast?_append_of_ne_nil _ visible]
    exact last

/-- More blanks around text make no difference. -/
theorem trim_padded (before : AllBlank left) (behind : AllBlank right) (text : List Char) :
    trim (left ++ text ++ right) = trim text := by
  obtain ⟨front, back, blank, alsoBlank, whole⟩ := exists_around_trim text
  have more : left ++ text ++ right = (left ++ front) ++ trim text ++ (back ++ right) := by
    conv_lhs => rw [whole]
    simp only [List.append_assoc]
  rw [more]
  exact (trimmed_trim text).trim_around (before.append blank) (alsoBlank.append behind)

theorem mem_trim {c : Char} (visible : isBlank c = false) (member : c ∈ text) : c ∈ trim text := by
  obtain ⟨left, right, before, behind, whole⟩ := exists_around_trim text
  rw [whole] at member
  rcases List.mem_append.mp member with front | back
  · exact (List.mem_append.mp front).resolve_left (before.absent visible)
  · exact absurd back (behind.absent visible)

end RelayTimer.Text
