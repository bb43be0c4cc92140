import Mathlib.Data.List.TakeWhile
import RelayTimer.Proofs.ReadingPrograms
import RelayTimer.Proofs.StoredRecord
import RelayTimer.Text.Blank

set_option autoImplicit false

/-!
A line that reads as a program still does so without the blanks at its ends, and a record holds it
as it is if there is room for it.
-/
namespace RelayTimer

namespace Text

/-- No word goes on past a separator. -/
theorem words_append_separator_cons {separator : Char} (separates : isSeparator separator = true)
    (front rest : List Char) : words (front ++ separator :: rest) = words front ++ words rest := by
  unfold words
  rw [List.splitOnP_append_cons front rest separates, List.filter_append]

/-- Separators at the beginning of a line. -/
theorem words_separators_append {gap : List Char} (separate : ∀ c ∈ gap, isSeparator c = true)
    (rest : List Char) : words (gap ++ rest) = words rest := by
  induction gap with
  | nil => rfl
  | cons c others ih =>
      rw [List.cons_append, words_separator (separate c List.mem_cons_self)]
      exact ih fun other member => separate other (List.mem_cons_of_mem _ member)

/-- Separators at the end of a line. -/
theorem words_append_separators (front : List Char) {gap : List Char}
    (separate : ∀ c ∈ gap, isSeparator c = true) : words (front ++ gap) = words front := by
  cases gap with
  | nil => rw [List.append_nil]
  | cons c others =>
      have rest : ∀ other ∈ others, isSeparator other = true :=
        fun other member => separate other (List.mem_cons_of_mem _ member)
      have empty := words_separators_append rest []
      rw [List.append_nil] at empty
      rw [words_append_separator_cons (separate c List.mem_cons_self), empty]
      exact List.append_nil _

theorem trimEnd_append (text : List Char) :
    ∃ gap, (∀ c ∈ gap, isBlank c = true) ∧ trimEnd text ++ gap = text := by
  refine ⟨(text.reverse.takeWhile isBlank).reverse, ?_, ?_⟩
  · intro c member
    exact List.all_eq_true.mp List.all_takeWhile c (List.mem_reverse.mp member)
  · unfold trimEnd
    rw [← List.reverse_append, List.takeWhile_append_dropWhile, List.reverse_reverse]

/-- Where all blanks are separators, it is all the same whether a line is trimmed before it is cut
into words. -/
theorem words_trim {line : List Char} (separate : ∀ c ∈ line, isBlank c = true → isSeparator c = true) :
    words (trim line) = words line := by
  have whole : line.takeWhile isBlank ++ line.dropWhile isBlank = line :=
    List.takeWhile_append_dropWhile
  obtain ⟨gap, blank, behind⟩ := trimEnd_append (line.dropWhile isBlank)
  have inside (c : Char) (member : c ∈ gap) : c ∈ line := by
    rw [← whole, ← behind]
    simp [member]
  calc words (trim line)
      = words (trimEnd (line.dropWhile isBlank) ++ gap) :=
        (words_append_separators _ fun c member =>
          separate c (inside c member) (blank c member)).symm
    _ = words (line.dropWhile isBlank) := by rw [behind]
    _ = words (line.takeWhile isBlank ++ line.dropWhile isBlank) := by
        refine (words_separators_append ?_ _).symm
        intro c member
        refine separate c ?_ (List.all_eq_true.mp List.all_takeWhile c member)
        rw [← whole]
        exact List.mem_append_left _ member
    _ = words line := by rw [whole]

/-- What is no separator is in some word. -/
theorem exists_word_of_mem {line : List Char} {c : Char} (member : c ∈ line)
    (unbroken : isSeparator c = false) : ∃ word ∈ words line, c ∈ word := by
  induction line using cutting_induction with
  | nil => cases member
  | separator first rest separates ih =>
      rw [words_separator separates]
      rcases List.mem_cons.mp member with rfl | later
      · rw [separates] at unbroken
        cases unbroken
      · exact ih later
  | word word back isWord ends ih =>
      rw [words_word_append isWord ends]
      rcases List.mem_append.mp member with here | later
      · exact ⟨word, List.mem_cons_self, here⟩
      · obtain ⟨other, among, inside⟩ := ih later
        exact ⟨other, List.mem_cons_of_mem _ among, inside⟩

theorem utf8ByteSize_ofList (text : List Char) :
    (String.ofList text).utf8ByteSize = byteLength text := by
  rw [← length_utf8, ← String.size_toByteArray, String.toByteArray_ofList, List.utf8Encode,
    List.size_toByteArray]
  rfl

/-- The character is neither a blank nor NUL. -/
def IsPlain (c : Char) : Prop := isBlank c = false ∧ c ≠ '\x00'

instance (c : Char) : Decidable (IsPlain c) := inferInstanceAs (Decidable (_ ∧ _))

theorem isPlain_of_isDigit {c : Char} (digit : c.isDigit = true) : IsPlain c := by
  simp only [Char.isDigit, Bool.and_eq_true, decide_eq_true_eq] at digit
  have low : 48 ≤ c.toNat := UInt32.le_iff_toNat_le.mp digit.1
  have high : c.toNat ≤ 57 := UInt32.le_iff_toNat_le.mp digit.2
  refine ⟨?_, ?_⟩
  · unfold isBlank
    simp
    omega
  · rintro rfl
    cases low

theorem utf8Size_of_isDigit {c : Char} (digit : c.isDigit = true) : c.utf8Size = 1 := by
  simp only [Char.isDigit, Bool.and_eq_true, decide_eq_true_eq] at digit
  have high : c.toNat ≤ 57 := UInt32.le_iff_toNat_le.mp digit.2
  rw [Char.utf8Size_eq_one_iff, UInt32.le_iff_toNat_le]
  exact Nat.le_trans high (by decide)

theorem byteLength_of_narrow {text : List Char} (narrow : ∀ c ∈ text, c.utf8Size = 1) :
    byteLength text = text.length := by
  induction text with
  | nil => rfl
  | cons c rest ih =>
      rw [byteLength, narrow c List.mem_cons_self,
        ih fun d member => narrow d (List.mem_cons_of_mem _ member), List.length_cons, Nat.add_comm]

theorem byteLength_digits {digits : List Char} (decimal : ∀ c ∈ digits, c.isDigit = true) :
    byteLength digits = digits.length :=
  byteLength_of_narrow fun c member => utf8Size_of_isDigit (decimal c member)

/-- A letter is plain, small or capital. -/
theorem isPlain_of_toLower {c : Char} (low : 97 ≤ c.toLower.toNat) (high : c.toLower.toNat ≤ 122) :
    IsPlain c := by
  have letter : 65 ≤ c.toNat ∧ c.toNat ≤ 122 := by
    by_cases capital : 'A'.val ≤ c.val ∧ c.val ≤ 'Z'.val
    · have first : 65 ≤ c.toNat := UInt32.le_iff_toNat_le.mp capital.1
      have last : c.toNat ≤ 90 := UInt32.le_iff_toNat_le.mp capital.2
      omega
    · have same : c.toLower = c := dif_neg capital
      rw [same] at low high
      omega
  refine ⟨?_, ?_⟩
  · unfold isBlank
    simp
    omega
  · rintro rfl
    cases letter.1

end Text

open Text (IsPlain)

/-- A word of a program has plain characters only. -/
theorem Spells.isPlain {word : List Char} {item : Item} (spelled : Spells word item) :
    ∀ c ∈ word, IsPlain c := by
  have letters {word full : List Char} (begins : word.map Char.toLower <+: full)
      (small : full.all fun d => 97 ≤ d.toNat ∧ d.toNat ≤ 122) : ∀ c ∈ word, IsPlain c := by
    intro c member
    have within := List.all_eq_true.mp small _ (begins.mem (List.mem_map_of_mem member))
    obtain ⟨low, high⟩ := of_decide_eq_true within
    exact Text.isPlain_of_toLower low high
  intro c member
  cases spelled with
  | @time digits suffix scale nonempty decimal unit =>
      rcases List.mem_append.mp member with digit | named
      · exact Text.isPlain_of_isDigit (decimal c digit)
      · have units : timeUnits.all fun u => u.1.all fun c => IsPlain c := by decide
        have plain := List.all_eq_true.mp (List.all_eq_true.mp units _ unit) c named
        exact of_decide_eq_true plain
  | opens _ begins => exact letters begins (by decide) c member
  | closes _ begins => exact letters begins (by decide) c member
  | loops =>
      rw [List.mem_singleton.mp member]
      decide

namespace Request

/-- But for separators a line that reads as a program has plain characters only. -/
theorem isPlain_of_program {line : List Char} {p : Program}
    (reads : ofChars line = .ok (.program p)) {c : Char} (member : c ∈ line)
    (unbroken : Text.isSeparator c = false) : IsPlain c := by
  obtain ⟨items, spelled, -⟩ := (program_iff_spelled line p).mp reads
  obtain ⟨word, among, inside⟩ := Text.exists_word_of_mem member unbroken
  have each : ∀ word ∈ Text.words line, ∀ c ∈ word, IsPlain c := by
    generalize Text.words line = words at spelled
    induction spelled with
    | nil => simp
    | cons here _ ih =>
        rw [List.forall_mem_cons]
        exact ⟨here.isPlain, ih⟩
  exact each word among c inside

/-- A line that reads as a program does so without the blanks at its ends. -/
theorem program_trim {line : List Char} {p : Program} (reads : ofChars line = .ok (.program p)) :
    ofChars (Text.trim line) = .ok (.program p) := by
  obtain ⟨items, spelled, sentence, program⟩ := (program_iff_spelled line p).mp reads
  have separate : ∀ c ∈ line, Text.isBlank c = true → Text.isSeparator c = true := by
    intro c member blank
    apply Decidable.byContradiction
    intro unbroken
    have plain := isPlain_of_program reads member (by simpa using unbroken)
    rw [plain.1] at blank
    cases blank
  refine (program_iff_spelled _ p).mpr ⟨items, ?_, sentence, program⟩
  rw [Text.words_trim separate]
  exact spelled

/-- A record holds a line that reads as a program as it is. -/
theorem storedText_of_program {line : List Char} {p : Program}
    (reads : ofChars line = .ok (.program p))
    (fits : (String.ofList line).utf8ByteSize ≤ textRoom) :
    storedText (String.ofList line) = String.ofList line := by
  have visible : ∀ c ∈ line, decide (c ≠ '\x00') = true := by
    intro c member
    rw [decide_eq_true_eq]
    rintro rfl
    exact (isPlain_of_program reads member rfl).2 rfl
  rw [Text.utf8ByteSize_ofList] at fits
  unfold storedText
  rw [String.toList_ofList, List.takeWhile_eq_self_iff.mpr visible, Text.cut_eq_self _ _ fits]

/-- A record holds a program as it was typed, but for the blanks at its ends. -/
theorem storedText_trim {line : List Char} {p : Program} (reads : ofChars line = .ok (.program p))
    (fits : (String.ofList (Text.trim line)).utf8ByteSize ≤ textRoom) :
    storedText (String.ofList (Text.trim line)) = String.ofList (Text.trim line) :=
  storedText_of_program (program_trim reads) fits

end Request

end RelayTimer
