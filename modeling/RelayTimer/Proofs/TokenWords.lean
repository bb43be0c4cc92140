import RelayTimer.Text.Token

set_option autoImplicit false

/-!
The tokens of a line are its words, and words with a space between two of them are the words of
their line again.
-/
namespace RelayTimer.Text

/-- The longest pieces of a line without a space or a comma. -/
def words (line : List Char) : List (List Char) :=
  (line.splitOnP isSeparator).filter fun piece => !piece.isEmpty

/-- Text that is a word by itself: there is some, and no separator is in it. -/
structure IsWord (text : List Char) : Prop where
  nonempty : text ≠ []
  unbroken : ∀ c ∈ text, isSeparator c = false

theorem words_separator {separator : Char} (separates : isSeparator separator = true)
    (rest : List Char) : words (separator :: rest) = words rest := by
  unfold words
  rw [List.splitOnP_cons_eq_if_modifyHead, if_pos separates]
  rfl

/-- A word ends where a separator follows, or nothing. -/
theorem words_word_append {word rest : List Char} (isWord : IsWord word)
    (ends : ∀ c ∈ rest.head?, isSeparator c = true) :
    words (word ++ rest) = word :: words rest := by
  have kept (pieces : List (List Char)) : (word :: pieces).filter (fun piece => !piece.isEmpty) =
      word :: pieces.filter fun piece => !piece.isEmpty :=
    List.filter_cons_of_pos (by simpa using isWord.nonempty)
  cases rest with
  | nil =>
      unfold words
      rw [List.append_nil, List.splitOnP_eq_singleton isWord.unbroken, kept]
      rfl
  | cons separator later =>
      have separates := ends separator rfl
      rw [words_separator separates]
      unfold words
      rw [List.splitOnP_append_cons_of_forall_mem isWord.unbroken separator separates, kept]

theorem tokensFrom_separator {separator : Char} (separates : isSeparator separator = true)
    (offset : Nat) (rest : List Char) :
    tokensFrom offset (separator :: rest) = tokensFrom (offset + 1) rest := by
  rw [tokensFrom, if_pos separates]

theorem tokensFrom_word {word back : List Char} (isWord : IsWord word)
    (ends : ∀ c ∈ back.head?, isSeparator c = true) (offset : Nat) :
    tokensFrom offset (word ++ back) = ⟨offset, word⟩ :: tokensFrom (offset + word.length) back := by
  obtain ⟨c, rest, rfl⟩ := List.exists_cons_of_ne_nil isWord.nonempty
  obtain ⟨first, later⟩ := List.forall_mem_cons.mp isWord.unbroken
  have unbroken : ∀ d ∈ rest, (!isSeparator d) = true := by
    intro d member
    rw [later d member]
    rfl
  have stop : back.takeWhile (fun d => !isSeparator d) = [] ∧
      back.dropWhile (fun d => !isSeparator d) = back := by
    cases back with
    | nil => exact ⟨rfl, rfl⟩
    | cons separator others =>
        have separates := ends separator rfl
        simp [separates]
  rw [List.cons_append, tokensFrom, if_neg (by simp [first]),
    List.takeWhile_append_of_pos unbroken, List.dropWhile_append_of_pos unbroken, stop.1, stop.2,
    List.append_nil]

/-- Text is taken apart as it is cut into tokens: separators one by one, and words as a whole. -/
@[elab_as_elim]
theorem cutting_induction {motive : List Char → Prop} (nil : motive [])
    (separator : ∀ c rest, isSeparator c = true → motive rest → motive (c :: rest))
    (word : ∀ word back, IsWord word → (∀ c ∈ back.head?, isSeparator c = true) → motive back →
      motive (word ++ back)) (text : List Char) : motive text := by
  fun_induction tokensFrom 0 text with
  | case1 => exact nil
  | case2 _ c rest separates ih => exact separator c rest separates ih
  | case3 _ c rest unbroken first ih =>
      let p := fun d => !isSeparator d
      have isWord : IsWord (c :: rest.takeWhile p) := by
        refine ⟨by simp, List.forall_mem_cons.mpr ⟨by simpa using unbroken, ?_⟩⟩
        intro d member
        simpa [p] using List.all_eq_true.mp List.all_takeWhile d member
      have ends : ∀ d ∈ (rest.dropWhile p).head?, isSeparator d = true := by
        intro d head
        have stops := List.head?_dropWhile_not p rest
        rw [Option.mem_def.mp head] at stops
        simpa [p] using stops
      have whole := word _ _ isWord ends ih
      rwa [List.cons_append, List.takeWhile_append_dropWhile] at whole

/-- The tokens of a line are its words. -/
theorem chars_tokensFrom (offset : Nat) (line : List Char) :
    (tokensFrom offset line).map Token.chars = words line := by
  induction line using cutting_induction generalizing offset with
  | nil => simp [tokensFrom, words]
  | separator c rest separates ih =>
      rw [tokensFrom_separator separates, words_separator separates, ih]
  | word word back isWord ends ih =>
      rw [tokensFrom_word isWord ends, List.map_cons, words_word_append isWord ends, ih]

theorem words_intercalate {pieces : List (List Char)} (all : ∀ piece ∈ pieces, IsWord piece) :
    words ([' '].intercalate pieces) = pieces := by
  induction pieces with
  | nil => rfl
  | cons word others ih =>
      have isWord := all word List.mem_cons_self
      have rest := ih fun other member => all other (List.mem_cons_of_mem _ member)
      cases others with
      | nil =>
          have alone : words (word ++ []) = _ := words_word_append isWord (by simp)
          simpa [words] using alone
      | cons next later =>
          have gap : isSeparator ' ' = true := rfl
          rw [List.intercalate_cons_cons, List.append_assoc, List.singleton_append,
            words_word_append isWord (by simp [gap]), words_separator gap, rest]

theorem intercalate_append {α : Type} (gap : List α) {first second : List (List α)}
    (begun : first ≠ []) (more : second ≠ []) :
    gap.intercalate (first ++ second) = gap.intercalate first ++ gap ++ gap.intercalate second := by
  induction first with
  | nil => exact absurd rfl begun
  | cons word others ih =>
      cases others with
      | nil => simp [List.intercalate_cons_of_ne_nil more]
      | cons next later =>
          have joined := ih (by simp)
          simp only [List.cons_append] at joined ⊢
          simp only [List.intercalate_cons_cons, joined, List.append_assoc]

/-- It is all the same whether words are joined at once or in groups. -/
theorem intercalate_groups {α β : Type} (gap : List β) (group : α → List (List β))
    (nonempty : ∀ item, group item ≠ []) (items : List α) :
    gap.intercalate (items.map fun item => gap.intercalate (group item)) =
      gap.intercalate (items.flatMap group) := by
  induction items with
  | nil => rfl
  | cons item others ih =>
      cases others with
      | nil => simp
      | cons next later =>
          have more : (next :: later).flatMap group ≠ [] := by simp [nonempty]
          rw [List.flatMap_cons, intercalate_append gap (nonempty item) more, ← ih, List.map_cons,
            List.map_cons, List.intercalate_cons_cons]

end RelayTimer.Text
