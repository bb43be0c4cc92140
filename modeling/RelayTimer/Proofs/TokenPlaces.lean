import RelayTimer.Proofs.TokenWords

set_option autoImplicit false

/-!
Where the tokens of a line stand in it: a line is cut around each of its tokens, and the tokens
before and after are those of the two pieces.
-/
namespace RelayTimer.Text

/-- A line, cut around one of its words: the word ends where a separator follows or nothing does,
and so does what comes before it. -/
structure Around (line front word back : List Char) : Prop where
  whole : line = front ++ word ++ back
  isWord : IsWord word
  apart : ∀ c ∈ front.getLast?, isSeparator c = true
  ends : ∀ c ∈ back.head?, isSeparator c = true

variable {front word back : List Char}

theorem Around.length {line : List Char} (around : Around line front word back) :
    line.length = front.length + word.length + back.length := by
  rw [around.whole, List.length_append, List.length_append]

theorem isWord_singleton {c : Char} (unbroken : isSeparator c = false) : IsWord [c] :=
  ⟨List.cons_ne_nil c [], List.forall_mem_singleton.mpr unbroken⟩

/-- Text without a token is nothing but separators. -/
theorem separators_of_tokensFrom {offset : Nat} {text : List Char}
    (empty : tokensFrom offset text = []) : ∀ c ∈ text, isSeparator c = true := by
  induction text using cutting_induction generalizing offset with
  | nil => exact fun c member => absurd member List.not_mem_nil
  | separator c rest separates ih =>
      rw [tokensFrom_separator separates] at empty
      exact List.forall_mem_cons.mpr ⟨separates, ih empty⟩
  | word word back isWord ends ih =>
      rw [tokensFrom_word isWord ends] at empty
      cases empty

/-- A word does not end with a separator, so there is more where text does. -/
theorem ne_nil_of_apart (isWord : IsWord word)
    (apart : ∀ c ∈ (word ++ back).getLast?, isSeparator c = true) : back ≠ [] := by
  rintro rfl
  rw [List.append_nil] at apart
  have last := List.getLast?_eq_some_getLast isWord.nonempty
  have separates := apart _ last
  rw [isWord.unbroken _ (List.mem_of_getLast? last)] at separates
  cases separates

theorem apart_append (text : List Char) (nonempty : back ≠ []) :
    (∀ c ∈ (text ++ back).getLast?, isSeparator c = true) ↔
      ∀ c ∈ back.getLast?, isSeparator c = true := by
  rw [List.getLast?_append, List.getLast?_eq_some_getLast nonempty, Option.some_or]

/-- Text that ends at a separator is read for itself. -/
theorem tokensFrom_append (apart : ∀ c ∈ front.getLast?, isSeparator c = true) (offset : Nat)
    (rest : List Char) :
    tokensFrom offset (front ++ rest) =
      tokensFrom offset front ++ tokensFrom (offset + front.length) rest := by
  induction front using cutting_induction generalizing offset with
  | nil => simp [tokensFrom]
  | separator c later separates ih =>
      have on : ∀ d ∈ later.getLast?, isSeparator d = true := by
        cases later with
        | nil => simp
        | cons d others => exact (apart_append [c] (by simp)).mp apart
      rw [List.cons_append, tokensFrom_separator separates, tokensFrom_separator separates,
        ih on, List.length_cons, Nat.add_assoc, Nat.add_comm 1]
  | word word back isWord ends ih =>
      have more := ne_nil_of_apart isWord apart
      have still : ∀ c ∈ (back ++ rest).head?, isSeparator c = true := by
        obtain ⟨separator, later, rfl⟩ := List.exists_cons_of_ne_nil more
        exact ends
      rw [List.append_assoc, tokensFrom_word isWord still, tokensFrom_word isWord ends,
        ih ((apart_append word more).mp apart), List.length_append, ← Nat.add_assoc,
        List.cons_append]

/-- A line is cut around each of its tokens. -/
theorem around_of_tokensFrom {offset : Nat} {line : List Char} {before after : List Token}
    {t : Token} (cut : tokensFrom offset line = before ++ t :: after) :
    ∃ front back, Around line front t.chars back ∧ t.offset = offset + front.length ∧
      tokensFrom offset front = before := by
  induction line using cutting_induction generalizing offset before with
  | nil => simp [tokensFrom] at cut
  | separator c rest separates ih =>
      rw [tokensFrom_separator separates] at cut
      obtain ⟨front, back, ⟨rfl, isWord, apart, ends⟩, place, earlier⟩ := ih cut
      refine ⟨c :: front, back, ⟨rfl, isWord, ?_, ends⟩, ?_, ?_⟩
      · cases front with
        | nil => simpa using separates
        | cons d others => exact (apart_append [c] (by simp)).mpr apart
      · rw [place, List.length_cons]
        omega
      · rw [tokensFrom_separator separates, earlier]
  | word word rest isWord ends ih =>
      rw [tokensFrom_word isWord ends] at cut
      cases before with
      | nil =>
          obtain ⟨rfl, -⟩ := List.cons_eq_cons.mp cut
          exact ⟨[], rest, ⟨rfl, isWord, by simp, ends⟩, rfl, by simp [tokensFrom]⟩
      | cons first others =>
          obtain ⟨rfl, later⟩ := List.cons_eq_cons.mp cut
          obtain ⟨front, back, ⟨rfl, inner, apart, behind⟩, place, earlier⟩ := ih later
          -- The rest of the line begins with a separator, which belongs to what comes before.
          have more : front ≠ [] := by
            rintro rfl
            obtain ⟨c, chars, begins⟩ := List.exists_cons_of_ne_nil inner.nonempty
            have separates := ends c (by rw [begins]; rfl)
            rw [inner.unbroken c (by rw [begins]; exact List.mem_cons_self)] at separates
            cases separates
          have still : ∀ c ∈ front.head?, isSeparator c = true := by
            obtain ⟨separator, others, rfl⟩ := List.exists_cons_of_ne_nil more
            exact ends
          have stands : Around (word ++ (front ++ t.chars ++ back)) (word ++ front) t.chars back :=
            ⟨by simp, inner, (apart_append word more).mpr apart, behind⟩
          refine ⟨word ++ front, back, stands, ?_, ?_⟩
          · rw [place, List.length_append, Nat.add_assoc]
          · rw [tokensFrom_word isWord still, earlier]

end RelayTimer.Text
