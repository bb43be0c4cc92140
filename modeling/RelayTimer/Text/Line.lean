set_option autoImplicit false

/-!
The lines of a text.
-/
namespace RelayTimer.Text

/-- The lines of a text without what ends them: a line feed, or a carriage return and a line feed.
The last line need not be ended. -/
def lines : List Char → List (List Char)
  | [] => []
  | '\n' :: rest => [] :: lines rest
  | '\r' :: '\n' :: rest => [] :: lines rest
  | c :: rest =>
    match lines rest with
    | [] => [[c]]
    | line :: more => (c :: line) :: more

theorem newline_notMem_of_mem_lines {text line : List Char} (member : line ∈ lines text) :
    '\n' ∉ line := by
  fun_induction lines text generalizing line with
  | case1 => cases member
  | case2 rest ih =>
    rcases List.mem_cons.mp member with rfl | later
    · exact List.not_mem_nil
    · exact ih later
  | case3 rest ih =>
    rcases List.mem_cons.mp member with rfl | later
    · exact List.not_mem_nil
    · exact ih later
  | case4 c rest notFeed _ none ih =>
    rw [List.mem_singleton.mp member, List.mem_singleton]
    exact fun same => notFeed same.symm
  | case5 c rest notFeed _ first more split ih =>
    rw [split] at ih
    rcases List.mem_cons.mp member with rfl | later
    · rw [List.mem_cons, not_or]
      exact ⟨fun same => notFeed same.symm, ih List.mem_cons_self⟩
    · exact ih (List.mem_cons_of_mem _ later)

/-- A line feed ends a line. A carriage return at the end of the line would be taken with it. -/
theorem lines_append_newline {line : List Char} (noFeed : '\n' ∉ line)
    (noReturn : line.getLast? ≠ some '\r') (rest : List Char) :
    lines (line ++ '\n' :: rest) = line :: lines rest := by
  induction line with
  | nil => rfl
  | cons c others ih =>
    rw [List.mem_cons, not_or] at noFeed
    have later : others.getLast? ≠ some '\r' := by
      intro last
      rw [List.getLast?_cons, last] at noReturn
      exact noReturn rfl
    have apart : ∀ after, c = '\r' → others ++ '\n' :: rest = '\n' :: after → False := by
      rintro after rfl begins
      cases others with
      | nil => exact noReturn rfl
      | cons d more =>
        obtain ⟨rfl, -⟩ := List.cons_eq_cons.mp begins
        exact noFeed.2 List.mem_cons_self
    rw [List.cons_append, lines.eq_4 _ _ (Ne.symm noFeed.1) apart, ih noFeed.2 later]

theorem lines_of_notMem {line : List Char} (nonempty : line ≠ []) (noFeed : '\n' ∉ line) :
    lines line = [line] := by
  induction line with
  | nil => exact absurd rfl nonempty
  | cons c others ih =>
    rw [List.mem_cons, not_or] at noFeed
    have apart : ∀ after, c = '\r' → others = '\n' :: after → False := by
      rintro after - rfl
      exact noFeed.2 List.mem_cons_self
    rw [lines.eq_4 _ _ (Ne.symm noFeed.1) apart]
    cases others with
    | nil => rfl
    | cons d more => rw [ih (List.cons_ne_nil d more) noFeed.2]

/-- Lines that are joined by line feeds come apart again. -/
theorem lines_intercalate {pieces : List (List Char)} (nonempty : ∀ piece ∈ pieces, piece ≠ [])
    (noFeed : ∀ piece ∈ pieces, '\n' ∉ piece)
    (noReturn : ∀ piece ∈ pieces, piece.getLast? ≠ some '\r') :
    lines (['\n'].intercalate pieces) = pieces := by
  induction pieces with
  | nil => rfl
  | cons piece others ih =>
    rw [List.forall_mem_cons] at nonempty noFeed noReturn
    cases others with
    | nil =>
      rw [List.intercalate_singleton]
      exact lines_of_notMem nonempty.1 noFeed.1
    | cons next more =>
      rw [List.intercalate_cons_cons, List.append_assoc, List.singleton_append,
        lines_append_newline noFeed.1 noReturn.1, ih nonempty.2 noFeed.2 noReturn.2]

end RelayTimer.Text
