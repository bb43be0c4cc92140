set_option autoImplicit false

/-!
The tokens of a line: its longest pieces without a space or a comma, each with the place where it
begins.
-/
namespace RelayTimer.Text

/-- A piece of a line. Its place counts the characters before it. -/
structure Token where
  offset : Nat
  chars : List Char
  deriving Repr, DecidableEq

def isSeparator (c : Char) : Bool := c == ' ' || c == ','

/-- The tokens of text that begins `offset` characters into its line. -/
def tokensFrom (offset : Nat) : List Char → List Token
  | [] => []
  | c :: rest =>
    if isSeparator c then tokensFrom (offset + 1) rest
    else
      let word := c :: rest.takeWhile (fun d => !isSeparator d)
      ⟨offset, word⟩ ::
        tokensFrom (offset + word.length) (rest.dropWhile (fun d => !isSeparator d))
  termination_by text => text.length
  decreasing_by
    · simp
    · have := (List.dropWhile_suffix (fun d => !isSeparator d) (l := rest)).length_le
      simp only [List.length_cons]
      omega

def tokens (line : List Char) : List Token := tokensFrom 0 line

theorem ne_nil_of_mem_tokensFrom {offset : Nat} {line : List Char} {t : Token}
    (h : t ∈ tokensFrom offset line) : t.chars ≠ [] := by
  fun_induction tokensFrom offset line with
  | case1 => simp at h
  | case2 _ _ _ _ ih => exact ih h
  | case3 _ _ _ _ word ih =>
    rcases List.mem_cons.1 h with rfl | h
    · simp [word]
    · exact ih h

end RelayTimer.Text
