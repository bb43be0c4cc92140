set_option autoImplicit false

/-!
Text as bytes, its size in bytes, and the longest beginning of a text that fits into a number of
bytes.
-/
namespace RelayTimer.Text

def utf8 (text : List Char) : List UInt8 := text.flatMap String.utf8EncodeChar

def ofUtf8? (bytes : List UInt8) : Option String := String.fromUTF8? ⟨bytes.toArray⟩

def byteLength : List Char → Nat
  | [] => 0
  | c :: rest => c.utf8Size + byteLength rest

/-- The longest beginning of the text that takes at most `room` bytes: a character that does not
fit ends it, even if a later one would fit. -/
def cut (room : Nat) : List Char → List Char
  | [] => []
  | c :: rest => if c.utf8Size ≤ room then c :: cut (room - c.utf8Size) rest else []

theorem length_utf8 (text : List Char) : (utf8 text).length = byteLength text := by
  induction text with
  | nil => rfl
  | cons c rest ih =>
    simp only [utf8, List.flatMap_cons, List.length_append, String.length_utf8EncodeChar,
      byteLength]
    exact congrArg (c.utf8Size + ·) ih

theorem length_le_byteLength (text : List Char) : text.length ≤ byteLength text := by
  induction text with
  | nil => exact Nat.le_refl 0
  | cons c rest ih =>
    have wide := c.utf8Size_pos
    simp only [List.length_cons, byteLength]
    omega

@[simp]
theorem byteLength_append (first second : List Char) :
    byteLength (first ++ second) = byteLength first + byteLength second := by
  induction first with
  | nil => simp [byteLength]
  | cons c rest ih => simp [byteLength, ih, Nat.add_assoc]

theorem byteLength_cut_le (text : List Char) (room : Nat) : byteLength (cut room text) ≤ room := by
  induction text generalizing room with
  | nil => simp [cut, byteLength]
  | cons c rest ih =>
    unfold cut
    split
    · have := ih (room - c.utf8Size)
      simp only [byteLength]
      omega
    · simp [byteLength]

theorem cut_prefix (text : List Char) (room : Nat) : cut room text <+: text := by
  induction text generalizing room with
  | nil => simp [cut]
  | cons c rest ih =>
    unfold cut
    split
    · exact (List.prefix_cons_inj c).mpr (ih _)
    · simp

theorem cut_eq_self (text : List Char) (room : Nat) (fits : byteLength text ≤ room) :
    cut room text = text := by
  induction text generalizing room with
  | nil => simp [cut]
  | cons c rest ih =>
    simp only [byteLength] at fits
    rw [cut, if_pos (by omega), ih _ (by omega)]

end RelayTimer.Text
