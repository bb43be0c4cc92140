import RelayTimer.Store.Record

set_option autoImplicit false

/-!
What is stored in a record comes out of it again: the flags as they were, and the text as far as a
record holds it.
-/
namespace RelayTimer

namespace Text

theorem ofUtf8?_utf8 (text : List Char) : ofUtf8? (utf8 text) = some (String.ofList text) := by
  have bytes : (⟨(utf8 text).toArray⟩ : ByteArray) = text.utf8Encode := by
    apply ByteArray.ext
    rw [List.utf8Encode, List.data_toByteArray]
    rfl
  unfold ofUtf8? String.fromUTF8?
  rw [bytes, dif_pos ByteArray.isValidUTF8_utf8Encode]
  rfl

/-- Only the NUL character has a NUL among its bytes. -/
theorem ne_zero_of_mem_utf8EncodeChar {c : Char} (visible : c ≠ '\x00') {b : UInt8}
    (member : b ∈ String.utf8EncodeChar c) : b ≠ 0 := by
  have byte (n : Nat) (low : 0 < n) (high : n < 256) : UInt8.ofNat n ≠ 0 := by
    intro zero
    have value := congrArg UInt8.toNat zero
    rw [UInt8.toNat_ofNat_of_lt' (by simpa using high)] at value
    simp at value
    omega
  have positive : 0 < c.val.toNat := by
    apply Nat.pos_of_ne_zero
    intro zero
    exact visible (Char.ext (UInt32.toNat_inj.mp zero))
  unfold String.utf8EncodeChar at member
  dsimp only at member
  split at member
  · rw [List.mem_singleton.mp member]
    exact byte _ positive (by omega)
  · split at member
    · simp only [List.mem_cons, List.not_mem_nil, or_false] at member
      rcases member with rfl | rfl <;> exact byte _ (by omega) (by omega)
    · split at member
      · simp only [List.mem_cons, List.not_mem_nil, or_false] at member
        rcases member with rfl | rfl | rfl <;> exact byte _ (by omega) (by omega)
      · simp only [List.mem_cons, List.not_mem_nil, or_false] at member
        rcases member with rfl | rfl | rfl | rfl <;> exact byte _ (by omega) (by omega)

/-- The first NUL among the bytes of a text that is filled up with NUL is where the text has its
first NUL, or where it ends. -/
theorem takeWhile_utf8 (text : List Char) (fill : Nat) :
    (utf8 text ++ List.replicate fill 0).takeWhile (· ≠ 0) =
      utf8 (text.takeWhile (· ≠ '\x00')) := by
  induction text with
  | nil => cases fill <;> simp [utf8, List.replicate_succ]
  | cons c rest ih =>
      have first : utf8 (c :: rest) = String.utf8EncodeChar c ++ utf8 rest := rfl
      rw [first, List.append_assoc]
      by_cases visible : c = '\x00'
      · subst visible
        rfl
      · rw [List.takeWhile_append_of_pos, ih, List.takeWhile_cons_of_pos (by simpa using visible)]
        · rfl
        · intro b member
          simpa using ne_zero_of_mem_utf8EncodeChar visible member

/-- It is all the same whether a text is cut to a room before or after it is cut at a character. -/
theorem takeWhile_cut (p : Char → Bool) (text : List Char) (room : Nat) :
    (cut room text).takeWhile p = cut room (text.takeWhile p) := by
  induction text generalizing room with
  | nil => rfl
  | cons c rest ih =>
      cases keep : p c with
      | false =>
          rw [List.takeWhile_cons_of_neg (by simp [keep])]
          unfold cut
          split
          · rw [List.takeWhile_cons_of_neg (by simp [keep])]
          · rfl
      | true =>
          rw [List.takeWhile_cons_of_pos keep]
          unfold cut
          split
          · rw [List.takeWhile_cons_of_pos keep, ih]
          · rfl

end Text

/-- What is left of a text when it is stored: what comes before its first NUL, and no more of that
than a record has room for. -/
def storedText (text : String) : String :=
  String.ofList (Text.cut textRoom (text.toList.takeWhile (· ≠ '\x00')))

namespace Record

@[simp]
theorem text_ofText (text : String) (autostart lastUsed : Bool) :
    (ofText text autostart lastUsed).text = storedText text := by
  simp only [Record.text, ofText, fieldOfText, Text.takeWhile_utf8, Text.ofUtf8?_utf8,
    Text.takeWhile_cut, Option.getD_some, storedText]

/-- A record is read as it was written. -/
theorem decode?_encode (r : Record) : decode? r.encode = some r := by
  obtain ⟨autostart, lastUsed, field, length⟩ := r
  let auto := if autostart then autostartByte else noFlag
  let last := if lastUsed then lastUsedByte else noFlag
  let sum := LittleEndian.bytes16 (Checksum.ofBytes (marker :: auto :: last :: field))
  have bytes : encode ⟨autostart, lastUsed, field, length⟩ =
      marker :: auto :: last :: (field ++ sum) := rfl
  have taken : (field ++ sum).take textRoom = field := by
    rw [← length, List.take_left]
  have dropped : (field ++ sum).drop textRoom = sum := by
    rw [← length, List.drop_left]
  rw [bytes]
  simp only [decode?, taken, dropped, length, sum, and_self, ↓reduceDIte, Option.some.injEq,
    Record.mk.injEq, and_true, auto, last]
  cases autostart <;> cases lastUsed <;> decide

/-- Erased bytes hold no record. -/
theorem decode?_erased (length : Nat) : decode? (List.replicate length 0xFF) = none := by
  match length with
  | 0 => rfl
  | 1 => rfl
  | 2 => rfl
  | n + 3 => simp [List.replicate_succ, decode?, marker]

end Record

end RelayTimer
