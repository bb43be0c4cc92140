import Mathlib.Data.List.TakeWhile
import RelayTimer.Proofs.StoredRecord

set_option autoImplicit false

/-!
Records as bytes and back. No text is lost but what a record has no room for, every record is read
as it was written, and bytes that are read as a record are written again as they were, unless a flag
that is not raised was stored in an unusual way.
-/
namespace RelayTimer

namespace Text

/-- What there is room for of a text: the longest beginning of it that takes no more bytes. -/
structure Kept (room : Nat) (text kept : List Char) : Prop where
  begins : kept <+: text
  fits : (utf8 kept).length ≤ room
  longest : ∀ other, other <+: text → (utf8 other).length ≤ room → other <+: kept

theorem kept_cut (room : Nat) (text : List Char) : Kept room text (cut room text) := by
  refine ⟨?_, ?_, ?_⟩
  · exact cut_prefix text room
  · rw [length_utf8]
    exact byteLength_cut_le text room
  · intro other begins fits
    rw [length_utf8] at fits
    induction text generalizing room other with
    | nil => exact begins
    | cons c rest ih =>
        cases other with
        | nil => exact List.nil_prefix
        | cons d later =>
            obtain ⟨rfl, more⟩ := List.cons_prefix_cons.mp begins
            rw [byteLength] at fits
            rw [cut, if_pos (by omega), List.prefix_cons_inj]
            exact ih (room - d.utf8Size) later more (by omega)

end Text

namespace Record

/-- The bytes ahead of the checksum, and the checksum of them. -/
def sealBody (body : List UInt8) : List UInt8 :=
  body ++ LittleEndian.bytes16 (Checksum.ofBytes body)

theorem encode_eq (r : Record) : r.encode = sealBody r.body := rfl

/-- What bytes are read as a record. -/
theorem decode?_eq_some_iff (bytes : List UInt8) (r : Record) :
    decode? bytes = some r ↔ ∃ auto last, bytes = sealBody (marker :: auto :: last :: r.field) ∧
      r.autostart = (auto == autostartByte) ∧ r.lastUsed = (last == lastUsedByte) := by
  constructor
  · intro decoded
    unfold decode? at decoded
    split at decoded
    · rename_i mark auto last rest
      dsimp only at decoded
      split at decoded
      · rename_i sound
        cases decoded
        obtain ⟨-, rfl, sum⟩ := sound
        refine ⟨auto, last, ?_, rfl, rfl⟩
        simp only [sealBody, ← sum, List.cons_append, List.take_append_drop]
      · cases decoded
    · cases decoded
  · rintro ⟨auto, last, rfl, raised, used⟩
    obtain ⟨autostart, lastUsed, field, length⟩ := r
    obtain rfl : autostart = (auto == autostartByte) := raised
    obtain rfl : lastUsed = (last == lastUsedByte) := used
    have taken (sum : List UInt8) : (field ++ sum).take textRoom = field := by
      rw [← length, List.take_left]
    have dropped (sum : List UInt8) : (field ++ sum).drop textRoom = sum := by
      rw [← length, List.drop_left]
    simp only [sealBody, List.cons_append, decode?, taken, dropped, length, and_self, ↓reduceDIte]

/-- A flag that is not raised is written in one way, however it was stored. -/
theorem flagByte_eq_iff (raised byte : UInt8) :
    (if byte == raised then raised else noFlag) = byte ↔ byte = raised ∨ byte = noFlag := by
  by_cases same : byte = raised
  · simp [same]
  · simp only [beq_iff_eq, same, ↓reduceIte, false_or]
    exact eq_comm

theorem flags_sealBody (mark auto last : UInt8) (field : List UInt8) :
    (sealBody (mark :: auto :: last :: field))[1]? = some auto ∧
      (sealBody (mark :: auto :: last :: field))[2]? = some last := by
  simp only [sealBody, List.cons_append, List.getElem?_cons_succ, List.getElem?_cons_zero, and_self]

/-- Where two sealed records of one text may differ: in the flags, and in the checksum. -/
theorem getElem?_sealBody {field : List UInt8} (length : field.length = textRoom)
    (mark auto last otherAuto otherLast : UInt8) {i : Nat} (elsewhere : i ∉ [1, 2, 62, 63]) :
    (sealBody (mark :: auto :: last :: field))[i]? =
      (sealBody (mark :: otherAuto :: otherLast :: field))[i]? := by
  simp only [List.mem_cons, List.not_mem_nil, or_false, not_or] at elsewhere
  obtain ⟨notAuto, notLast, notLow, notHigh⟩ := elsewhere
  simp only [textRoom] at length
  cases i with
  | zero => simp only [sealBody, List.cons_append, List.getElem?_cons_zero]
  | succ i =>
      obtain ⟨n, rfl⟩ : ∃ n, i = n + 2 := ⟨i - 2, by omega⟩
      simp only [sealBody, List.cons_append, List.getElem?_cons_succ]
      by_cases inside : n < field.length
      · rw [List.getElem?_append_left inside, List.getElem?_append_left inside]
      · have past : field.length + 2 ≤ n := by omega
        rw [List.getElem?_eq_none (by simpa using past), List.getElem?_eq_none (by simpa using past)]

/-- No text is lost in a record but what there is no room for, every record is read as it was
written, and what is read is written again as it was if each flag was stored in one of two ways;
otherwise the flags and the checksum are all that changes. -/
theorem codec_lossless :
    (∀ (text : String) (autostart lastUsed : Bool), '\x00' ∉ text.toList →
      ∃ r, decode? (ofText text autostart lastUsed).encode = some r ∧
        r.autostart = autostart ∧ r.lastUsed = lastUsed ∧
        Text.Kept textRoom text.toList r.text.toList) ∧
    (∀ r : Record, decode? r.encode = some r) ∧
    ∀ (bytes : List UInt8) (r : Record), decode? bytes = some r →
      (r.encode = bytes ↔
        (bytes[1]? = some autostartByte ∨ bytes[1]? = some noFlag) ∧
        (bytes[2]? = some lastUsedByte ∨ bytes[2]? = some noFlag)) ∧
      ∀ i, i ∉ [1, 2, 62, 63] → r.encode[i]? = bytes[i]? := by
  refine ⟨?_, decode?_encode, ?_⟩
  · intro text autostart lastUsed noNul
    refine ⟨_, decode?_encode _, rfl, rfl, ?_⟩
    have whole : text.toList.takeWhile (· ≠ '\x00') = text.toList := by
      rw [List.takeWhile_eq_self_iff]
      intro c member
      have visible : c ≠ '\x00' := by
        rintro rfl
        exact noNul member
      simpa using visible
    rw [text_ofText, storedText, whole, String.toList_ofList]
    exact Text.kept_cut textRoom text.toList
  · intro bytes r decoded
    obtain ⟨auto, last, rfl, raised, used⟩ := (decode?_eq_some_iff bytes r).mp decoded
    have written : r.encode = sealBody (marker :: (if auto == autostartByte then autostartByte
        else noFlag) :: (if last == lastUsedByte then lastUsedByte else noFlag) :: r.field) := by
      rw [encode_eq, body, raised, used]
    obtain ⟨storedAuto, storedLast⟩ := flags_sealBody marker auto last r.field
    rw [written, storedAuto, storedLast, Option.some.injEq, Option.some.injEq, Option.some.injEq,
      Option.some.injEq, ← flagByte_eq_iff, ← flagByte_eq_iff]
    refine ⟨⟨?_, ?_⟩, fun i elsewhere => getElem?_sealBody r.length_field _ _ _ _ _ elsewhere⟩
    · intro same
      simp only [sealBody, List.cons_append, List.cons.injEq] at same
      exact ⟨same.2.1, same.2.2.1⟩
    · rintro ⟨sameAuto, sameLast⟩
      rw [sameAuto, sameLast]

/-- A text that ends within a letter where the room ends, and a flag that is stored as neither of
its two bytes. -/
theorem codec_lossless_odd_flag :
    let accents := String.ofList (List.replicate 30 'é')
    let plain := ofText "" false false
    let odd := sealBody (marker :: 0x00 :: noFlag :: plain.field)
    '\x00' ∉ accents.toList ∧
      (∃ r, decode? (ofText accents true false).encode = some r ∧ r.autostart = true ∧
        r.lastUsed = false ∧ Text.Kept textRoom accents.toList r.text.toList) ∧
      decode? odd = some plain ∧ plain.encode ≠ odd ∧
      ∀ i, i ∉ [1, 2, 62, 63] → plain.encode[i]? = odd[i]? := by
  intro accents plain odd
  have noNul : '\x00' ∉ accents.toList := by
    rw [String.toList_ofList, List.mem_replicate]
    decide
  have decoded : decode? odd = some plain :=
    (decode?_eq_some_iff odd plain).mpr ⟨0x00, noFlag, rfl, rfl, rfl⟩
  obtain ⟨same, elsewhere⟩ := codec_lossless.2.2 odd plain decoded
  refine ⟨noNul, codec_lossless.1 accents true false noNul, decoded, ?_, elsewhere⟩
  rw [Ne, same, (flags_sealBody marker 0x00 noFlag plain.field).1]
  decide

end Record

end RelayTimer
