import RelayTimer.Proofs.StoredImage

set_option autoImplicit false

/-!
What is in a slot after only some of its pages have been written, whatever the size of the image: a
slot that is not all inside has no bytes, before and after.
-/
namespace RelayTimer

namespace Image

/-- The bytes of a slot. -/
def slot? (image : List UInt8) (slot : Nat) : Option (List UInt8) :=
  read? image (slotOffset slot) recordSize

/-- The record of a slot is what its bytes say. -/
theorem record?_of_slot? {image after : List UInt8} {slot : Nat}
    (same : slot? after slot = slot? image slot) : record? after slot = record? image slot := by
  unfold slot? at same
  simp only [record?, same]

theorem of_record? {image : List UInt8} {slot : Nat} {r : Record}
    (there : record? image slot = some r) :
    slot < slotCount ∧ ∃ bytes, slot? image slot = some bytes ∧ Record.decode? bytes = some r := by
  unfold record? at there
  split at there
  · rename_i isSlot
    exact ⟨isSlot, Option.bind_eq_some_iff.mp there⟩
  · cases there

/-- An erased image holds no record. -/
theorem record?_erased (size slot : Nat) : record? (erased size) slot = none := by
  unfold record? read?
  split
  · split
    · rw [erased, List.drop_replicate, List.take_replicate, Option.bind_some]
      exact Record.decode?_erased _
    · rfl
  · rfl

theorem inside_of_read? {image bytes : List UInt8} {offset length : Nat}
    (read : read? image offset length = some bytes) : offset + length ≤ image.length := by
  unfold read? at read
  split at read
  · assumption
  · cases read

theorem length_of_read? {image bytes : List UInt8} {offset length : Nat}
    (read : read? image offset length = some bytes) : bytes.length = length := by
  have inside := inside_of_read? read
  rw [read?, if_pos inside] at read
  cases read
  rw [List.length_take, List.length_drop]
  omega

/-- A place that is written to in part is read as if the part had been written over it. -/
theorem read?_put_within (image : List UInt8) (start length offset : Nat) (data : List UInt8)
    (inside : start + offset + data.length ≤ image.length)
    (within : offset + data.length ≤ length) :
    read? (put image (start + offset) data) start length =
      (read? image start length).map (put · offset data) := by
  unfold read?
  rw [length_put image (start + offset) data inside]
  split
  · rename_i whole
    have taken : ((image.drop start).take length).length = length := by
      rw [List.length_take, List.length_drop]
      omega
    rw [Option.map_some]
    congr 1
    apply List.ext_getElem?
    intro i
    rw [getElem?_read, getElem?_put image _ data inside, getElem?_put _ _ _ (by omega),
      getElem?_read]
    by_cases here : offset ≤ i ∧ i < offset + data.length
    · have place : start + i - (start + offset) = i - offset := by omega
      rw [if_pos here, if_pos (by omega), if_pos (by omega), place]
    · rw [if_neg here, if_neg (by omega : ¬ (start + offset ≤ start + i ∧ _))]
  · rfl

/-- A page that has been written was inside, and the data were a page. -/
theorem of_writePage? {image data after : List UInt8} {page : Nat}
    (written : writePage? image page data = some after) :
    data.length = pageSize ∧ page * pageSize + data.length ≤ image.length ∧
      after = put image (page * pageSize) data := by
  unfold writePage? at written
  split at written
  · rename_i inside
    cases written
    rw [inside.1]
    exact ⟨rfl, inside.2, rfl⟩
  · cases written

section pages

variable {slot offset : Nat} {data image after : List UInt8}

/-- The page of one slot is apart from the bytes of another one. -/
theorem slot?_other_page (page : offset < pagesPerRecord)
    (written : writePage? image (slotPage slot + offset) data = some after) {other : Nat}
    (apart : other ≠ slot) : slot? after other = slot? image other := by
  obtain ⟨whole, inside, rfl⟩ := of_writePage? written
  apply read?_put_apart _ _ _ _ _ inside
  rw [whole]
  simp only [slotOffset, slotPage, recordSize, pageSize, pagesPerRecord] at page ⊢
  omega

theorem slot?_own_page (page : offset < pagesPerRecord)
    (written : writePage? image (slotPage slot + offset) data = some after) :
    slot? after slot = (slot? image slot).map (put · (offset * pageSize) data) := by
  obtain ⟨whole, inside, rfl⟩ := of_writePage? written
  have place : (slotPage slot + offset) * pageSize = slotOffset slot + offset * pageSize := by
    simp only [slotOffset, slotPage, recordSize, pageSize, pagesPerRecord]
    omega
  rw [place] at inside ⊢
  apply read?_put_within _ _ _ _ _ inside
  rw [whole]
  simp only [recordSize, pageSize, pagesPerRecord] at page ⊢
  omega

end pages

/-- Pages of a slot have been written with new bytes, the first ones first, and nothing else. -/
structure Renewed (slot pages : Nat) (bytes image after : List UInt8) : Prop where
  here : slot? after slot = (slot? image slot).map fun old =>
    bytes.take (pages * pageSize) ++ old.drop (pages * pageSize)
  others : ∀ other, other ≠ slot → slot? after other = slot? image other

namespace Renewed

variable {slot pages : Nat} {bytes image half after : List UInt8}

theorem first (written : writePage? image (slotPage slot) (bytes.take pageSize) = some half) :
    Renewed slot 1 bytes image half := by
  have page : 0 < pagesPerRecord := by decide
  have whole := (of_writePage? written).1
  refine ⟨?_, fun other apart => slot?_other_page page written apart⟩
  rw [slot?_own_page page written]
  congr 1
  funext old
  simp only [put, whole, Nat.zero_mul, Nat.one_mul, Nat.zero_add, List.take_zero, List.nil_append]

theorem second (begun : Renewed slot 1 bytes image half) (whole : bytes.length = recordSize)
    (written : writePage? half (slotPage slot + 1) (bytes.drop pageSize) = some after) :
    Renewed slot 2 bytes image after := by
  have page : 1 < pagesPerRecord := by decide
  have front : (bytes.take pageSize).length = pageSize := by
    rw [List.length_take, whole]
    rfl
  have both : bytes.take (2 * pageSize) = bytes := List.take_of_length_le (by rw [whole]; decide)
  refine ⟨?_, fun other apart =>
    (slot?_other_page page written apart).trans (begun.others other apart)⟩
  rw [slot?_own_page page written, begun.here, Option.map_map]
  congr 1
  funext old
  have left : (bytes.take pageSize ++ old.drop pageSize).drop (pageSize + pageSize) =
      old.drop (2 * pageSize) := by
    rw [← List.drop_drop, List.drop_left' front, List.drop_drop, Nat.two_mul]
  simp only [Function.comp_apply, put, Nat.one_mul, (of_writePage? written).1]
  rw [List.take_left' front, List.take_append_drop, left, both]

/-- The records of the other slots stay. -/
theorem record?_other (renewed : Renewed slot pages bytes image after) {other : Nat}
    (apart : other ≠ slot) : record? after other = record? image other :=
  record?_of_slot? (renewed.others other apart)

theorem record?_here (renewed : Renewed slot pages bytes image after) (isSlot : slot < slotCount) :
    record? after slot = (slot? image slot).bind fun old =>
      Record.decode? (bytes.take (pages * pageSize) ++ old.drop (pages * pageSize)) := by
  have here := renewed.here
  unfold slot? at here
  rw [record?_of_slot isSlot, here, Option.bind_map]
  rfl

/-- Where all pages have been written, the slot has the new record, if it has room for one. -/
theorem record?_all (renewed : Renewed slot 2 bytes image after) (whole : bytes.length = recordSize)
    (isSlot : slot < slotCount) :
    record? after slot = (slot? image slot).bind fun _ => Record.decode? bytes := by
  have both : bytes.take (2 * pageSize) = bytes := List.take_of_length_le (by rw [whole]; decide)
  rw [renewed.record?_here isSlot, both]
  apply Option.bind_congr
  intro old read
  have length := length_of_read? read
  rw [List.drop_of_length_le (by rw [length]; decide), List.append_nil]

end Renewed

/-- What is left of an image when new bytes are written to a slot page by page, and the answer to
that: an error can come before, between and after the pages. -/
inductive Rewritten (slot : Nat) (bytes image after : List UInt8) : Except StoreError Unit → Prop
  | untouched (error : StoreError) (same : after = image) :
      Rewritten slot bytes image after (.error error)
  | half (error : StoreError) (renewed : Renewed slot 1 bytes image after) :
      Rewritten slot bytes image after (.error error)
  | whole (answer : Except StoreError Unit) (renewed : Renewed slot 2 bytes image after) :
      Rewritten slot bytes image after answer

theorem Rewritten.renewed {slot : Nat} {bytes image after : List UInt8}
    (rewritten : Rewritten slot bytes image after (.ok ())) :
    Renewed slot 2 bytes image after := by
  cases rewritten with
  | whole _ renewed => exact renewed

theorem Rewritten.slot?_other {slot : Nat} {bytes image after : List UInt8}
    {answer : Except StoreError Unit} (rewritten : Rewritten slot bytes image after answer)
    {other : Nat} (apart : other ≠ slot) : slot? after other = slot? image other := by
  cases rewritten with
  | untouched error same => rw [same]
  | half error renewed => exact renewed.others other apart
  | whole answer renewed => exact renewed.others other apart

theorem Rewritten.record?_other {slot : Nat} {bytes image after : List UInt8}
    {answer : Except StoreError Unit} (rewritten : Rewritten slot bytes image after answer)
    {other : Nat} (apart : other ≠ slot) : record? after other = record? image other :=
  record?_of_slot? (rewritten.slot?_other apart)

/-- The record of the slot itself is the old one, the new one, or what the first page of the new one
and the second page of the old one make together. -/
theorem Rewritten.record?_here {slot : Nat} {bytes image after : List UInt8}
    {answer : Except StoreError Unit} (rewritten : Rewritten slot bytes image after answer)
    (whole : bytes.length = recordSize) :
    record? after slot = record? image slot ∨ ∃ old, slot? image slot = some old ∧
      (record? after slot = Record.decode? bytes ∨
        (∃ error, answer = .error error) ∧
          record? after slot = Record.decode? (bytes.take pageSize ++ old.drop pageSize)) := by
  by_cases isSlot : slot < slotCount
  · have was : record? image slot = (slot? image slot).bind Record.decode? := record?_of_slot isSlot
    rw [was]
    cases rewritten with
    | untouched error same => exact .inl (by rw [same, was])
    | half error renewed =>
        rw [renewed.record?_here isSlot]
        cases slot? image slot with
        | none => exact .inl rfl
        | some old => exact .inr ⟨old, rfl, .inr ⟨⟨error, rfl⟩, rfl⟩⟩
    | whole answer renewed =>
        rw [renewed.record?_all whole isSlot]
        cases slot? image slot with
        | none => exact .inl rfl
        | some old => exact .inr ⟨old, rfl, .inl rfl⟩
  · have beyond (bytes : List UInt8) : record? bytes slot = none := if_neg isSlot
    exact .inl ((beyond after).trans (beyond image).symm)

end Image

namespace Record

theorem field_of_decode? {bytes : List UInt8} {r : Record} (decoded : decode? bytes = some r) :
    r.field = (bytes.drop 3).take textRoom := by
  unfold decode? at decoded
  split at decoded
  · dsimp only at decoded
    split at decoded
    · cases decoded
      rfl
    · cases decoded
  · cases decoded

/-- A record whose flags are written anew, of which only the first page is done, has its text or is
none. -/
theorem text_of_half {old : List UInt8} {r : Record} (decoded : decode? old = some r)
    (new : Record) (same : new.field = r.field) {mixed : Record}
    (half : decode? (new.encode.take pageSize ++ old.drop pageSize) = some mixed) :
    mixed.text = r.text := by
  have length := new.length_encode
  have front : (new.encode.take pageSize).drop 3 = (old.drop 3).take (pageSize - 3) := by
    have fields : new.encode.drop 3 = new.field ++ LittleEndian.bytes16 (Checksum.ofBytes new.body) :=
      rfl
    rw [List.drop_take, fields, List.take_append_of_le_length (by rw [new.length_field]; decide),
      same, field_of_decode? decoded, List.take_take]
    rfl
  have bytes : (new.encode.take pageSize ++ old.drop pageSize).drop 3 = old.drop 3 := by
    have back : old.drop pageSize = (old.drop 3).drop (pageSize - 3) := by
      rw [List.drop_drop]
      rfl
    -- Only the flags differ, and they are ahead of the text on the first page.
    rw [List.drop_append_of_le_length (by rw [List.length_take, length]; decide), front, back,
      List.take_append_drop]
  unfold text
  rw [field_of_decode? half, field_of_decode? decoded, bytes]

end Record

end RelayTimer
