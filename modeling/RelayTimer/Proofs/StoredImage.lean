import RelayTimer.Proofs.StoredRecord
import RelayTimer.Store.Basic

set_option autoImplicit false

/-!
The records in an image: ten of them, one behind the other, none of which is touched when another
one is written.
-/
namespace RelayTimer

/-- How many bytes the records of all slots take. -/
def imageSize : Nat := slotCount * recordSize

namespace Image

theorem getElem?_put (image : List UInt8) (offset : Nat) (data : List UInt8)
    (inside : offset + data.length ≤ image.length) (i : Nat) :
    (put image offset data)[i]? =
      if offset ≤ i ∧ i < offset + data.length then data[i - offset]? else image[i]? := by
  have front : (image.take offset).length = offset := by
    rw [List.length_take]
    omega
  unfold put
  rw [List.append_assoc]
  rcases Nat.lt_or_ge i offset with before | onward
  · have outside : ¬ (offset ≤ i ∧ i < offset + data.length) := by omega
    rw [if_neg outside, List.getElem?_append_left (by omega), List.getElem?_take_of_lt before]
  · rw [List.getElem?_append_right (by omega), front]
    rcases Nat.lt_or_ge i (offset + data.length) with within | behind
    · rw [if_pos ⟨onward, within⟩, List.getElem?_append_left (by omega)]
    · have outside : ¬ (offset ≤ i ∧ i < offset + data.length) := by omega
      rw [if_neg outside, List.getElem?_append_right (by omega), List.getElem?_drop]
      congr 1
      omega

/-- Two writes one behind the other are one. -/
theorem put_append (image : List UInt8) (offset : Nat) (first second : List UInt8)
    (inside : offset + (first.length + second.length) ≤ image.length) :
    put (put image offset first) (offset + first.length) second =
      put image offset (first ++ second) := by
  have length := length_put image offset first (by omega)
  apply List.ext_getElem?
  intro i
  rw [getElem?_put _ _ _ (by omega), getElem?_put _ _ _ (by omega),
    getElem?_put _ _ _ (by rw [List.length_append]; exact inside), List.length_append]
  by_cases early : offset ≤ i ∧ i < offset + first.length
  · have notLate : ¬ (offset + first.length ≤ i ∧ i < offset + first.length + second.length) := by
      omega
    have either : offset ≤ i ∧ i < offset + (first.length + second.length) := by omega
    rw [if_neg notLate, if_pos early, if_pos either, List.getElem?_append_left (by omega)]
  · by_cases late : offset + first.length ≤ i ∧ i < offset + first.length + second.length
    · have either : offset ≤ i ∧ i < offset + (first.length + second.length) := by omega
      rw [if_pos late, if_pos either, List.getElem?_append_right (by omega)]
      congr 1
      omega
    · have neither : ¬ (offset ≤ i ∧ i < offset + (first.length + second.length)) := by omega
      rw [if_neg late, if_neg early, if_neg neither]

theorem getElem?_read (image : List UInt8) (offset length i : Nat) :
    ((image.drop offset).take length)[i]? = if i < length then image[offset + i]? else none := by
  rw [List.getElem?_take, List.getElem?_drop]

theorem read?_put (image : List UInt8) (offset : Nat) (data : List UInt8)
    (inside : offset + data.length ≤ image.length) :
    read? (put image offset data) offset data.length = some data := by
  unfold read?
  rw [length_put image offset data inside, if_pos inside]
  congr 1
  apply List.ext_getElem?
  intro i
  rw [getElem?_read, getElem?_put image offset data inside]
  split
  · rename_i near
    rw [if_pos (by omega)]
    congr 1
    omega
  · rename_i far
    exact (List.getElem?_eq_none (by omega)).symm

/-- A place that is not written to is read as before. -/
theorem read?_put_apart (image : List UInt8) (offset start length : Nat) (data : List UInt8)
    (inside : offset + data.length ≤ image.length)
    (apart : start + length ≤ offset ∨ offset + data.length ≤ start) :
    read? (put image offset data) start length = read? image start length := by
  unfold read?
  rw [length_put image offset data inside]
  split
  · congr 1
    apply List.ext_getElem?
    intro i
    rw [getElem?_read, getElem?_read, getElem?_put image offset data inside]
    split
    · rename_i near
      have outside : ¬ (offset ≤ start + i ∧ start + i < offset + data.length) := by omega
      rw [if_neg outside]
    · rfl
  · rfl

/-- The record of a slot. What is no slot has none. -/
def record? (image : List UInt8) (slot : Nat) : Option Record :=
  if slot < slotCount then (read? image (slotOffset slot) recordSize).bind Record.decode? else none

theorem record?_of_slot {slot : Nat} (isSlot : slot < slotCount) {image : List UInt8} :
    record? image slot = (read? image (slotOffset slot) recordSize).bind Record.decode? := by
  simp only [record?, isSlot, ↓reduceIte]

theorem slot_inside {image : List UInt8} (sized : image.length = imageSize) {slot : Nat}
    (isSlot : slot < slotCount) : slotOffset slot + recordSize ≤ image.length := by
  simp only [sized, imageSize, slotOffset, slotCount, recordSize] at *
  omega

/-- The bytes of one slot are written, and all other records stay. -/
theorem record?_put {image : List UInt8} (sized : image.length = imageSize) {slot : Nat}
    (isSlot : slot < slotCount) {data : List UInt8} (whole : data.length = recordSize)
    (other : Nat) :
    record? (put image (slotOffset slot) data) other =
      if other = slot then Record.decode? data else record? image other := by
  have inside := slot_inside sized isSlot
  by_cases same : other = slot
  · subst same
    have read := read?_put image (slotOffset other) data (by omega)
    rw [whole] at read
    rw [if_pos rfl, record?_of_slot isSlot, read]
    rfl
  · rw [if_neg same]
    unfold record?
    split
    · rename_i alsoSlot
      rw [read?_put_apart _ _ _ _ _ (by omega)]
      simp only [slotOffset, recordSize] at whole ⊢
      omega
    · rfl

/-- The first page of a slot. -/
theorem writePage?_first {image : List UInt8} (sized : image.length = imageSize) {slot : Nat}
    (isSlot : slot < slotCount) {data : List UInt8} (whole : data.length = pageSize) :
    writePage? image (slotPage slot) data = some (put image (slotOffset slot) data) := by
  have inside := slot_inside sized isSlot
  have place : slotPage slot * pageSize = slotOffset slot := by
    simp only [slotPage, slotOffset, pagesPerRecord, recordSize, pageSize]
    omega
  have room : slotOffset slot + pageSize ≤ image.length := by
    simp only [recordSize, pageSize] at *
    omega
  simp only [writePage?, whole, place, room, and_self, ↓reduceIte]

/-- The second page of a slot. -/
theorem writePage?_second {image : List UInt8} (sized : image.length = imageSize) {slot : Nat}
    (isSlot : slot < slotCount) {data : List UInt8} (whole : data.length = pageSize) :
    writePage? image (slotPage slot + 1) data =
      some (put image (slotOffset slot + pageSize) data) := by
  have inside := slot_inside sized isSlot
  have place : (slotPage slot + 1) * pageSize = slotOffset slot + pageSize := by
    simp only [slotPage, slotOffset, pagesPerRecord, recordSize, pageSize]
    omega
  have room : slotOffset slot + pageSize + pageSize ≤ image.length := by
    simp only [recordSize, pageSize] at *
    omega
  simp only [writePage?, whole, place, room, and_self, ↓reduceIte]

/-- Both pages of a slot are written one after the other. -/
theorem writePage?_both {image : List UInt8} (sized : image.length = imageSize) {slot : Nat}
    (isSlot : slot < slotCount) {first second : List UInt8} (wholeFirst : first.length = pageSize)
    (wholeSecond : second.length = pageSize) :
    ∃ half, writePage? image (slotPage slot) first = some half ∧
      writePage? half (slotPage slot + 1) second =
        some (put image (slotOffset slot) (first ++ second)) := by
  have inside := slot_inside sized isSlot
  have room : slotOffset slot + (first.length + second.length) ≤ image.length := by
    simp only [wholeFirst, wholeSecond, recordSize, pageSize] at *
    omega
  have length := length_put image (slotOffset slot) first (by omega)
  refine ⟨_, writePage?_first sized isSlot wholeFirst, ?_⟩
  rw [writePage?_second (length.trans sized) isSlot wholeSecond,
    ← put_append image (slotOffset slot) first second room, wholeFirst]

end Image

end RelayTimer
