import RelayTimer.Flash.Store
import RelayTimer.Proofs.StoreCall
import RelayTimer.Proofs.StoredImage

set_option autoImplicit false

/-!
Writing pages of the copy. A page is compared with what is to be written there, which tells whether
the image as a whole becomes another one.
-/
namespace RelayTimer

namespace Image

/-- Bytes that are written over the same ones leave an image as it is. -/
theorem put_eq_self_iff {image data : List UInt8} {offset : Nat}
    (inside : offset + data.length ≤ image.length) :
    put image offset data = image ↔ (image.drop offset).take data.length = data := by
  constructor
  · intro same
    have read := read?_put image offset data inside
    rw [same, read?, if_pos inside] at read
    exact Option.some.inj read
  · intro same
    have rest : image.drop (offset + data.length) = (image.drop offset).drop data.length :=
      List.drop_drop.symm
    have back : data ++ (image.drop offset).drop data.length = image.drop offset :=
      (congrArg (· ++ _) same.symm).trans (List.take_append_drop _ _)
    rw [put, List.append_assoc, rest, back, List.take_append_drop]

end Image

namespace FlashStore

variable {s : FlashStore} {page : Nat} {data : List UInt8}

/-- The store with another image for its copy, or as it is if there is none. -/
def keep (s : FlashStore) : Option (List UInt8) → Except StoreError Unit × FlashStore
  | some image => (.ok (), { s with image, dirty := s.dirty || image != s.image })
  | none => (.error .outOfRange, s)

theorem pageStart_inside (inside : page * pageSize + pageSize ≤ s.image.length) :
    pageStart page s = (.ok (page * pageSize), s) := by
  unfold pageStart
  rw [StoreCall.get_bind]
  simp only [Nat.not_lt.mpr inside, ↓reduceIte]
  rfl

theorem pageStart_outside (outside : ¬ page * pageSize + pageSize ≤ s.image.length) :
    pageStart page s = (.error .outOfRange, s) := by
  unfold pageStart
  rw [StoreCall.get_bind]
  simp only [Nat.not_le.mp outside, ↓reduceIte]
  rfl

/-- A page is changed where it differs, which is where the image does. -/
theorem change_eq_keep {differs : List UInt8 → Prop} [DecidablePred differs]
    (whole : data.length = pageSize)
    (tells : ∀ bytes, bytes.length = pageSize → (differs bytes ↔ bytes ≠ data)) :
    (pageStart page >>= fun start => get >>= fun now =>
      if differs (now.pageAt start) then modify (·.change start data) else pure () :
        StoreCall FlashStore Unit) s = s.keep (Image.writePage? s.image page data) := by
  rw [StoreCall.bind_apply]
  by_cases inside : page * pageSize + pageSize ≤ s.image.length
  · have written : Image.writePage? s.image page data = some (Image.put s.image _ data) :=
      if_pos ⟨whole, inside⟩
    have length : (s.pageAt (page * pageSize)).length = pageSize := by
      rw [pageAt, List.length_take, List.length_drop]
      omega
    have room : page * pageSize + data.length ≤ s.image.length := by omega
    have same := Image.put_eq_self_iff room
    rw [whole] at same
    rw [written, pageStart_inside inside]
    dsimp only
    rw [StoreCall.get_bind]
    by_cases equal : s.pageAt (page * pageSize) = data
    · have kept : ¬ differs (s.pageAt (page * pageSize)) := fun apart =>
        (tells _ length).mp apart equal
      rw [if_neg kept, keep, same.mpr equal, bne_self_eq_false, Bool.or_false]
      rfl
    · have apart : (Image.put s.image (page * pageSize) data != s.image) = true :=
        bne_iff_ne.mpr fun kept => equal (same.mp kept)
      rw [if_pos ((tells _ length).mpr equal), keep, apart, Bool.or_true]
      rfl
  · have refused : Image.writePage? s.image page data = none := if_neg fun fits => inside fits.2
    rw [pageStart_outside inside, refused]
    rfl

/-- To write a page is to put it in its place; the copy is taken for changed if it is. -/
theorem writePage_eq_keep (page : Nat) (data : List UInt8) (s : FlashStore) :
    ByteStore.writePage page data s = s.keep (Image.writePage? s.image page data) := by
  change writePage page data s = _
  unfold writePage
  by_cases whole : data.length = pageSize
  · simp only [whole, ne_eq, not_true_eq_false, ↓reduceIte]
    exact change_eq_keep whole fun _ _ => Iff.rfl
  · have refused : Image.writePage? s.image page data = none := if_neg fun fits => whole fits.1
    simp only [whole, ne_eq, not_false_eq_true, ↓reduceIte, refused]
    rfl

/-- To erase a page is to write erased bytes there. -/
theorem erasePage_eq_keep (page : Nat) (s : FlashStore) :
    ByteStore.erasePage page s = s.keep (Image.erasePage? s.image page) := by
  have erases (bytes : List UInt8) (whole : bytes.length = pageSize) :
      bytes.any (· != erasedByte) = true ↔ bytes ≠ List.replicate pageSize erasedByte := by
    simp [List.eq_replicate_iff, whole]
  exact change_eq_keep List.length_replicate erases

end FlashStore

end RelayTimer
