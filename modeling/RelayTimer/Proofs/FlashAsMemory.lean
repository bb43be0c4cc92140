import Mathlib.Data.List.Induction
import RelayTimer.Proofs.AddressWords
import RelayTimer.Proofs.FlashFollows

set_option autoImplicit false

/-!
A store on a chip that does not fail, next to a store in memory to which the same is done: they
answer alike and hold the same image. The chip is written by a flush alone, and only where a byte has
been changed since the last one.
-/
namespace RelayTimer

/-- What is asked of a store, with addresses that are words. -/
inductive Access
  | read (offset length : UInt64)
  | write (page : UInt64) (data : List UInt8)
  | erase (page : UInt64)
  | flush
  deriving Repr, DecidableEq

namespace Access

/-- The call on a store, which answers with the bytes that are read. -/
def make {σ : Type} [ByteStore σ] : Access → StoreCall σ (List UInt8)
  | read offset length => ByteStore.readAt offset.toNat length.toNat
  | write page data => do
    ByteStore.writePage page.toNat data
    return []
  | erase page => do
    ByteStore.erasePage page.toNat
    return []
  | flush => do
    ByteStore.flush
    return []

/-- The store after a history of accesses. -/
def after {σ : Type} [ByteStore σ] (s : σ) (history : List Access) : σ :=
  history.foldl (fun s access => (access.make s).2) s

/-- The answer and the image that come of putting data in the place of a page. -/
def onPage (image : List UInt8) (page : UInt64) (data : List UInt8) :
    Except StoreError (List UInt8) × List UInt8 :=
  match Address.page? image.length page with
  | some (first, _) => (.ok [], Image.put image first.toNat data)
  | none => (.error .outOfRange, image)

/-- The answer and the image that come of an access where addresses are computed in words. -/
def onImage (image : List UInt8) : Access → Except StoreError (List UInt8) × List UInt8
  | read offset length =>
    match Address.bytes? image.length offset length with
    | some (first, last) => (.ok ((image.drop first.toNat).take (last.toNat - first.toNat)), image)
    | none => (.error .outOfRange, image)
  | write page data =>
    if data.length = pageSize then onPage image page data else (.error .outOfRange, image)
  | erase page => onPage image page (List.replicate pageSize erasedByte)
  | flush => (.ok [], image)

/-- The image of an erased store in memory after a history of accesses. -/
def imageAfter (size : Nat) (history : List Access) : List UInt8 :=
  (after ({ image := Image.erased size } : RamStore) history).image

/-- Some byte has been changed since the last flush. -/
def Unflushed (size : Nat) (history : List Access) : Prop :=
  ∃ before access later, history = before ++ access :: later ∧ flush ∉ later ∧
    imageAfter size (before ++ [access]) ≠ imageAfter size before

section words

variable {image : List UInt8}

/-- No address goes round: bytes are read as if addresses had no end. -/
theorem onImage_read (roomy : image.length < UInt64.size) (offset length : UInt64) :
    onImage image (read offset length) =
      match Image.read? image offset.toNat length.toNat with
      | some bytes => (.ok bytes, image)
      | none => (.error .outOfRange, image) := by
  rcases Address.bytes?_cases roomy offset length with ⟨inside, last, found, value⟩ | ⟨outside, refused⟩
  · simp only [onImage, found, Image.read?, inside, ↓reduceIte, value, Nat.add_sub_cancel_left]
  · simp only [onImage, refused, Image.read?, Nat.not_le.mpr outside, ↓reduceIte]

theorem onImage_write (roomy : image.length < UInt64.size) (page : UInt64) (data : List UInt8) :
    onImage image (write page data) =
      match Image.writePage? image page.toNat data with
      | some after => (.ok [], after)
      | none => (.error .outOfRange, image) := by
  by_cases whole : data.length = pageSize
  · rcases Address.page?_cases roomy page with
      ⟨inside, first, last, found, start, -⟩ | ⟨outside, refused⟩
    · simp only [onImage, onPage, found, Image.writePage?, whole, inside, and_self, ↓reduceIte, start]
    · simp only [onImage, onPage, refused, Image.writePage?, whole, Nat.not_le.mpr outside, and_false,
        ↓reduceIte]
  · simp only [onImage, Image.writePage?, whole, false_and, ↓reduceIte]

/-- A page is erased by writing erased bytes. -/
theorem onImage_erase (page : UInt64) : onImage image (erase page) =
    onImage image (write page (List.replicate pageSize erasedByte)) := by
  rw [onImage, onImage, if_pos List.length_replicate]

/-- No access changes the size of an image, and one that fails changes nothing. -/
theorem onImage_keeps (roomy : image.length < UInt64.size) (access : Access) :
    (access.onImage image).2.length = image.length ∧
      ∀ e, (access.onImage image).1 = .error e → (access.onImage image).2 = image := by
  have page (page : UInt64) (data : List UInt8) :
      ((write page data).onImage image).2.length = image.length ∧
        ∀ e, ((write page data).onImage image).1 = .error e →
          ((write page data).onImage image).2 = image := by
    rw [onImage_write roomy]
    cases written : Image.writePage? image page.toNat data with
    | none => exact ⟨rfl, fun _ _ => rfl⟩
    | some after => exact ⟨Image.length_of_writePage? written, nofun⟩
  cases access with
  | read offset length =>
      rw [onImage_read roomy]
      cases Image.read? image offset.toNat length.toNat with
      | none => exact ⟨rfl, fun _ _ => rfl⟩
      | some bytes => exact ⟨rfl, nofun⟩
  | write number data => exact page number data
  | erase number =>
      rw [onImage_erase]
      exact page number _
  | flush => exact ⟨rfl, nofun⟩

end words

section memory

variable {t : RamStore}

theorem make_write_memory (roomy : t.image.length < UInt64.size) (page : UInt64)
    (data : List UInt8) :
    (((write page data).make t).1, ((write page data).make t).2.image) =
      (write page data).onImage t.image := by
  rw [onImage_write roomy]
  simp only [make, StoreCall.bind_apply, ByteStore.writePage]
  cases Image.writePage? t.image page.toNat data <;> rfl

/-- A store in memory answers, and changes, as words say. -/
theorem make_memory (roomy : t.image.length < UInt64.size) (access : Access) :
    ((access.make t).1, (access.make t).2.image) = access.onImage t.image := by
  cases access with
  | read offset length =>
      rw [onImage_read roomy]
      simp only [make, ByteStore.readAt]
      cases Image.read? t.image offset.toNat length.toNat <;> rfl
  | write page data => exact make_write_memory roomy page data
  | erase page =>
      rw [onImage_erase]
      exact make_write_memory roomy page (List.replicate pageSize erasedByte)
  | flush => rfl

end memory

section flash

variable {s : FlashStore} {access : Access}

/-- All that an access does to a store on a chip that does not fail, but for the image. -/
structure Settled (access : Access) (s after : FlashStore) : Prop where
  place : after.offset = s.offset
  calm : after.chip.faults = []
  dirty : after.dirty = true ↔ (access ≠ flush ∧ s.dirty = true) ∨ after.image ≠ s.image
  commits : access = flush → s.dirty = true → after.chip.journal = s.chip.journal ++ s.commit
  untouched : (access = flush → s.dirty = false) → after.chip = s.chip

theorem settled_refl (calm : s.chip.faults = []) (other : access ≠ flush) : Settled access s s where
  place := rfl
  calm := calm
  dirty := by simp [other]
  commits := fun same => absurd same other
  untouched := fun _ => rfl

theorem settled_keep (calm : s.chip.faults = []) (other : access ≠ flush)
    (written : Option (List UInt8)) : Settled access s (s.keep written).2 := by
  cases written with
  | none => exact settled_refl calm other
  | some image =>
      refine ⟨rfl, calm, ?_, fun same => absurd same other, fun _ => rfl⟩
      simp [FlashStore.keep, other]

/-- A call that puts data in the place of a page, be it by writing or by erasing. -/
theorem make_page_flash (roomy : s.image.length < UInt64.size) (calm : s.chip.faults = [])
    {call : StoreCall FlashStore Unit} {page : UInt64} {data : List UInt8}
    (puts : call s = s.keep (Image.writePage? s.image page.toNat data)) (other : access ≠ flush) :
    let make : StoreCall FlashStore (List UInt8) := do
      call
      return []
    ((make s).1, (make s).2.image) = (write page data).onImage s.image ∧
      Settled access s (make s).2 := by
  have settled := settled_keep calm other (Image.writePage? s.image page.toNat data)
  rw [onImage_write roomy]
  simp only [StoreCall.bind_apply, puts]
  cases written : Image.writePage? s.image page.toNat data with
  | none => exact ⟨rfl, settled_refl calm other⟩
  | some image =>
      rw [written] at settled
      exact ⟨rfl, settled⟩

/-- A flush makes all its calls if the copy has been changed, and none if it has not. -/
theorem settled_flush (calm : s.chip.faults = [])
    (inRange : ∀ call ∈ s.commit, call.inRange = true) :
    ∃ after, ByteStore.flush s = (.ok (), after) ∧ after.image = s.image ∧
      Settled flush s after := by
  cases dirty : s.dirty with
  | false =>
      refine ⟨s, FlashStore.flush_clean dirty, rfl, rfl, calm, by simp [dirty], ?_, fun _ => rfl⟩
      intro _ changed
      rw [dirty] at changed
      cases changed
  | true =>
      refine ⟨_, FlashStore.flush_dirty calm inRange dirty, rfl, rfl, rfl, by simp,
        fun _ _ => rfl, ?_⟩
      intro unchanged
      rw [unchanged rfl] at dirty
      cases dirty

/-- A store on a chip that does not fail answers, and changes, as words say. -/
theorem make_flash (roomy : s.image.length < UInt64.size) (calm : s.chip.faults = [])
    (inRange : ∀ call ∈ s.commit, call.inRange = true) (access : Access) :
    ((access.make s).1, (access.make s).2.image) = access.onImage s.image ∧
      Settled access s (access.make s).2 := by
  cases access with
  | read offset length =>
      rw [onImage_read roomy]
      simp only [make, ByteStore.readAt]
      cases Image.read? s.image offset.toNat length.toNat with
      | none => exact ⟨rfl, settled_refl calm (by simp)⟩
      | some bytes => exact ⟨rfl, settled_refl calm (by simp)⟩
  | write page data =>
      exact make_page_flash roomy calm (FlashStore.writePage_eq_keep page.toNat data s) (by simp)
  | erase page =>
      rw [onImage_erase]
      exact make_page_flash roomy calm (FlashStore.erasePage_eq_keep page.toNat s) (by simp)
  | flush =>
      obtain ⟨after, done, same, settled⟩ := settled_flush calm inRange
      simp only [make, StoreCall.bind_apply, done, onImage, ← same]
      exact ⟨rfl, settled⟩

end flash

section history

variable {size : Nat}

theorem after_concat {σ : Type} [ByteStore σ] (s : σ) (history : List Access) (access : Access) :
    after s (history ++ [access]) = (access.make (after s history)).2 := by
  simp only [after, List.foldl_append, List.foldl_cons, List.foldl_nil]

theorem unflushed_nil : ¬ Unflushed size [] := by
  rintro ⟨before, access, later, split, -⟩
  simp at split

/-- A byte has been changed since the last flush if it was changed just now, or before and there has
been no flush. -/
theorem unflushed_concat (history : List Access) (access : Access) :
    Unflushed size (history ++ [access]) ↔ (access ≠ flush ∧ Unflushed size history) ∨
      imageAfter size (history ++ [access]) ≠ imageAfter size history := by
  constructor
  · rintro ⟨before, first, later, split, quiet, changed⟩
    rcases List.eq_nil_or_concat later with rfl | ⟨rest, last, rfl⟩
    · obtain ⟨rfl, same⟩ := List.append_inj' split rfl
      obtain rfl : access = first := List.head_eq_of_cons_eq same
      exact .inr changed
    · rw [List.concat_eq_append, ← List.cons_append, ← List.append_assoc] at split
      obtain ⟨rfl, same⟩ := List.append_inj' split rfl
      obtain rfl : access = last := List.head_eq_of_cons_eq same
      simp only [List.concat_eq_append, List.mem_append, List.mem_singleton, not_or] at quiet
      exact .inl ⟨Ne.symm quiet.2, before, first, rest, rfl, quiet.1, changed⟩
  · rintro (⟨other, before, first, later, rfl, quiet, changed⟩ | changed)
    · refine ⟨before, first, later ++ [access], by simp, ?_, changed⟩
      simp only [List.mem_append, List.mem_singleton, not_or]
      exact ⟨quiet, Ne.symm other⟩
    · exact ⟨history, access, [], rfl, by simp, changed⟩

/-- A store on a chip that does not fail, next to one in memory, after one history. -/
structure Beside (size : Nat) (offset : UInt32) (history : List Access) (s : FlashStore) : Prop where
  image : s.image = imageAfter size history
  length : s.image.length = size
  place : s.offset = offset.toNat
  calm : s.chip.faults = []
  dirty : s.dirty = true ↔ Unflushed size history

variable {offset : UInt32} {history : List Access} {s : FlashStore}

theorem Beside.roomy (beside : Beside size offset history s)
    (inside : FlashStore.fits size offset.toNat = true) : s.image.length < UInt64.size := by
  obtain ⟨-, room, -⟩ := (FlashStore.fits_iff size offset.toNat).mp inside
  rw [beside.length]
  simp only [sectorSize, Seal.size] at room
  simp only [UInt64.size]
  omega

theorem Beside.inRange (beside : Beside size offset history s)
    (inside : FlashStore.fits size offset.toNat = true) :
    ∀ call ∈ s.commit, call.inRange = true :=
  FlashStore.commit_inRange (by rwa [beside.place]) beside.length

/-- One access more is answered alike, and leaves the two stores next to each other. -/
theorem Beside.step (beside : Beside size offset history s)
    (inside : FlashStore.fits size offset.toNat = true) (access : Access) :
    Beside size offset (history ++ [access]) (access.make s).2 := by
  have roomy := beside.roomy inside
  have inRange := beside.inRange inside
  obtain ⟨same, length, place, calm, dirty⟩ := beside
  obtain ⟨made, settled⟩ := make_flash roomy calm inRange access
  have memory : imageAfter size (history ++ [access]) = (access.onImage s.image).2 := by
    rw [same] at roomy ⊢
    rw [imageAfter, after_concat]
    exact congrArg (·.2) (make_memory roomy access)
  have flash : (access.make s).2.image = (access.onImage s.image).2 := congrArg (·.2) made
  refine ⟨by rw [flash, memory], ?_, settled.place.trans place, settled.calm, ?_⟩
  · rw [flash, (onImage_keeps roomy access).1, length]
  · rw [settled.dirty, unflushed_concat, dirty, flash, memory, same]

/-- A store that is opened on a chip without a sealed image begins erased. -/
theorem beside_opened {chip : FlashChip} (calm : chip.faults = [])
    (unsealed : ∀ bank, chip.cells.generation? size offset.toNat bank = none) :
    Beside size offset [] (FlashStore.opened size offset.toNat chip) := by
  have found : chip.cells.found size offset.toNat = (none, 0, Image.erased size) := by
    rcases found_cases chip.cells size offset.toNat with ⟨-, found⟩ | ⟨bank, n, here, -⟩
    · exact found
    · rw [unsealed bank] at here
      cases here
  have fresh : FlashStore.opened size offset.toNat chip =
      { chip, offset := offset.toNat, image := Image.erased size } := by
    simp only [FlashStore.opened, found]
  rw [fresh]
  exact ⟨rfl, List.length_replicate, rfl, calm, by simp [unflushed_nil]⟩

theorem beside_after {start : FlashStore} (begun : Beside size offset [] start)
    (inside : FlashStore.fits size offset.toNat = true) (history : List Access) :
    Beside size offset history (after start history) := by
  induction history using List.reverseRecOn with
  | nil => exact begun
  | append_singleton history access ih =>
      rw [after_concat]
      exact ih.step inside access

end history

/-- An access comes to the same on a store on the chip and on one in memory. -/
structure Agrees (offset : UInt32) (access : Access) (unflushed : Prop) (s : FlashStore)
    (t : RamStore) : Prop where
  answer : (access.make s).1 = (access.make t).1
  image : (access.make s).2.image = (access.make t).2.image
  /-- It is what comes of addresses in words, none of which goes round. -/
  words : ((access.make t).1, (access.make t).2.image) = access.onImage t.image
  failed : ∀ e, (access.make t).1 = .error e →
    (access.make s).2.image = s.image ∧ (access.make t).2.image = t.image
  /-- What a flush would ask of the chip lies on it, at addresses that are words as well. -/
  addresses : s.commitWords offset = s.commit ∧ ∀ call ∈ s.commit, call.inRange = true
  commits : access = flush → unflushed →
    (access.make s).2.chip.journal = s.chip.journal ++ s.commit
  untouched : (access = flush → ¬ unflushed) → (access.make s).2.chip = s.chip

/-- Whatever has been done with a store on a chip without a sealed image and with an erased one in
memory, the next access comes to the same on both. Only a flush writes the chip, and only if some
byte has been changed since the last one. -/
theorem flash_as_memory {size : Nat} {offset : UInt32} {chip : FlashChip}
    (room : size + Seal.size ≤ sectorSize) (aligned : offset.toNat % sectorSize = 0)
    (onChip : offset.toNat + 2 * sectorSize ≤ flashSize) (calm : chip.faults = [])
    (unsealed : ∀ bank, chip.cells.generation? size offset.toNat bank = none) :
    ∃ flash, FlashStore.load size offset.toNat chip = (.ok flash, chip) ∧
      ∀ (history : List Access) (access : Access),
        access.Agrees offset (Unflushed size history) (after flash history)
          (after ({ image := Image.erased size } : RamStore) history) := by
  have inside : FlashStore.fits size offset.toNat = true :=
    (FlashStore.fits_iff size offset.toNat).mpr ⟨aligned, room, onChip⟩
  refine ⟨_, (FlashStore.load_cases inside chip).2.2 calm, ?_⟩
  intro history access
  let s := after (FlashStore.opened size offset.toNat chip) history
  let t := after ({ image := Image.erased size } : RamStore) history
  have beside : Beside size offset history s :=
    beside_after (beside_opened calm unsealed) inside history
  have same : s.image = t.image := beside.image
  have roomy := beside.roomy inside
  have inRange := beside.inRange inside
  obtain ⟨flash, settled⟩ := make_flash roomy beside.calm inRange access
  rw [same] at roomy flash
  have memory := make_memory roomy access
  have both := flash.trans memory.symm
  refine {
    answer := congrArg (·.1) both
    image := congrArg (·.2) both
    words := memory
    failed := ?_
    addresses := ⟨FlashStore.commitWords_eq inside beside.length beside.place, inRange⟩
    commits := fun now changed => settled.commits now (beside.dirty.mpr changed)
    untouched := fun quiet => settled.untouched fun now =>
      Bool.eq_false_iff.mpr fun dirty => quiet now (beside.dirty.mp dirty) }
  intro e fails
  have refused : (access.onImage t.image).1 = .error e := by
    rw [← memory]
    exact fails
  have kept := (onImage_keeps roomy access).2 e refused
  exact ⟨(congrArg (·.2) flash).trans (kept.trans same.symm), (congrArg (·.2) memory).trans kept⟩

/-- A page far outside, the address of which would go round to the first page. -/
theorem flash_as_memory_far_page :
    let chip : FlashChip := {}
    let history : List Access :=
      [.write 0 (List.replicate pageSize 0x5A), .flush, .read 39 1, .write 0 [1]]
    40 + Seal.size ≤ sectorSize ∧ (0 : UInt32).toNat % sectorSize = 0 ∧
      (0 : UInt32).toNat + 2 * sectorSize ≤ flashSize ∧ chip.faults = [] ∧
      (∀ bank, chip.cells.generation? 40 (0 : UInt32).toNat bank = none) ∧
      ∃ flash, FlashStore.load 40 (0 : UInt32).toNat chip = (.ok flash, chip) ∧
        (Access.erase 0x800000000000000).Agrees 0 (Unflushed 40 history) (after flash history)
          (after ({ image := Image.erased 40 } : RamStore) history) := by
  intro chip history
  have unsealed (bank : Bank) : chip.cells.generation? 40 (0 : UInt32).toNat bank = none := by
    cases bank <;> rfl
  obtain ⟨flash, loaded, agrees⟩ :=
    @flash_as_memory 40 0 chip (by decide) (by decide) (by decide) rfl unsealed
  exact ⟨by decide, by decide, by decide, rfl, unsealed, flash, loaded, agrees history _⟩

end Access

end RelayTimer
