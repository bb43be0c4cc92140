import RelayTimer.Proofs.FailedScan

set_option autoImplicit false

/-!
What a look through a store that does not fail makes of any image: one in which each mark is with
one slot at most and the manual program is there, and in which another look changes nothing.
-/
namespace RelayTimer

open Fallible (image Reads)

namespace Image

/-- The record of a slot is the last one with the flag for a mark. -/
def LastFlagged (bytes : List UInt8) (d : Designation) (slot : Nat) : Prop :=
  Flagged bytes d slot ∧ ∀ t, Flagged bytes d t → t ≤ slot

/-- The manual program is there, and no two records have the flag for the same mark. -/
structure Settled (bytes : List UInt8) : Prop where
  manual : (record? bytes manualSlot).isSome
  one : ∀ d s t, Flagged bytes d s → Flagged bytes d t → s = t

end Image

namespace Catalog

section reads

variable {σ : Type} [ByteStore σ]

theorem ofStore_eq (store : σ) : ofStore store = (scan { store }).2 := rfl

variable [Fallible σ]

/-- Where reads work, a record that loses no flag is not written, and neither is the manual program
where it is there. -/
theorem slot?_scan {c : Catalog σ} (reads : Reads c.store) {s : Nat}
    (wins : ∀ d, Image.Flagged (image c.store) d s → Image.LastFlagged (image c.store) d s)
    (manual : s = manualSlot → (Image.record? (image c.store) manualSlot).isSome) :
    Image.slot? (image (scan c).2.store) s = Image.slot? (image c.store) s := by
  obtain ⟨found, read, answer, settled, looked, refreshed, written⟩ := scan_cases c
  obtain ⟨-, kept, below, sound, all⟩ := readAll_found _ looked
  have there : s = manualSlot → ∃ r, (manualSlot, r) ∈ found := by
    intro this
    obtain ⟨r, here⟩ := Option.isSome_iff_exists.mp (manual this)
    have record : c.readable.records manualSlot = some r := here
    refine ⟨r, ?_⟩
    rw [all reads]
    exact List.mem_filterMap.mpr ⟨manualSlot, by decide, by rw [record]; rfl⟩
  have upToDate : s ∈ flaggedSlots found → ∀ r, (read.noting found).readable.records s = some r →
      (read.noting found).readable.reflag s r = r := by
    intro member r here
    obtain ⟨own, one⟩ := mem_flaggedSlots member
    have record : (read.noting found).readable.records s = some own :=
      (congrArg (Image.record? · s) kept).trans (sound s own one)
    obtain rfl : own = r := Option.some.inj (record.symm.trans here)
    apply Classical.byContradiction
    intro outdated
    obtain ⟨d, u, before, lower, higher⟩ := lost_of_outdated below sound one outdated
    have last := (wins d lower).2 u higher
    omega
  refine (written s there).trans ((slot?_refreshAll refreshed upToDate).trans ?_)
  exact congrArg (Image.slot? · s) kept

theorem slot?_ofStore {store : σ} (reads : Reads store) {s : Nat}
    (wins : ∀ d, Image.Flagged (image store) d s → Image.LastFlagged (image store) d s)
    (manual : s = manualSlot → (Image.record? (image store) manualSlot).isSome) :
    Image.slot? (image (ofStore store).store) s = Image.slot? (image store) s :=
  slot?_scan (c := { store }) reads wins manual

end reads

section ram

variable {c : Catalog RamStore} {slot : Nat}

theorem readRecord_ram (c : Catalog RamStore) (slot : Nat) :
    readRecord slot c = (Image.record? c.store.image slot, c) := by
  unfold readRecord
  by_cases isSlot : slot < slotCount
  · rw [if_neg (by omega), Image.record?_of_slot isSlot]
    simp only [onStore, ByteStore.readAt]
    cases Image.read? c.store.image (slotOffset slot) recordSize <;> rfl
  · have absent : Image.record? c.store.image slot = none := if_neg isSlot
    rw [if_pos (by omega), absent]

theorem readAll_ram (c : Catalog RamStore) (slots : List Nat) : (readAll slots c).2 = c := by
  induction slots with
  | nil => rfl
  | cons slot rest ih =>
      rw [readAll_cons, readRecord_ram]
      exact ih

/-- Flags that are up to date are not written. -/
theorem refreshFlags_ram (upToDate : ∀ r, Image.record? c.store.image slot = some r →
    c.readable.reflag slot r = r) : refreshFlags slot c = (.ok (), c) := by
  have read : StoreCall.always (readRecord slot) c =
      (.ok (Image.record? c.store.image slot), c) := by
    simp only [StoreCall.always, readRecord_ram]
  unfold refreshFlags
  rw [StoreCall.bind_apply, read]
  cases here : Image.record? c.store.image slot with
  | none => rfl
  | some r =>
      have same := upToDate r here
      have flags : r.autostart = (c.flagsOf slot).1 ∧ r.lastUsed = (c.flagsOf slot).2 :=
        ⟨congrArg Record.autostart same.symm, congrArg Record.lastUsed same.symm⟩
      dsimp only
      rw [StoreCall.get_bind]
      exact congrFun (if_pos flags) c

theorem refreshAll_ram {slots : List Nat} (upToDate : ∀ s ∈ slots, ∀ r,
    Image.record? c.store.image s = some r → c.readable.reflag s r = r) :
    refreshAll slots c =
      (.ok (), { c with store := { c.store with flushes := c.store.flushes + 1 } }) := by
  induction slots with
  | nil => rfl
  | cons slot rest ih =>
      unfold refreshAll
      rw [StoreCall.bind_apply, refreshFlags_ram (upToDate slot List.mem_cons_self)]
      exact ih fun s member => upToDate s (List.mem_cons_of_mem _ member)

/-- A look through a store with a settled image writes nothing. -/
theorem store_scan (settled : Image.Settled c.store.image) :
    (scan c).2.store = { c.store with flushes := c.store.flushes + 1 } := by
  cases read : readAll (List.range slotCount) c with
  | mk found last =>
    obtain rfl : last = c := (congrArg Prod.snd read).symm.trans (readAll_ram c _)
    obtain ⟨-, -, below, sound, all⟩ := readAll_found _ read
    have upToDate : ∀ s ∈ flaggedSlots found, ∀ r, Image.record? last.store.image s = some r →
        (last.noting found).readable.reflag s r = r := by
      intro s member r here
      obtain ⟨own, there⟩ := mem_flaggedSlots member
      obtain rfl : own = r := Option.some.inj ((sound s own there).symm.trans here)
      apply Classical.byContradiction
      intro outdated
      obtain ⟨d, u, before, lower, higher⟩ := lost_of_outdated below sound there outdated
      have same := settled.one d s u lower higher
      omega
    have refreshed := refreshAll_ram (c := last.noting found) upToDate
    have manual : (found.map (·.1)).contains manualSlot = true := by
      rw [List.contains_iff_mem, all trivial, slots_of_all, List.mem_filter]
      exact ⟨by decide, settled.manual⟩
    rw [scan_apply, read]
    dsimp only
    rw [if_pos manual, refreshed]
    rfl

end ram

/-- What is to become of an image when a catalog is set up on it. -/
structure Normalized (c : Catalog RamStore) (before : List UInt8) : Prop where
  manualKept : ∀ r, Image.record? before manualSlot = some r →
    (Image.record? c.store.image manualSlot).map Record.text = some r.text
  manualRestored : Image.record? before manualSlot = none →
    ∃ r, Image.record? c.store.image manualSlot = some r ∧ r.text = defaultManualText ∧
      ∀ d, r.flag d = false
  texts : ∀ s, s ≠ manualSlot → (Image.record? c.store.image s).map Record.text =
    (Image.record? before s).map Record.text
  occupied : ∀ s, c.isOccupied s = (Image.record? c.store.image s).isSome
  flagged : ∀ d s, Image.Flagged c.store.image d s ↔ Image.LastFlagged before d s
  designated : ∀ d s, c.designated d = some s ↔ Image.LastFlagged before d s
  /-- Nothing is written but where a flag is lost or the manual program is missing. -/
  bytes : ∀ s, (∀ d, Image.Flagged before d s → Image.LastFlagged before d s) →
    (s = manualSlot → (Image.record? before manualSlot).isSome) →
    Image.slot? c.store.image s = Image.slot? before s

/-- Another look has written no page and found the same. -/
structure Stays (c again : Catalog RamStore) : Prop where
  image : again.store.image = c.store.image
  pageWrites : again.store.pageWrites = c.store.pageWrites
  occupied : ∀ s, again.isOccupied s = c.isOccupied s
  designated : ∀ d, again.designated d = c.designated d

theorem designated_ofStore_some_iff (store : RamStore) (d : Designation) (s : Nat) :
    (ofStore store).designated d = some s ↔ Image.LastFlagged store.image d s := by
  rw [designated_ofStore trivial, Ledger.getLast?_flagged_eq_iff]
  simp only [mem_flagged_readable, Option.mem_some_iff, forall_eq', exists_eq_left']
  rfl

namespace Holds

variable {c : Catalog RamStore} {h : Shelf}

theorem flagged_iff (holds : c.Holds h) (d : Designation) (s : Nat) :
    Image.Flagged c.store.image d s ↔ c.designated d = some s := by
  have marked := designated_ledger c d
  constructor
  · rintro ⟨r, here, raised⟩
    have flag := holds.agrees.flag d s r here
    rw [raised, marked] at flag
    exact eq_of_beq flag.symm
  · intro designated
    obtain ⟨r, here⟩ :=
      Option.isSome_iff_exists.mp (holds.agrees.designated d s (marked.trans designated))
    refine ⟨r, here, ?_⟩
    rw [holds.agrees.flag d s r here, marked, designated]
    simp

/-- What a catalog has been set up on is settled. -/
theorem settled (holds : c.Holds h) : Image.Settled c.store.image := by
  refine ⟨holds.agrees.manual, ?_⟩
  intro d s t first second
  rw [holds.flagged_iff] at first second
  exact Option.some.inj (first.symm.trans second)

/-- Whatever is remembered beforehand, another look at the same store changes nothing. -/
theorem stays (holds : c.Holds h) (again : Catalog RamStore) (same : again.store = c.store) :
    c.Stays (Catalog.scan again).2 := by
  have written := store_scan (c := again) (by rw [same]; exact holds.settled)
  rw [same] at written
  have sized : again.Sized := by
    unfold Sized
    rw [same]
    exact holds.sized
  obtain ⟨last, done, -, ledger⟩ := leaves_scan sized
  have coherent : last.ledger.Coherent := by
    rw [ledger]
    exact .scan (lt_of_record again)
  rw [done] at written
  rw [done]
  dsimp only at written ⊢
  refine ⟨by rw [written], by rw [written], ?_, ?_⟩
  · intro s
    have image : last.store.image = c.store.image := by rw [written]
    have records : last.ledger.records = c.ledger.records := congrArg Image.record? image
    refine (coherent.occupied s).trans ?_
    rw [records]
    exact (holds.agrees.occupied s).symm
  · intro d
    have found := designated_scan (c := again) trivial d
    have records : again.readable.flagged d = c.ledger.flagged d := by
      simp only [Ledger.flagged, readable, same]
      rfl
    rw [done, records, Ledger.getLast?_flagged holds.agrees.toCoherent] at found
    refine found.trans ?_
    cases d <;> rfl

theorem stays_ofStore (holds : c.Holds h) : c.Stays (Catalog.ofStore c.store) := by
  rw [ofStore_eq]
  exact holds.stays { store := c.store } rfl

end Holds

/-- A catalog that holds what some records say, with each mark where its last flag is. -/
theorem Holds.normalized {c : Catalog RamStore} {before : List UInt8}
    (holds : c.Holds (Shelf.ofRecords (Image.record? before)))
    (designated : ∀ d s, c.designated d = some s ↔ Image.LastFlagged before d s)
    (bytes : ∀ s, (∀ d, Image.Flagged before d s → Image.LastFlagged before d s) →
      (s = manualSlot → (Image.record? before manualSlot).isSome) →
      Image.slot? c.store.image s = Image.slot? before s) : c.Normalized before := by
  have texts (s : Nat) : (Image.record? c.store.image s).map Record.text =
      if s = manualSlot ∧ Image.record? before s = none then some defaultManualText
      else (Image.record? before s).map Record.text :=
    congrFun (congrArg Shelf.texts holds.shelf) s
  have flagged (d : Designation) (s : Nat) :
      Image.Flagged c.store.image d s ↔ Image.LastFlagged before d s := by
    rw [holds.flagged_iff, designated]
  refine ⟨?_, ?_, ?_, holds.agrees.occupied, flagged, designated, bytes⟩
  · intro r there
    rw [texts, there]
    simp
  · intro missing
    have text := texts manualSlot
    rw [if_pos ⟨rfl, missing⟩] at text
    obtain ⟨r, here, own⟩ := Option.map_eq_some_iff.mp text
    refine ⟨r, here, own, ?_⟩
    intro d
    cases flag : r.flag d with
    | false => rfl
    | true =>
        obtain ⟨⟨old, was, -⟩, -⟩ := (flagged d manualSlot).mp ⟨r, here, flag⟩
        rw [missing] at was
        cases was
  · intro s other
    rw [texts, if_neg fun missing => other missing.1]

/-- Whatever is in a store at first, a catalog that is set up on it normalizes it, and then neither
another look nor another catalog changes anything. -/
theorem ofStore_normalizes {store : RamStore} (sized : store.image.length = imageSize) :
    (ofStore store).Normalized store.image ∧ (ofStore store).Stays (scan (ofStore store)).2 ∧
      (ofStore store).Stays (ofStore (ofStore store).store) := by
  have holds := Holds.ofStore store sized
  have normalized := holds.normalized (designated_ofStore_some_iff store) fun s wins manual =>
    slot?_ofStore (σ := RamStore) trivial wins manual
  exact ⟨normalized, holds.stays _ rfl, holds.stays_ofStore⟩

/-- Two programs have the flag to play at the start: the later one keeps it. -/
theorem ofStore_normalizes_twice_marked :
    let r := Record.ofText "o 1s" true false
    let image := Image.put (Image.put (Image.erased imageSize) (slotOffset 3) r.encode)
      (slotOffset 5) r.encode
    let c : Catalog RamStore := ofStore { image }
    image.length = imageSize ∧ c.Normalized image ∧ c.designated .autostart = some 5 ∧
      ¬ Image.Flagged c.store.image .autostart 3 := by
  intro r image c
  have blank : (Image.erased imageSize).length = imageSize := List.length_replicate
  have whole := r.length_encode
  have once : (Image.put (Image.erased imageSize) (slotOffset 3) r.encode).length = imageSize := by
    rw [Image.length_put _ _ _ (by rw [blank, whole]; decide), blank]
  have sized : image.length = imageSize := by
    rw [Image.length_put _ _ _ (by rw [once, whole]; decide), once]
  have records (s : Nat) : Image.record? image s = if s = 5 ∨ s = 3 then some r else none := by
    rw [Image.record?_put once (by decide) whole, Image.record?_put blank (by decide) whole,
      Image.record?_erased, Record.decode?_encode]
    by_cases five : s = 5 <;> by_cases three : s = 3 <;> simp [five, three]
  have last : Image.LastFlagged image .autostart 5 := by
    refine ⟨⟨r, by rw [records]; rfl, rfl⟩, ?_⟩
    rintro t ⟨own, here, -⟩
    rw [records] at here
    split at here
    · omega
    · cases here
  have normalized : c.Normalized image := (ofStore_normalizes sized).1
  refine ⟨sized, normalized, (normalized.designated _ _).mpr last, ?_⟩
  intro flagged
  have most := ((normalized.flagged _ _).mp flagged).2 5 last.1
  omega

end Catalog

end RelayTimer
