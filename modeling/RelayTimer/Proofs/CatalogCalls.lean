import RelayTimer.Proofs.Ledger
import RelayTimer.Proofs.StoreCall
import RelayTimer.Store.Ram

set_option autoImplicit false

/-!
On a store that never fails, what a catalog does is done to its ledger.
-/
namespace RelayTimer

/-- A store that never fails: it holds an image, in which pages are written and erased. -/
class Faultless (σ : Type) [ByteStore σ] where
  image : σ → List UInt8
  readAt (s : σ) (offset length : Nat) (bytes : List UInt8)
    (inside : Image.read? (image s) offset length = some bytes) :
    ∃ after, ByteStore.readAt offset length s = (.ok bytes, after) ∧ image after = image s
  writePage (s : σ) (page : Nat) (data written : List UInt8)
    (inside : Image.writePage? (image s) page data = some written) :
    ∃ after, ByteStore.writePage page data s = (.ok (), after) ∧ image after = written
  erasePage (s : σ) (page : Nat) (written : List UInt8)
    (inside : Image.erasePage? (image s) page = some written) :
    ∃ after, ByteStore.erasePage page s = (.ok (), after) ∧ image after = written
  flush (s : σ) : ∃ after, ByteStore.flush s = (.ok (), after) ∧ image after = image s

instance : Faultless RamStore where
  image := RamStore.image
  readAt s offset length bytes inside := by
    refine ⟨s, ?_, rfl⟩
    simp only [ByteStore.readAt, inside]
  writePage s page data written inside := by
    refine ⟨{ s with image := written, pageWrites := s.pageWrites + 1 }, ?_, rfl⟩
    simp only [ByteStore.writePage, inside, RamStore.keep]
  erasePage s page written inside := by
    refine ⟨{ s with image := written, pageWrites := s.pageWrites + 1 }, ?_, rfl⟩
    simp only [ByteStore.erasePage, inside, RamStore.keep]
  flush s := ⟨{ s with flushes := s.flushes + 1 }, rfl, rfl⟩

namespace Catalog

variable {σ : Type} [ByteStore σ]

theorem write_beyond (c : Catalog σ) {slot : Nat} (beyond : slotCount ≤ slot) (text : String) :
    write slot text c = (.error .outOfRange, c) := by
  unfold write
  simp only [beyond, ↓reduceIte]
  rfl

theorem erase_beyond (c : Catalog σ) {slot : Nat} (beyond : slotCount ≤ slot) :
    erase slot c = (.error .outOfRange, c) := by
  unfold erase
  simp only [beyond, ↓reduceIte]
  rfl

theorem reassign_beyond (c : Catalog σ) (d : Designation) {slot : Option Nat}
    (beyond : ∃ s ∈ slot, slotCount ≤ s) : reassign d slot c = (.error .outOfRange, c) := by
  have outside : slot.any (slotCount ≤ ·) = true := by simpa [Option.any_eq_true] using beyond
  unfold reassign
  simp only [outside, ↓reduceIte]
  rfl

variable [Faultless σ]

/-- The store has room for the records of all slots, and for nothing else. -/
def Sized (c : Catalog σ) : Prop := (Faultless.image c.store).length = imageSize

/-- What the catalog remembers, next to the records in its store. -/
def ledger (c : Catalog σ) : Ledger :=
  { records := Image.record? (Faultless.image c.store)
    occupied := c.occupied
    autostart := c.autostart
    lastUsed := c.lastUsed
    selected := c.selected }

/-- The call answers so on a catalog, and this is the ledger then. -/
def Leaves {α : Type} (call : Catalog σ → α × Catalog σ) (c : Catalog σ) (answer : α)
    (l : Ledger) : Prop :=
  ∃ after, call c = (answer, after) ∧ after.Sized ∧ after.ledger = l

variable {c : Catalog σ} {α β : Type}

theorem Leaves.pure {a : α} (sized : c.Sized) :
    Leaves (Pure.pure a : StoreCall (Catalog σ) α) c (.ok a) c.ledger :=
  ⟨c, rfl, sized, rfl⟩

/-- A call after one that answers. -/
theorem Leaves.bind {call : StoreCall (Catalog σ) α} {next : α → StoreCall (Catalog σ) β} {a : α}
    {l last : Ledger} {answer : Except StoreError β} (first : Leaves call c (.ok a) l)
    (later : ∀ mid : Catalog σ, mid.Sized → mid.ledger = l → Leaves (next a) mid answer last) :
    Leaves (call >>= next) c answer last := by
  obtain ⟨mid, done, sized, ledger⟩ := first
  obtain ⟨after, doneLater, kept⟩ := later mid sized ledger
  refine ⟨after, ?_, kept⟩
  rw [StoreCall.bind_apply, done]
  exact doneLater

/-- A step after another one, where neither can fail. -/
theorem Leaves.then {step : StateM (Catalog σ) α} {next : α → StateM (Catalog σ) β} {a : α} {b : β}
    {l last : Ledger} (first : Leaves step c a l)
    (later : ∀ mid : Catalog σ, mid.Sized → mid.ledger = l → Leaves (next a) mid b last) :
    Leaves (step >>= next) c b last := by
  obtain ⟨mid, done, sized, ledger⟩ := first
  obtain ⟨after, doneLater, kept⟩ := later mid sized ledger
  refine ⟨after, ?_, kept⟩
  change next (step c).1 (step c).2 = _
  rw [done]
  exact doneLater

theorem leaves_readRecord (sized : c.Sized) (slot : Nat) :
    Leaves (readRecord slot) c (c.ledger.records slot) c.ledger := by
  by_cases isSlot : slot < slotCount
  · have inside := Image.slot_inside sized isSlot
    have read : Image.read? (Faultless.image c.store) (slotOffset slot) recordSize = some _ :=
      if_pos inside
    obtain ⟨after, done, same⟩ := Faultless.readAt c.store _ _ _ read
    refine ⟨{ c with store := after }, ?_, ?_, ?_⟩
    · have noEnd : ¬ slotCount ≤ slot := by omega
      have record : c.ledger.records slot = _ := Image.record?_of_slot isSlot
      rw [record, read]
      simp only [readRecord, noEnd, ↓reduceIte, onStore, done, Option.bind_some]
    · unfold Sized
      rw [same]
      exact sized
    · simp only [ledger, same]
  · refine ⟨c, ?_, sized, rfl⟩
    have beyond : slotCount ≤ slot := by omega
    have absent : c.ledger.records slot = none := if_neg isSlot
    rw [absent]
    simp only [readRecord, beyond, ↓reduceIte]

/-- Bytes that are written over those of a slot leave every other record. -/
theorem ledger_put (sized : c.Sized) {slot : Nat} (isSlot : slot < slotCount) {data : List UInt8}
    (whole : data.length = recordSize) {after : σ}
    (written : Faultless.image after = Image.put (Faultless.image c.store) (slotOffset slot) data) :
    ({ c with store := after } : Catalog σ).Sized ∧
      ({ c with store := after } : Catalog σ).ledger =
        c.ledger.put slot (Record.decode? data) := by
  have inside := Image.slot_inside sized isSlot
  refine ⟨?_, ?_⟩
  · unfold Sized
    rw [written, Image.length_put _ _ _ (by omega)]
    exact sized
  · simp only [ledger, Ledger.put, written, Ledger.mk.injEq, and_true]
    funext s
    exact Image.record?_put sized isSlot whole s

theorem leaves_writeRecord (sized : c.Sized) {slot : Nat} (isSlot : slot < slotCount)
    (r : Record) : Leaves (writeRecord slot r) c (.ok ()) (c.ledger.put slot (some r)) := by
  have length := r.length_encode
  have wholeFirst : (r.encode.take pageSize).length = pageSize := by
    simp [length, recordSize, pageSize]
  have wholeSecond : (r.encode.drop pageSize).length = pageSize := by
    simp [length, recordSize, pageSize]
  obtain ⟨half, first, second⟩ := Image.writePage?_both sized isSlot wholeFirst wholeSecond
  rw [List.take_append_drop] at second
  obtain ⟨mid, doneFirst, imageMid⟩ := Faultless.writePage c.store _ _ _ first
  rw [← imageMid] at second
  obtain ⟨after, doneSecond, image⟩ := Faultless.writePage mid _ _ _ second
  have kept := ledger_put sized isSlot length image
  rw [Record.decode?_encode] at kept
  refine ⟨{ c with store := after }, ?_, kept⟩
  unfold writeRecord onStore
  simp only [StoreCall.bind_apply, doneFirst, doneSecond]

theorem leaves_flush (sized : c.Sized) : Leaves flush c (.ok ()) c.ledger := by
  obtain ⟨after, done, same⟩ := Faultless.flush c.store
  refine ⟨{ c with store := after }, ?_, ?_, ?_⟩
  · simp only [flush, onStore, done]
  · unfold Sized
    rw [same]
    exact sized
  · simp only [ledger, same]

/-- What is remembered changes, and the store does not. -/
theorem leaves_modify (sized : c.Sized) (change : Catalog σ → Catalog σ)
    (store : (change c).store = c.store) :
    Leaves (modify change : StoreCall (Catalog σ) Unit) c (.ok ()) (change c).ledger := by
  refine ⟨change c, rfl, ?_, rfl⟩
  unfold Sized
  rw [store]
  exact sized

theorem leaves_get (sized : c.Sized) :
    Leaves (get : StoreCall (Catalog σ) (Catalog σ)) c (.ok c) c.ledger :=
  ⟨c, rfl, sized, rfl⟩

theorem leaves_write (sized : c.Sized) {slot : Nat} (isSlot : slot < slotCount) (text : String) :
    Leaves (write slot text) c (.ok ()) (c.ledger.write slot text) := by
  have noEnd : ¬ slotCount ≤ slot := by omega
  unfold write
  simp only [noEnd, ↓reduceIte]
  refine (leaves_get sized).bind ?_
  intro start sizedStart same
  refine (leaves_writeRecord sizedStart isSlot _).bind ?_
  intro written sizedWritten put
  refine (leaves_flush sizedWritten).bind ?_
  intro last sizedLast flushed
  have done : ({ last with occupied := last.occupied.insert slot } : Catalog σ).ledger =
      { last.ledger with occupied := last.ledger.occupied.insert slot } := rfl
  rw [flushed, put, same] at done
  have remembered := leaves_modify sizedLast
    (fun c => { c with occupied := c.occupied.insert slot }) rfl
  rw [done] at remembered
  exact remembered

theorem leaves_restoreManual (sized : c.Sized) :
    Leaves restoreManual c () (c.ledger.write manualSlot defaultManualText) := by
  obtain ⟨after, done, kept⟩ := leaves_write sized (by decide : manualSlot < slotCount)
    defaultManualText
  refine ⟨after, ?_, kept⟩
  simp only [restoreManual, done]

theorem ledger_forget (c : Catalog σ) (slot : Nat) :
    (c.forget slot).ledger = { c.ledger with
      occupied := c.ledger.occupied.remove slot
      autostart := if c.ledger.autostart = some slot then none else c.ledger.autostart
      lastUsed := if c.ledger.lastUsed = some slot then none else c.ledger.lastUsed
      selected := if c.ledger.selected = some slot then some manualSlot else c.ledger.selected } :=
  rfl

theorem leaves_erasePages (sized : c.Sized) {slot : Nat} (isSlot : slot < slotCount) :
    Leaves (onStore do
      ByteStore.erasePage (slotPage slot)
      ByteStore.erasePage (slotPage slot + 1)
      ByteStore.flush) c (.ok ()) (c.ledger.put slot none) := by
  let page := List.replicate pageSize erasedByte
  have whole : page.length = pageSize := by simp [page]
  obtain ⟨half, first, second⟩ := Image.writePage?_both sized isSlot whole whole
  obtain ⟨mid, doneFirst, imageMid⟩ := Faultless.erasePage c.store _ _ first
  rw [← imageMid] at second
  obtain ⟨later, doneSecond, imageLater⟩ := Faultless.erasePage mid _ _ second
  obtain ⟨after, flushed, same⟩ := Faultless.flush later
  have length : (page ++ page).length = recordSize := by
    simp [whole, recordSize, pageSize]
  have kept := ledger_put sized isSlot length (same.trans imageLater)
  have blank : Record.decode? (page ++ page) = none := by
    simp only [page, List.replicate_append_replicate]
    exact Record.decode?_erased _
  rw [blank] at kept
  refine ⟨{ c with store := after }, ?_, kept⟩
  unfold onStore
  simp only [StoreCall.bind_apply, doneFirst, doneSecond, flushed]

theorem leaves_erase (sized : c.Sized) {slot : Nat} (isSlot : slot < slotCount) :
    Leaves (erase slot) c (.ok ()) (c.ledger.erase slot) := by
  have noEnd : ¬ slotCount ≤ slot := by omega
  unfold erase
  simp only [noEnd, ↓reduceIte]
  refine (leaves_erasePages sized isSlot).bind ?_
  intro erased sizedErased put
  refine (leaves_modify sizedErased (·.forget slot) rfl).bind ?_
  intro cleared sizedCleared forgotten
  have ledger : cleared.ledger = c.ledger.clear slot := by
    rw [forgotten, ledger_forget, put]
    rfl
  unfold Ledger.erase
  split
  · rename_i manual
    obtain ⟨after, done, kept⟩ := leaves_restoreManual sizedCleared
    rw [ledger] at kept
    exact ⟨after, by simp only [StoreCall.always, done], kept⟩
  · rw [← ledger]
    exact .pure sizedCleared

theorem lt_of_record (c : Catalog σ) (slot : Nat) (there : (c.ledger.records slot).isSome) :
    slot < slotCount := by
  apply Decidable.byContradiction
  intro beyond
  have absent : c.ledger.records slot = none := if_neg beyond
  rw [absent] at there
  cases there

/-- Without a record there are no flags to bring up to date, and flags that are up to date stay. -/
theorem refresh_same (l : Ledger) (slot : Nat)
    (same : ∀ r, l.records slot = some r → l.reflag slot r = r) : l.refresh slot = l := by
  have kept : (l.records slot).map (l.reflag slot) = l.records slot := by
    cases here : l.records slot with
    | none => rfl
    | some r => rw [Option.map_some, same r here]
  obtain ⟨records, occupied, autostart, lastUsed, selected⟩ := l
  simp only [Ledger.refresh, Ledger.put, Ledger.mk.injEq, and_true]
  funext s
  split
  · rename_i this
    rw [this]
    exact kept
  · rfl

theorem leaves_refreshFlags (sized : c.Sized) (slot : Nat) :
    Leaves (refreshFlags slot) c (.ok ()) (c.ledger.refresh slot) := by
  have read : Leaves (StoreCall.always (readRecord slot)) c (.ok (c.ledger.records slot))
      c.ledger := by
    obtain ⟨after, done, kept⟩ := leaves_readRecord sized slot
    exact ⟨after, by simp only [StoreCall.always, done], kept⟩
  unfold refreshFlags
  refine read.bind ?_
  intro mid sizedMid same
  cases here : c.ledger.records slot with
  | none =>
      rw [refresh_same _ _ (by simp [here]), ← same]
      exact .pure sizedMid
  | some r =>
      dsimp only
      refine (leaves_get sizedMid).bind ?_
      intro start sizedStart sameStart
      have flags : mid.flagsOf slot = (c.ledger.autostart == some slot,
          c.ledger.lastUsed == some slot) := by
        rw [← same]
        rfl
      simp only [flags]
      split
      · rename_i upToDate
        have kept : c.ledger.refresh slot = c.ledger := by
          apply refresh_same
          intro other there
          rw [here] at there
          cases there
          obtain ⟨autostart, lastUsed, field, length⟩ := r
          simp only at upToDate
          simp only [Ledger.reflag, ← upToDate.1, ← upToDate.2]
        rw [kept, ← same, ← sameStart]
        exact .pure sizedStart
      · have isSlot := lt_of_record c slot (by simp [here])
        have written := leaves_writeRecord sizedStart isSlot (c.ledger.reflag slot r)
        rw [sameStart, same] at written
        unfold Ledger.refresh
        rw [here]
        exact written

theorem leaves_refreshAll (sized : c.Sized) (slots : List Nat) :
    Leaves (refreshAll slots) c (.ok ()) (c.ledger.refreshAll slots) := by
  induction slots generalizing c with
  | nil => exact leaves_flush sized
  | cons slot rest ih =>
      refine (leaves_refreshFlags sized slot).bind ?_
      intro mid sizedMid refreshed
      have later := ih sizedMid
      rw [refreshed] at later
      exact later

theorem ledger_designate (c : Catalog σ) (d : Designation) (slot : Option Nat) :
    (c.designate d slot).ledger = c.ledger.designate d slot := by
  cases d <;> rfl

theorem designated_ledger (c : Catalog σ) (d : Designation) :
    c.ledger.designated d = c.designated d := by
  cases d <;> rfl

/-- The slot that takes a mark has its flags brought up to date last. -/
theorem leaves_refreshNew (sized : c.Sized) (slot : Option Nat) :
    Leaves (match slot with
      | some new => do
        refreshFlags new
        flush
      | none => flush : StoreCall (Catalog σ) Unit) c (.ok ()) (c.ledger.refreshAll slot.toList) := by
  cases slot with
  | none => exact leaves_flush sized
  | some new => exact leaves_refreshAll sized [new]

theorem leaves_reassign (sized : c.Sized) (d : Designation) (slot : Option Nat)
    (inside : ∀ s ∈ slot, s < slotCount) :
    Leaves (reassign d slot) c (.ok ()) (c.ledger.reassign d slot) := by
  have noEnd : slot.any (slotCount ≤ ·) = false := by
    rw [Option.any_eq_false]
    intro s marked
    have := inside s marked
    simpa using this
  unfold reassign
  simp only [noEnd, Bool.false_eq_true, ↓reduceIte]
  refine (leaves_get sized).bind ?_
  intro start sizedStart same
  refine (leaves_modify sizedStart (·.designate d slot) (by simp)).bind ?_
  intro marked sizedMarked designated
  rw [ledger_designate, same] at designated
  rw [← designated_ledger]
  unfold Ledger.reassign
  split
  · rename_i unchanged
    have kept : c.ledger.designate d slot = c.ledger := by
      rw [← unchanged]
      cases d <;> rfl
    rw [← kept, ← designated]
    exact .pure sizedMarked
  · cases c.ledger.designated d with
    | none =>
        have refreshed := leaves_refreshNew sizedMarked slot
        rw [designated] at refreshed
        exact refreshed
    | some old =>
        refine (leaves_refreshFlags sizedMarked old).bind ?_
        intro mid sizedMid refreshed
        have later := leaves_refreshNew sizedMid slot
        rw [refreshed, designated] at later
        exact later

/-- The records that are there, each with its slot. -/
theorem leaves_readAll (sized : c.Sized) (slots : List Nat) :
    Leaves (readAll slots) c
      (slots.filterMap fun s => (c.ledger.records s).map fun r => (s, r)) c.ledger := by
  induction slots generalizing c with
  | nil => exact ⟨c, rfl, sized, rfl⟩
  | cons slot rest ih =>
      refine (leaves_readRecord sized slot).then ?_
      intro mid sizedMid same
      refine (ih sizedMid).then ?_
      intro last sizedLast sameLast
      rw [same] at sameLast
      refine ⟨last, ?_, sizedLast, sameLast⟩
      rw [same]
      cases here : c.ledger.records slot <;> simp [here] <;> rfl

/-- The slots of the records that satisfy `p`. -/
theorem slots_of_records (records : Nat → Option Record) (p : Record → Bool) (slots : List Nat) :
    ((slots.filterMap fun s => (records s).map fun r => (s, r)).filter fun x => p x.2).map (·.1) =
      slots.filter fun s => (records s).any p := by
  induction slots with
  | nil => rfl
  | cons slot rest ih =>
      cases here : records slot with
      | none => simpa [here] using ih
      | some r => cases raised : p r <;> simpa [here, raised] using ih

theorem slots_of_all (records : Nat → Option Record) (slots : List Nat) :
    (slots.filterMap fun s => (records s).map fun r => (s, r)).map (·.1) =
      slots.filter fun s => (records s).isSome := by
  have all := slots_of_records records (fun _ => true) slots
  rw [List.filter_eq_self.mpr (by simp)] at all
  rw [all]
  apply List.filter_congr
  intro s member
  cases records s <;> rfl

theorem contains_slots (p : Nat → Bool) {s : Nat} (isSlot : s < slotCount) :
    ((List.range slotCount).filter p).contains s = p s := by
  rw [Bool.eq_iff_iff]
  simp [isSlot]

/-- The marks that are found, and the slots whose flags are looked at again. -/
theorem remember_eq (l : Ledger) :
    Occupancy.ofPred ((List.range slotCount).filter fun s => (l.records s).isSome).contains =
      Occupancy.ofPred (fun s => (l.records s).isSome) ∧
    (((List.range slotCount).filter fun s => (l.records s).isSome).filter fun s =>
      (l.flagged .autostart).contains s || (l.flagged .lastUsed).contains s) =
      (List.range slotCount).filter fun s =>
        (l.records s).any fun r => r.autostart || r.lastUsed := by
  refine ⟨?_, ?_⟩
  · unfold Occupancy.ofPred
    congr 1
    apply List.filter_congr
    intro s member
    exact contains_slots _ (List.mem_range.mp member)
  · rw [List.filter_filter]
    apply List.filter_congr
    intro s member
    have isSlot := List.mem_range.mp member
    unfold Ledger.flagged
    rw [contains_slots _ isSlot, contains_slots _ isSlot]
    cases l.records s with
    | none => rfl
    | some r => simp [Record.flag]

theorem leaves_scan (sized : c.Sized) : Leaves scan c () c.ledger.scan := by
  unfold scan
  refine (leaves_readAll sized _).then ?_
  intro read sizedRead same
  have auto := slots_of_records c.ledger.records (·.autostart) (List.range slotCount)
  have last := slots_of_records c.ledger.records (·.lastUsed) (List.range slotCount)
  have slots := slots_of_all c.ledger.records (List.range slotCount)
  obtain ⟨occupied, flagged⟩ := remember_eq c.ledger
  simp only [Ledger.flagged, Record.flag] at flagged
  dsimp only
  rw [auto, last, slots, occupied, flagged]
  have noted : Leaves (modify fun c' : Catalog σ => { c' with
      occupied := Occupancy.ofPred fun s => (c.ledger.records s).isSome
      autostart := ((List.range slotCount).filter fun s =>
        (c.ledger.records s).any (·.autostart)).getLast?
      lastUsed := ((List.range slotCount).filter fun s =>
        (c.ledger.records s).any (·.lastUsed)).getLast? } : StateM (Catalog σ) Unit)
      read () c.ledger.remember := by
    rw [← same]
    exact ⟨_, rfl, sizedRead, rfl⟩
  refine noted.then ?_
  intro mid sizedMid remembered
  refine Leaves.then (leaves_refreshAll sizedMid _) ?_
  intro settled sizedSettled refreshed
  rw [remembered] at refreshed
  rw [contains_slots _ (by decide)]
  unfold Ledger.scan
  cases manual : (c.ledger.records manualSlot).isSome with
  | true => exact ⟨settled, rfl, sizedSettled, refreshed⟩
  | false =>
      have written := leaves_restoreManual sizedSettled
      rw [refreshed] at written
      exact written

/-- The text of a slot, as its user sees it. -/
theorem leaves_programText (sized : c.Sized) (agrees : c.ledger.Coherent) (slot : Nat) :
    Leaves (programText slot) c (c.ledger.shelf.texts slot) c.ledger := by
  have occupied : c.isOccupied slot = (c.ledger.records slot).isSome := agrees.occupied slot
  unfold programText
  have got : Leaves (get : StateM (Catalog σ) (Catalog σ)) c c c.ledger := ⟨c, rfl, sized, rfl⟩
  refine got.then ?_
  intro start sizedStart same
  rw [occupied]
  cases here : (c.ledger.records slot).isSome with
  | false =>
      have absent : c.ledger.shelf.texts slot = none := by
        simpa [Ledger.shelf] using here
      rw [absent]
      exact ⟨start, rfl, sizedStart, same⟩
  | true =>
      obtain ⟨after, done, sizedAfter, kept⟩ := leaves_readRecord sizedStart slot
      rw [same] at done kept
      refine ⟨after, ?_, sizedAfter, kept⟩
      change ((readRecord slot start).1.map Record.text, (readRecord slot start).2) = _
      rw [done]
      rfl

theorem leaves_program? (sized : c.Sized) (agrees : c.ledger.Coherent) (slot : Nat) :
    Leaves (program? slot) c (c.ledger.shelf.program? slot) c.ledger := by
  unfold program? Shelf.program?
  refine (leaves_programText sized agrees slot).then ?_
  intro after sizedAfter same
  refine ⟨after, ?_, sizedAfter, same⟩
  generalize Option.map Request.ofLine (c.ledger.shelf.texts slot) = answer
  rcases answer with _ | _ | request
  · rfl
  · rfl
  · cases request <;> rfl

end Catalog

end RelayTimer
