import RelayTimer.Proofs.EngineShelf
import RelayTimer.Proofs.FallibleStore
import RelayTimer.Proofs.SlotPages

set_option autoImplicit false

/-!
What the calls of a catalog do to its store when any of the calls on the store may fail.
-/
namespace RelayTimer

open Fallible (image Reads)

namespace Catalog

variable {σ α : Type}

theorem onStore_cases {call : StoreCall σ α} {c after : Catalog σ} {answer : Except StoreError α}
    (done : onStore call c = (answer, after)) :
    call c.store = (answer, after.store) ∧ after = { c with store := after.store } := by
  cases done
  exact ⟨rfl, rfl⟩

/-- The catalog when a device that fails comes in front of its store. -/
def behind (c : Catalog σ) (faults : List Fault) : Catalog (FaultyStore σ) :=
  { store := { store := c.store, faults }
    occupied := c.occupied
    autostart := c.autostart
    lastUsed := c.lastUsed
    selected := c.selected }

variable [ByteStore σ]

/-- A mark that goes to another slot: the flags of the slot that had it come first. -/
theorem reassign_cases {c after : Catalog σ} {d : Designation} {slot : Option Nat}
    {answer : Except StoreError Unit} (done : reassign d slot c = (answer, after)) :
    ((∃ s ∈ slot, slotCount ≤ s) ∧ answer = .error .outOfRange ∧ after = c) ∨
    (answer = .ok () ∧ c.designated d = slot ∧ after = c) ∨
    (c.designated d ≠ slot ∧
      refreshAll ((c.designated d).toList ++ slot.toList) (c.designate d slot) =
        (answer, after)) := by
  unfold reassign at done
  split at done
  · rename_i beyond
    cases done
    exact .inl ⟨by simpa [Option.any_eq_true] using beyond, rfl, rfl⟩
  · rcases StoreCall.bind_cases done with ⟨error, failed, -⟩ | ⟨start, _, got, rest⟩
    · cases failed
    · cases got
      rcases StoreCall.bind_cases rest with ⟨error, failed, -⟩ | ⟨_, marked, designated, rest⟩
      · cases failed
      · cases designated
        split at rest
        · rename_i unchanged
          cases rest
          refine .inr (.inl ⟨rfl, unchanged, ?_⟩)
          rw [← unchanged]
          exact designate_designated c d
        · rename_i changed
          refine .inr (.inr ⟨changed, ?_⟩)
          cases previous : c.designated d with
          | none =>
              rw [previous] at rest
              cases slot with
              | none => exact rest
              | some new => exact rest
          | some old =>
              rw [previous] at rest
              cases slot with
              | none => exact rest
              | some new => exact rest

/-- A store that has just been erased has nothing but the manual program. -/
theorem Holds.blank : (Catalog.ofStore ({ image := Image.erased imageSize } : RamStore)).Holds
    (Shelf.ofRecords fun _ => none) := by
  have sized : (Image.erased imageSize).length = imageSize := List.length_replicate
  have records : Image.record? (Image.erased imageSize) = fun _ => none :=
    funext (Image.record?_erased imageSize)
  rw [← records]
  exact Holds.ofStore _ sized

variable [Fallible σ] {c mid after : Catalog σ} {slot : Nat}
  {answer : Except StoreError Unit}

/-- The records that are there for whoever can read, next to what the catalog remembers. -/
def readable (c : Catalog σ) : Ledger :=
  { records := Image.record? (image c.store)
    occupied := c.occupied
    autostart := c.autostart
    lastUsed := c.lastUsed
    selected := c.selected }

/-- A step that leaves what is remembered, and does not make reads fail. -/
structure Quiet (c after : Catalog σ) : Prop where
  same : after = { c with store := after.store }
  reads : Reads c.store → Reads after.store

theorem Quiet.refl (c : Catalog σ) : Quiet c c := ⟨rfl, id⟩

theorem Quiet.trans (first : Quiet c mid) (second : Quiet mid after) : Quiet c after := by
  refine ⟨?_, fun reads => second.reads (first.reads reads)⟩
  rw [second.same, first.same]

theorem Quiet.designated (quiet : Quiet c after) (d : Designation) :
    after.designated d = c.designated d := by
  rw [quiet.same]
  cases d <;> rfl

theorem designated_readable (c : Catalog σ) (d : Designation) :
    c.readable.designated d = c.designated d := by
  cases d <;> rfl

theorem Quiet.readable (quiet : Quiet c after) :
    after.readable = { c.readable with records := Image.record? (image after.store) } := by
  rw [quiet.same]
  rfl

theorem readRecord_cases {found : Option Record} (done : readRecord slot c = (found, after)) :
    Quiet c after ∧ image after.store = image c.store ∧
      (∀ r, found = some r → c.readable.records slot = some r) ∧
      (Reads c.store → found = c.readable.records slot) := by
  unfold readRecord at done
  split at done
  · rename_i beyond
    cases done
    have absent : c.readable.records slot = none := if_neg (by omega)
    exact ⟨.refl c, rfl, fun _ there => (nomatch there), fun _ => absent.symm⟩
  · rename_i isSlot
    have record : c.readable.records slot =
        (Image.read? (image c.store) (slotOffset slot) recordSize).bind Record.decode? :=
      Image.record?_of_slot (by omega)
    cases call : onStore (ByteStore.readAt (slotOffset slot) recordSize) c with
    | mk bytes read =>
      obtain ⟨made, same⟩ := onStore_cases call
      obtain ⟨kept, sound, reads⟩ := Fallible.readAt made
      have quiet : Quiet c read := ⟨same, fun working => (reads working).1⟩
      rw [call] at done
      cases bytes with
      | error error =>
          cases done
          refine ⟨quiet, kept, fun _ there => (nomatch there), ?_⟩
          intro working
          rw [record]
          cases there : Image.read? (image c.store) (slotOffset slot) recordSize with
          | none => rfl
          | some bytes => cases (reads working).2 bytes there
      | ok bytes =>
          cases done
          have there := sound bytes rfl
          rw [there, Option.bind_some] at record
          exact ⟨quiet, kept, fun r found => record.trans found, fun _ => record.symm⟩

/-- A call that writes a page, if it does not fail. -/
def Writes (call : StoreCall σ Unit) (page : Nat) (data : List UInt8) : Prop :=
  ∀ s answer after, call s = (answer, after) → Attempt image Reads s answer after
    (Image.writePage? (image s) page data = some (image after))
    (Image.writePage? (image s) page data).isSome

theorem Writes.page (page : Nat) (data : List UInt8) :
    Writes (ByteStore.writePage page data : StoreCall σ Unit) page data :=
  fun _ _ _ => Fallible.writePage

theorem Writes.erased (page : Nat) : Writes (ByteStore.erasePage page : StoreCall σ Unit) page
    (List.replicate pageSize erasedByte) :=
  fun _ _ _ => Fallible.erasePage

section pages

variable {first second : StoreCall σ Unit} {bytes : List UInt8} {s left : σ}
  (one : Writes first (slotPage slot) (bytes.take pageSize))
  (two : Writes second (slotPage slot + 1) (bytes.drop pageSize))

include one two

/-- Two pages of a slot are written by two calls, or as far as the calls succeed. -/
theorem pages_cases (whole : bytes.length = recordSize)
    (done : (first >>= fun _ => second) s = (answer, left)) :
    Image.Rewritten slot bytes (image s) (image left) answer ∧ (Reads s → Reads left) := by
  rcases StoreCall.bind_cases done with ⟨error, failed, rfl⟩ | ⟨_, half, written, rest⟩
  · have attempt := one _ _ _ failed
    exact ⟨.untouched error (attempt.fails error rfl), attempt.reads⟩
  · have begun := one _ _ _ written
    have ended := two _ _ _ rest
    have page := Image.Renewed.first (begun.does rfl)
    refine ⟨?_, fun reads => ended.reads (begun.reads reads)⟩
    cases answer with
    | error error =>
        rw [ended.fails error rfl]
        exact .half error page
    | ok => exact .whole _ (page.second whole (ended.does rfl))

/-- Where the slot is in the store, no page of it is out of range. -/
theorem pages_in_range (whole : bytes.length = recordSize)
    (inside : slotOffset slot + recordSize ≤ (image s).length)
    (done : (first >>= fun _ => second) s = (answer, left)) : answer ≠ .error .outOfRange := by
  have room : slotPage slot * pageSize + pageSize + pageSize ≤ (image s).length := by
    simp only [slotOffset, slotPage, recordSize, pageSize, pagesPerRecord] at inside ⊢
    omega
  have front : (bytes.take pageSize).length = pageSize := by
    rw [List.length_take, whole]
    rfl
  have back : (bytes.drop pageSize).length = pageSize := by
    rw [List.length_drop, whole]
    rfl
  have writable {image data : List UInt8} {page : Nat} (size : data.length = pageSize)
      (fits : page * pageSize + pageSize ≤ image.length) :
      (Image.writePage? image page data).isSome := by
    rw [Image.writePage?, if_pos ⟨size, fits⟩]
    rfl
  rcases StoreCall.bind_cases done with ⟨error, failed, rfl⟩ | ⟨_, half, written, rest⟩
  · intro refused
    cases refused
    exact (one _ _ _ failed).inRange (writable front (by omega)) rfl
  · have same := Image.length_of_writePage? ((one _ _ _ written).does rfl)
    refine (two _ _ _ rest).inRange (writable back ?_)
    rw [same, Nat.add_mul, Nat.one_mul]
    exact room

end pages

theorem writeRecord_cases {r : Record} (done : writeRecord slot r c = (answer, after)) :
    Quiet c after ∧ Image.Rewritten slot r.encode (image c.store) (image after.store) answer := by
  obtain ⟨made, same⟩ := onStore_cases done
  obtain ⟨rewritten, reads⟩ := pages_cases (.page _ _) (.page _ _) r.length_encode made
  exact ⟨⟨same, reads⟩, rewritten⟩

theorem writeRecord_in_range {r : Record}
    (inside : slotOffset slot + recordSize ≤ (image c.store).length)
    (done : writeRecord slot r c = (answer, after)) : answer ≠ .error .outOfRange :=
  pages_in_range (.page _ _) (.page _ _) r.length_encode inside (onStore_cases done).1

/-- A flush changes nothing that is read. -/
theorem image_flush {s left : σ} (done : ByteStore.flush s = (answer, left)) :
    image left = image s := by
  have attempt := Fallible.flush done
  cases answer with
  | error error => exact attempt.fails error rfl
  | ok => exact (attempt.does rfl).1

theorem flush_cases (done : flush c = (answer, after)) :
    Quiet c after ∧ image after.store = image c.store ∧
      (answer = .ok () → Fallible.durable after.store = image after.store) := by
  obtain ⟨made, same⟩ := onStore_cases done
  have attempt := Fallible.flush made
  refine ⟨⟨same, attempt.reads⟩, image_flush made, ?_⟩
  intro ok
  exact (attempt.does ok).2.trans (attempt.does ok).1.symm

theorem flush_in_range (done : flush c = (answer, after)) : answer ≠ .error .outOfRange :=
  (Fallible.flush (onStore_cases done).1).inRange trivial

omit [Fallible σ] in
/-- The record of a slot is read, and written with the flags it is to have where it has others. -/
theorem refreshFlags_steps (done : refreshFlags slot c = (answer, after)) :
    ∃ found read, readRecord slot c = (found, read) ∧
      ((answer = .ok () ∧ after = read ∧
          ∀ r, found = some r → (r.autostart, r.lastUsed) = read.flagsOf slot) ∨
        ∃ r, found = some r ∧ (r.autostart, r.lastUsed) ≠ read.flagsOf slot ∧
          writeRecord slot { r with
            autostart := (read.flagsOf slot).1, lastUsed := (read.flagsOf slot).2 } read =
            (answer, after)) := by
  unfold refreshFlags at done
  rcases StoreCall.bind_cases done with ⟨error, failed, -⟩ | ⟨found, read, answered, rest⟩
  · obtain ⟨_, impossible, -⟩ := StoreCall.always_cases failed
    cases impossible
  · obtain ⟨_, same, step⟩ := StoreCall.always_cases answered
    cases same
    refine ⟨found, read, step, ?_⟩
    cases found with
    | none =>
        cases rest
        exact .inl ⟨rfl, rfl, fun _ there => (nomatch there)⟩
    | some r =>
        rcases StoreCall.bind_cases rest with ⟨error, failed, -⟩ | ⟨start, now, got, rest⟩
        · cases failed
        · cases got
          dsimp only [flagsOf] at rest
          split at rest
          · rename_i upToDate
            cases rest
            refine .inl ⟨rfl, rfl, ?_⟩
            intro other same
            cases same
            exact Prod.ext upToDate.1 upToDate.2
          · rename_i outdated
            refine .inr ⟨r, rfl, ?_, rest⟩
            intro same
            exact outdated (Prod.ext_iff.mp same)

/-- The flags of a record are up to date, or the record is written with those it is to have. A
record that cannot be read counts as up to date. -/
theorem refreshFlags_cases (done : refreshFlags slot c = (answer, after)) :
    Quiet c after ∧
      ((answer = .ok () ∧ image after.store = image c.store ∧
          (Reads c.store → ∀ r, c.readable.records slot = some r → c.readable.reflag slot r = r)) ∨
        ∃ r, c.readable.records slot = some r ∧ c.readable.reflag slot r ≠ r ∧
          Image.Rewritten slot (c.readable.reflag slot r).encode (image c.store)
            (image after.store) answer) := by
  obtain ⟨found, read, step, outcome⟩ := refreshFlags_steps done
  obtain ⟨quiet, kept, sound, reads⟩ := readRecord_cases step
  have flags : read.flagsOf slot =
      (c.readable.autostart == some slot, c.readable.lastUsed == some slot) := by
    rw [quiet.same]
    rfl
  rw [flags] at outcome
  rcases outcome with ⟨rfl, rfl, upToDate⟩ | ⟨r, rfl, outdated, written⟩
  · refine ⟨quiet, .inl ⟨rfl, kept, ?_⟩⟩
    intro working r there
    obtain ⟨auto, last⟩ := Prod.ext_iff.mp (upToDate r ((reads working).trans there))
    dsimp only at auto last
    rw [Ledger.reflag, ← auto, ← last]
  · obtain ⟨later, rewritten⟩ := writeRecord_cases written
    rw [kept] at rewritten
    refine ⟨quiet.trans later, .inr ⟨r, sound r rfl, ?_, rewritten⟩⟩
    intro same
    exact outdated (Prod.ext (congrArg Record.autostart same.symm)
      (congrArg Record.lastUsed same.symm))

/-- Where reads work and nothing fails, the flags are up to date afterwards. -/
theorem readable_refreshFlags (reads : Reads c.store)
    (done : refreshFlags slot c = (.ok (), after)) :
    after.readable = c.readable.refresh slot := by
  obtain ⟨quiet, ⟨-, kept, upToDate⟩ | ⟨r, there, -, rewritten⟩⟩ := refreshFlags_cases done
  · rw [quiet.readable, kept]
    exact (refresh_same _ _ (upToDate reads)).symm
  · obtain ⟨isSlot, old, read, -⟩ := Image.of_record? there
    rw [quiet.readable]
    simp only [Ledger.refresh, Ledger.put, there, Option.map_some, Ledger.mk.injEq, and_true]
    funext s
    split
    · rename_i here
      rw [here, rewritten.renewed.record?_all (Record.length_encode _) isSlot, read,
        Record.decode?_encode]
      rfl
    · rename_i apart
      exact rewritten.record?_other apart

/-- The bytes of other slots stay, and those of the slot itself where its flags are up to date. -/
theorem slot?_refreshFlags (done : refreshFlags slot c = (answer, after)) {s : Nat}
    (upToDate : s = slot → ∀ r, c.readable.records s = some r → c.readable.reflag s r = r) :
    Image.slot? (image after.store) s = Image.slot? (image c.store) s := by
  obtain ⟨-, ⟨-, kept, -⟩ | ⟨r, there, outdated, rewritten⟩⟩ := refreshFlags_cases done
  · rw [kept]
  · apply rewritten.slot?_other
    rintro rfl
    exact outdated (upToDate rfl r there)

/-- A text is written, and the slot is remembered as occupied where nothing failed. It is out of
range only if the slot does not exist or is not in the store. -/
theorem write_cases {text : String} (done : write slot text c = (answer, after)) :
    ∃ mid, Quiet c mid ∧
      Image.Rewritten slot (Record.ofText text (c.flagsOf slot).1 (c.flagsOf slot).2).encode
        (image c.store) (image mid.store) answer ∧
      (slot < slotCount → slotOffset slot + recordSize ≤ (image c.store).length →
        answer ≠ .error .outOfRange) ∧
      ((∃ error, answer = .error error) ∧ after = mid ∨
        answer = .ok () ∧ after = { mid with occupied := mid.occupied.insert slot }) := by
  unfold write at done
  split at done
  · rename_i beyond
    cases done
    exact ⟨c, .refl c, .untouched _ rfl, fun isSlot => absurd beyond (Nat.not_le.mpr isSlot),
      .inl ⟨⟨_, rfl⟩, rfl⟩⟩
  · rcases StoreCall.bind_cases done with ⟨_, failed, -⟩ | ⟨start, _, got, rest⟩
    · cases failed
    · cases got
      rcases StoreCall.bind_cases rest with ⟨error, failed, same⟩ | ⟨_, written, recorded, rest⟩
      · cases same
        obtain ⟨quiet, rewritten⟩ := writeRecord_cases failed
        exact ⟨after, quiet, rewritten, fun _ inside => writeRecord_in_range inside failed,
          .inl ⟨⟨error, rfl⟩, rfl⟩⟩
      · obtain ⟨quiet, rewritten⟩ := writeRecord_cases recorded
        rcases StoreCall.bind_cases rest with ⟨error, failed, same⟩ | ⟨_, flushed, durable, rest⟩
        · cases same
          obtain ⟨quietLater, kept, -⟩ := flush_cases failed
          refine ⟨after, quiet.trans quietLater, ?_, fun _ _ => flush_in_range failed,
            .inl ⟨⟨error, rfl⟩, rfl⟩⟩
          rw [kept]
          exact .whole _ rewritten.renewed
        · cases rest
          obtain ⟨quietLater, kept, -⟩ := flush_cases durable
          refine ⟨flushed, quiet.trans quietLater, ?_, fun _ _ refused => (nomatch refused),
            .inr ⟨rfl, rfl⟩⟩
          rw [kept]
          exact rewritten

/-- Flags are brought up to date one after another, and all of it is durable at the end. -/
theorem refreshAll_cases {slots : List Nat} (done : refreshAll slots c = (answer, after)) :
    Quiet c after ∧ (answer = .ok () → Fallible.durable after.store = image after.store ∧
      (Reads c.store → after.readable = c.readable.refreshAll slots)) := by
  induction slots generalizing c with
  | nil =>
      obtain ⟨quiet, kept, durable⟩ := flush_cases done
      refine ⟨quiet, fun ok => ⟨durable ok, fun _ => ?_⟩⟩
      rw [quiet.readable, kept]
      rfl
  | cons slot rest ih =>
      rcases StoreCall.bind_cases done with ⟨error, failed, rfl⟩ | ⟨_, mid, refreshed, later⟩
      · exact ⟨(refreshFlags_cases failed).1, fun ok => (nomatch ok)⟩
      · have quiet := (refreshFlags_cases refreshed).1
        obtain ⟨quietLater, settled⟩ := ih later
        refine ⟨quiet.trans quietLater, fun ok => ⟨(settled ok).1, fun reads => ?_⟩⟩
        rw [(settled ok).2 (quiet.reads reads), readable_refreshFlags reads refreshed]
        rfl

/-- The bytes of a slot stay unless its flags are to change. -/
theorem slot?_refreshAll {slots : List Nat} (done : refreshAll slots c = (answer, after)) {s : Nat}
    (upToDate : s ∈ slots → ∀ r, c.readable.records s = some r → c.readable.reflag s r = r) :
    Image.slot? (image after.store) s = Image.slot? (image c.store) s := by
  induction slots generalizing c with
  | nil =>
      obtain ⟨-, kept, -⟩ := flush_cases done
      rw [kept]
  | cons slot rest ih =>
      have here : s = slot → ∀ r, c.readable.records s = some r → c.readable.reflag s r = r :=
        fun same => upToDate (by simp [same])
      rcases StoreCall.bind_cases done with ⟨_, failed, -⟩ | ⟨_, mid, refreshed, later⟩
      · exact slot?_refreshFlags failed here
      · have kept := slot?_refreshFlags refreshed here
        have quiet := (refreshFlags_cases refreshed).1
        refine (ih later ?_).trans kept
        intro member r there
        rw [quiet.readable] at there ⊢
        exact upToDate (List.mem_cons_of_mem _ member) r
          ((Image.record?_of_slot? kept).symm.trans there)

end Catalog

end RelayTimer
