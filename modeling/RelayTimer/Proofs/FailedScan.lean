import RelayTimer.Proofs.AlikeStores
import RelayTimer.Proofs.FailedCalls
import RelayTimer.Proofs.MarksFound

set_option autoImplicit false

/-!
What a look through a store leaves of the programs in it, when any of the calls on the store may
fail. A record is written there for two reasons only: a flag of it has lost, or the manual program
has not been found.
-/
namespace RelayTimer

open Fallible (image Reads)

/-- The flags of a record are those it is to have exactly if each of them agrees with its mark. -/
theorem Ledger.reflag_eq_iff (l : Ledger) (slot : Nat) (r : Record) :
    l.reflag slot r = r ↔ ∀ d, r.flag d = (l.designated d == some slot) := by
  constructor
  · intro same d
    rw [← same]
    exact l.flag_reflag slot _ d
  · intro flags
    have auto : r.autostart = (l.autostart == some slot) := flags .autostart
    have last : r.lastUsed = (l.lastUsed == some slot) := flags .lastUsed
    unfold Ledger.reflag
    rw [← auto, ← last]

namespace Catalog

variable {σ : Type} [ByteStore σ] [Fallible σ] {c after : Catalog σ}

theorem mem_flaggedSlots {found : List (Nat × Record)} {s : Nat}
    (member : s ∈ flaggedSlots found) : ∃ r, (s, r) ∈ found := by
  obtain ⟨⟨slot, r⟩, there, rfl⟩ := List.mem_map.mp (List.mem_filter.mp member).1
  exact ⟨r, there⟩

/-- The manual program is written where it has not been found, and no other slot is written to. -/
theorem slot?_restoreManual (c : Catalog σ) {s : Nat} (other : s ≠ manualSlot) :
    Image.slot? (image (restoreManual c).2.store) s = Image.slot? (image c.store) s := by
  unfold restoreManual
  cases done : write manualSlot defaultManualText c with
  | mk answer after =>
    obtain ⟨mid, -, rewritten, -, ⟨⟨error, rfl⟩, rfl⟩ | ⟨rfl, rfl⟩⟩ := write_cases done
    · exact rewritten.slot?_other other
    · exact rewritten.slot?_other other

/-- A flag that is to change, of a record that has been found, has lost against one behind it. -/
theorem lost_of_outdated {found : List (Nat × Record)}
    (below : (found.map (·.1)).Sublist (List.range slotCount))
    (sound : ∀ s r, (s, r) ∈ found → c.readable.records s = some r)
    {read : Catalog σ} {t : Nat} {r : Record} (there : (t, r) ∈ found)
    (outdated : (read.noting found).readable.reflag t r ≠ r) :
    ∃ d u, t < u ∧ Image.Flagged (image c.store) d t ∧ Image.Flagged (image c.store) d u := by
  rw [Ne, Ledger.reflag_eq_iff, Classical.not_forall] at outdated
  obtain ⟨d, apart⟩ := outdated
  let flagged := (found.filter (·.2.flag d)).map (·.1)
  have marked : (read.noting found).readable.designated d = flagged.getLast? := by
    rw [designated_readable, designated_noting]
  have ascending : flagged.Pairwise (· ≤ ·) :=
    List.pairwise_le_range.sublist ((List.filter_sublist.map _).trans below)
  have raised {s : Nat} (member : s ∈ flagged) :
      ∃ own, c.readable.records s = some own ∧ own.flag d = true := by
    obtain ⟨⟨slot, own⟩, one, rfl⟩ := List.mem_map.mp member
    obtain ⟨inside, flag⟩ := List.mem_filter.mp one
    exact ⟨own, sound slot own inside, flag⟩
  have here := sound t r there
  rw [marked] at apart
  cases flag : r.flag d with
  | true =>
      have member : t ∈ flagged := List.mem_map.mpr ⟨(t, r), List.mem_filter.mpr ⟨there, flag⟩, rfl⟩
      cases last : flagged.getLast? with
      | none =>
          rw [List.getLast?_eq_none_iff.mp last] at member
          cases member
      | some u =>
          have other : u ≠ t := by
            rintro rfl
            simp [flag, last] at apart
          have most := le_of_getLast? ascending last member
          exact ⟨d, u, by omega, ⟨r, here, flag⟩, raised (List.mem_of_getLast? last)⟩
  | false =>
      -- A mark is never with a slot whose record has no flag for it.
      have last : flagged.getLast? = some t := by
        simpa [flag] using apart
      obtain ⟨own, same, up⟩ := raised (List.mem_of_getLast? last)
      rw [here] at same
      cases same
      rw [flag] at up
      cases up

section reading

omit [Fallible σ]

/-- A record that can be read is found. -/
theorem found_of_read {slot : Nat} {rest : List Nat} {found : List (Nat × Record)}
    (read : readAll (slot :: rest) c = (found, after)) {r : Record}
    (seen : (readRecord slot c).1 = some r) : (slot, r) ∈ found := by
  rw [readAll_cons, seen] at read
  cases read
  exact List.mem_append_left _ List.mem_cons_self

end reading

/-- A look through the store: once the flags are settled nothing but the manual program is written,
and that only where it has not been found. -/
theorem scan_cases (c : Catalog σ) : ∃ found read answer settled,
    readAll (List.range slotCount) c = (found, read) ∧
    refreshAll (flaggedSlots found) (read.noting found) = (answer, settled) ∧
    ∀ s, (s = manualSlot → ∃ r, (manualSlot, r) ∈ found) →
      Image.slot? (image (scan c).2.store) s = Image.slot? (image settled.store) s := by
  cases read : readAll (List.range slotCount) c with
  | mk found last =>
    refine ⟨found, last, _, _, rfl, rfl, ?_⟩
    intro s there
    rw [scan_apply, read]
    dsimp only
    split
    · rfl
    · rename_i missing
      apply slot?_restoreManual
      intro manual
      obtain ⟨r, member⟩ := there manual
      apply missing
      rw [List.contains_iff_mem]
      exact List.mem_map.mpr ⟨_, member, rfl⟩

/-- Whichever calls on the store fail during a look through it: all programs that were there are
there afterwards with their texts, but for at most one of them, whose flag lost and whose record
could not be written in full, and for the manual program where it could not be read. -/
theorem scan_spares (c : Catalog σ) :
    ∃ lost : Option Nat,
      (∀ t ∈ lost, Image.record? (image (scan c).2.store) t = none ∧
        ∃ d u, t < u ∧ Image.Flagged (image c.store) d t ∧ Image.Flagged (image c.store) d u) ∧
      ∀ s r, Image.record? (image c.store) s = some r → lost ≠ some s →
        (s = manualSlot → (readRecord manualSlot c).1.isSome) →
        (Image.record? (image (scan c).2.store) s).map Record.text = some r.text := by
  obtain ⟨found, read, answer, settled, looked, refreshed, written⟩ := scan_cases c
  obtain ⟨-, kept, below, sound, -⟩ := readAll_found _ looked
  have before (s : Nat) : (read.noting found).readable.shelf.texts s =
      (Image.record? (image c.store) s).map Record.text := by
    rw [← kept]
    rfl
  have after (s : Nat) (manual : s = manualSlot → ∃ r, (manualSlot, r) ∈ found) :
      (Image.record? (image (scan c).2.store) s).map Record.text =
        settled.readable.shelf.texts s :=
    congrArg (Option.map Record.text) (Image.record?_of_slot? (written s manual))
  have spared (s : Nat) (r : Record) (there : Image.record? (image c.store) s = some r)
      (same : settled.readable.shelf.texts s = (read.noting found).readable.shelf.texts s)
      (manual : s = manualSlot → (readRecord manualSlot c).1.isSome) :
      (Image.record? (image (scan c).2.store) s).map Record.text = some r.text := by
    rw [after s, same, before, there, Option.map_some]
    intro this
    obtain ⟨own, seen⟩ := Option.isSome_iff_exists.mp (manual this)
    exact ⟨own, found_of_read looked seen⟩
  rcases texts_refreshAll refreshed with same | ⟨t, member, gone, others⟩
  · exact ⟨none, by simp, fun s r there _ => spared s r there (same s)⟩
  · obtain ⟨r, there⟩ := mem_flaggedSlots member
    have manual : t = manualSlot → ∃ r, (manualSlot, r) ∈ found := by
      rintro rfl
      exact ⟨r, there⟩
    refine ⟨some t, ?_, fun s r there apart =>
      spared s r there (others s fun same => apart (congrArg some same.symm))⟩
    rintro _ ⟨⟩
    refine ⟨Option.map_eq_none_iff.mp ((after t manual).trans gone), ?_⟩
    -- Had its flags been up to date, the record would not have been written.
    apply lost_of_outdated below sound there
    intro upToDate
    have unwritten := Image.record?_of_slot? (slot?_refreshAll refreshed fun _ own here => by
      have seen : (read.noting found).readable.records t = c.readable.records t :=
        congrArg (Image.record? · t) kept
      rw [seen, sound t r there] at here
      cases here
      exact upToDate)
    have still : settled.readable.shelf.texts t = (read.noting found).readable.shelf.texts t :=
      congrArg (Option.map Record.text) unwritten
    have was : Image.record? (image c.store) t = some r := sound t r there
    rw [gone, before, was] at still
    cases still

section unread

variable {τ : Type}

omit [ByteStore σ] [Fallible σ] in
theorem Like.noting {R : σ → τ → Prop} {k : Catalog τ} (like : Like R c k)
    (found : List (Nat × Record)) : Like R (c.noting found) (k.noting found) := by
  obtain ⟨store, related, rfl⟩ := like.cases
  exact .of_store related

variable [ByteStore τ] [Faultless τ]

/-- The manual program cannot be read for once: a look through the store takes it for missing and
writes the one over it that is there as long as nobody has set it. -/
theorem scan_unread {c : Catalog τ} (sized : c.Sized) :
    ∃ last : Catalog τ, (scan (c.behind [⟨.read, 0, 1⟩])).2.store.store = last.store ∧
      (last.ledger.records manualSlot).map Record.text = some defaultManualText := by
  let others := [1, 2, 3, 4, 5, 6, 7, 8, 9]
  have slots : List.range slotCount = manualSlot :: others := by decide
  have free (kind : CallKind) : Fault.consult kind [⟨.read, 0, 0⟩] = (false, [⟨.read, 0, 0⟩]) := by
    cases kind <;> rfl
  have alike := FaultyStore.alike (σ := τ) free
  have unread : readRecord manualSlot (c.behind [⟨.read, 0, 1⟩]) =
      (none, c.behind [⟨.read, 0, 0⟩]) := rfl
  -- All calls but the first one pass, so the rest goes as it would without the device.
  obtain ⟨found, behind, read, looked, direct, like⟩ :=
    (tracks_readAll alike.toReadsAlike others).apply
      (Like.of_store (c := c.behind [⟨.read, 0, 0⟩]) rfl)
  obtain ⟨seen, readDirect, sizedRead, -⟩ := leaves_readAll sized others
  obtain rfl : read = seen := congrArg Prod.snd (direct.symm.trans readDirect)
  have all : readAll (List.range slotCount) (c.behind [⟨.read, 0, 1⟩]) = (found, behind) := by
    rw [slots, readAll_cons, unread, looked]
    rfl
  have missing : ¬ (found.map (·.1)).contains manualSlot = true := by
    have records := congrArg (fun answered => answered.1.map (·.1)) (direct.symm.trans readDirect)
    simp only [slots_of_all] at records
    rw [records, List.contains_iff_mem]
    intro member
    have inside := (List.mem_filter.mp member).1
    revert inside
    decide
  have applied : scan (c.behind [⟨.read, 0, 1⟩]) =
      restoreManual (refreshAll (flaggedSlots found) (behind.noting found)).2 := by
    rw [scan_apply, all]
    exact if_neg missing
  have settled := (tracks_refreshAll alike (flaggedSlots found) _ _ (like.noting found)).2
  obtain ⟨related, -⟩ := (tracks_restoreManual alike _ _ settled).2
  obtain ⟨mid, refreshed, sizedMid, -⟩ :=
    leaves_refreshAll (c := read.noting found) sizedRead (flaggedSlots found)
  obtain ⟨last, restored, -, ledger⟩ := leaves_restoreManual sizedMid
  refine ⟨last, ?_, ?_⟩
  · rw [applied, related, refreshed, restored]
  · rw [ledger]
    simp [Ledger.write, Ledger.put, Ledger.storedText_default]

end unread

/-- The manual program has been set, and cannot be read for once. After a look through the store it
is the one that is there as long as nobody has set it. -/
theorem scan_overwrites_unread :
    let start : Catalog RamStore := ofStore { image := Image.erased imageSize }
    ∃ c, write manualSlot "o 1s" start = (.ok (), c) ∧
      (Image.record? c.store.image manualSlot).map Record.text = some "o 1s" ∧
      (Image.record? (scan (c.behind [⟨.read, 0, 1⟩])).2.store.store.image manualSlot).map
        Record.text = some defaultManualText := by
  intro start
  have isSlot : manualSlot < slotCount := by decide
  obtain ⟨c, done, sized, ledger⟩ := leaves_write Holds.blank.sized isSlot "o 1s"
  have records : Image.record? c.store.image manualSlot = c.ledger.records manualSlot := rfl
  have stored : storedText "o 1s" = "o 1s" := by decide
  obtain ⟨last, same, overwritten⟩ := scan_unread sized
  refine ⟨c, done, ?_, ?_⟩
  · rw [records, ledger]
    simp [Ledger.write, Ledger.put, stored]
  · rw [same]
    exact overwritten

end Catalog

end RelayTimer
