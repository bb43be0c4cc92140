import RelayTimer.Proofs.AlikeStores

set_option autoImplicit false

/-!
Which mark a catalog finds that is set up anew, after a mark has been given on a store that may
fail. What is remembered of a mark changes before its records do, and is not taken back where they
cannot be written: a call that finds its mark remembered already succeeds and writes nothing.
-/
namespace RelayTimer

open Fallible (image durable Reads)

/-- The record of a slot has the flag for a mark. -/
def Image.Flagged (bytes : List UInt8) (d : Designation) (slot : Nat) : Prop :=
  ∃ r, Image.record? bytes slot = some r ∧ r.flag d = true

/-- The last of some slots in ascending order is the highest one. -/
theorem le_of_getLast? {slots : List Nat} (ascending : slots.Pairwise (· ≤ ·)) {s t : Nat}
    (last : slots.getLast? = some s) (member : t ∈ slots) : t ≤ s := by
  obtain ⟨front, split⟩ := List.getLast?_eq_some_iff.mp last
  rw [split] at ascending member
  rcases List.mem_append.mp member with before | same
  · exact (List.pairwise_append.mp ascending).2.2 t before s (by simp)
  · exact Nat.le_of_eq (List.mem_singleton.mp same)

namespace Ledger

/-- The mark that counts is that of the last record which has its flag. -/
theorem getLast?_flagged_eq_iff (l : Ledger) (d : Designation) (slot : Option Nat) :
    (l.flagged d).getLast? = slot ↔
      (∀ s ∈ slot, s ∈ l.flagged d) ∧ ∀ t ∈ l.flagged d, ∃ s ∈ slot, t ≤ s := by
  have ascending : (l.flagged d).Pairwise (· ≤ ·) :=
    List.pairwise_le_range.filter _
  constructor
  · rintro rfl
    refine ⟨fun s last => List.mem_of_getLast? last, ?_⟩
    intro t member
    cases last : (l.flagged d).getLast? with
    | none =>
        rw [List.getLast?_eq_none_iff.mp last] at member
        cases member
    | some s => exact ⟨s, rfl, le_of_getLast? ascending last member⟩
  · rintro ⟨there, below⟩
    cases last : (l.flagged d).getLast? with
    | none =>
        cases slot with
        | none => rfl
        | some s =>
            have member := there s rfl
            rw [List.getLast?_eq_none_iff.mp last] at member
            cases member
    | some t =>
        obtain ⟨s, rfl, most⟩ := below t (List.mem_of_getLast? last)
        have least := le_of_getLast? ascending last (there s rfl)
        rw [Nat.le_antisymm most least]

/-- After a mark went to another slot, its flag is on the record there, and on all that had it but
the one that the mark was taken from. -/
theorem mem_flagged_reassign {l : Ledger} {d : Designation} {slot : Option Nat}
    (moves : l.designated d ≠ slot) (there : ∀ s ∈ slot, s < slotCount ∧ (l.records s).isSome)
    (t : Nat) : t ∈ (l.reassign d slot).flagged d ↔
      slot = some t ∨ t ∈ l.flagged d ∧ l.designated d ≠ some t := by
  have records : (l.reassign d slot).records t =
      if t ∈ (l.designated d).toList ++ slot.toList then
        (l.records t).map ((l.designate d slot).reflag t)
      else l.records t := by
    unfold Ledger.reassign
    rw [if_neg moves, refreshAll_eq, records_designate]
  have flag (r : Record) : ((l.designate d slot).reflag t r).flag d = (slot == some t) := by
    rw [flag_reflag, designated_designate, if_pos rfl]
  simp only [mem_flagged, records, List.mem_append, Option.mem_toList]
  by_cases gets : slot = some t
  · obtain ⟨isSlot, present⟩ := there t gets
    obtain ⟨r, here⟩ := Option.isSome_iff_exists.mp present
    refine iff_of_true ⟨isSlot, (l.designate d slot).reflag t r, ?_, ?_⟩ (.inl gets)
    · rw [if_pos (.inr gets), here]
      rfl
    · rw [flag, gets]
      simp
  · by_cases had : l.designated d = some t
    · refine iff_of_false ?_ (by simp [gets, had])
      rintro ⟨-, r, here, raised⟩
      rw [if_pos (.inl had)] at here
      obtain ⟨old, -, rfl⟩ := Option.map_eq_some_iff.mp here
      rw [flag] at raised
      exact gets (eq_of_beq raised)
    · simp [gets, had]

end Ledger

namespace Catalog

variable {σ : Type} {c after : Catalog σ} {d : Designation} {slot : Option Nat}

section scan

/-- What is remembered of a store in which some records have been found: a mark is with the last one
that has its flag. -/
def noting (c : Catalog σ) (found : List (Nat × Record)) : Catalog σ :=
  { c with
    occupied := Occupancy.ofPred (found.map (·.1)).contains
    autostart := ((found.filter (·.2.autostart)).map (·.1)).getLast?
    lastUsed := ((found.filter (·.2.lastUsed)).map (·.1)).getLast? }

theorem designated_noting (c : Catalog σ) (found : List (Nat × Record)) (d : Designation) :
    (c.noting found).designated d = ((found.filter (·.2.flag d)).map (·.1)).getLast? := by
  cases d <;> rfl

/-- The slots whose record has a flag. -/
def flaggedSlots (found : List (Nat × Record)) : List Nat :=
  (found.map (·.1)).filter fun s =>
    ((found.filter (·.2.autostart)).map (·.1)).contains s ||
      ((found.filter (·.2.lastUsed)).map (·.1)).contains s

variable [ByteStore σ]

/-- A look through the store: what is found is noted, then the flags are settled, and then the
manual program is written where it was not found. -/
theorem scan_apply (c : Catalog σ) : scan c =
    let (found, read) := readAll (List.range slotCount) c
    let settled := (refreshAll (flaggedSlots found) (read.noting found)).2
    if (found.map (·.1)).contains manualSlot then ((), settled) else restoreManual settled := by
  have then_apply {α β : Type} (step : StateM (Catalog σ) α) (next : α → StateM (Catalog σ) β)
      (c : Catalog σ) : (step >>= next) c = next (step c).1 (step c).2 := rfl
  unfold scan
  rw [then_apply]
  cases readAll (List.range slotCount) c with
  | mk found read =>
    dsimp only
    rw [then_apply, then_apply]
    cases here : (found.map (·.1)).contains manualSlot <;> rfl

theorem readAll_cons (c : Catalog σ) (slot : Nat) (rest : List Nat) : readAll (slot :: rest) c =
    (((readRecord slot c).1.map fun r => (slot, r)).toList ++
      (readAll rest (readRecord slot c).2).1, (readAll rest (readRecord slot c).2).2) := rfl

variable [Fallible σ]

/-- All records that there are are found where reads work, and none that there is not in any
case. -/
theorem readAll_found (slots : List Nat) {found : List (Nat × Record)}
    (done : readAll slots c = (found, after)) :
    Quiet c after ∧ image after.store = image c.store ∧ (found.map (·.1)).Sublist slots ∧
      (∀ s r, (s, r) ∈ found → c.readable.records s = some r) ∧
      (Reads c.store →
        found = slots.filterMap fun s => (c.readable.records s).map fun r => (s, r)) := by
  induction slots generalizing c found after with
  | nil =>
      cases done
      exact ⟨.refl _, rfl, .slnil, fun _ _ member => (nomatch member), fun _ => rfl⟩
  | cons slot rest ih =>
      cases step : readRecord slot c with
      | mk record read =>
        cases others : readAll rest read with
        | mk records last =>
          obtain ⟨quiet, kept, sound, reads⟩ := readRecord_cases step
          have same : read.readable.records = c.readable.records := by
            rw [quiet.readable, kept]
            rfl
          obtain ⟨quietLater, keptLater, below, soundLater, readsLater⟩ := ih others
          rw [same] at soundLater readsLater
          rw [readAll_cons, step, others] at done
          cases done
          refine ⟨quiet.trans quietLater, keptLater.trans kept, ?_, ?_, ?_⟩
          · cases record with
            | none => exact below.cons slot
            | some r => exact below.cons_cons slot
          · intro s r member
            rcases List.mem_append.mp member with first | later
            · obtain ⟨own, there, pair⟩ := Option.map_eq_some_iff.mp (Option.mem_toList.mp first)
              cases pair
              exact sound r there
            · exact soundLater s r later
          · intro working
            rw [reads working, readsLater (quiet.reads working)]
            cases here : c.readable.records slot <;> simp [here]

theorem designated_restoreManual (c : Catalog σ) (d : Designation) :
    (restoreManual c).2.designated d = c.designated d := by
  have kept (mid : Catalog σ) (quiet : Quiet c mid) (occupied : Occupancy) :
      ({ mid with occupied } : Catalog σ).designated d = c.designated d := by
    rw [quiet.same]
    cases d <;> rfl
  unfold restoreManual
  cases done : write manualSlot defaultManualText c with
  | mk answer after =>
    obtain ⟨mid, quiet, -, -, ⟨⟨error, rfl⟩, rfl⟩ | ⟨rfl, rfl⟩⟩ := write_cases done
    · exact kept _ quiet _
    · exact kept mid quiet _

/-- A look through a store finds the marks that the records have, even if it cannot write. -/
theorem designated_scan (reads : Reads c.store) (d : Designation) :
    (scan c).2.designated d = (c.readable.flagged d).getLast? := by
  rw [scan_apply]
  cases read : readAll (List.range slotCount) c with
  | mk found last =>
    obtain ⟨-, -, -, -, all⟩ := readAll_found _ read
    have marked : (last.noting found).designated d = (c.readable.flagged d).getLast? := by
      rw [designated_noting, all reads, slots_of_records _ (·.flag d)]
      rfl
    have settled :
        (refreshAll (flaggedSlots found) (last.noting found)).2.designated d =
          (last.noting found).designated d := by
      rw [(refreshAll_cases rfl).1.same]
      cases d <;> rfl
    dsimp only
    split
    · exact settled.trans marked
    · rw [designated_restoreManual]
      exact settled.trans marked

theorem designated_ofStore {store : σ} (reads : Reads store) (d : Designation) :
    (ofStore store).designated d = (({ store } : Catalog σ).readable.flagged d).getLast? :=
  designated_scan reads d

theorem mem_flagged_readable (c : Catalog σ) (d : Designation) (t : Nat) :
    t ∈ c.readable.flagged d ↔ Image.Flagged (image c.store) d t := by
  rw [Ledger.mem_flagged]
  refine ⟨And.right, fun flagged => ⟨?_, flagged⟩⟩
  obtain ⟨r, here, -⟩ := flagged
  exact (Image.of_record? here).1

/-- A catalog that is set up anew on a store which holds these bytes. -/
theorem designated_ofStore_eq_iff (bytes : List UInt8) (d : Designation) (slot : Option Nat) :
    (ofStore ({ image := bytes } : RamStore)).designated d = slot ↔
      (∀ s ∈ slot, Image.Flagged bytes d s) ∧
        ∀ t, Image.Flagged bytes d t → ∃ s ∈ slot, t ≤ s := by
  rw [designated_ofStore trivial, Ledger.getLast?_flagged_eq_iff]
  simp only [mem_flagged_readable]
  rfl

end scan

/-- What it takes for a mark that is given to a slot to be found there, where `before` is what the
store holds beforehand. A mark that is remembered for the slot already must be on its record; and no
record may have its flag behind the slot, but for the one that the mark is taken from. -/
def Settles (c : Catalog σ) (d : Designation) (slot : Option Nat) (before : List UInt8) : Prop :=
  (c.designated d = slot → ∀ s ∈ slot, Image.Flagged before d s) ∧
    ∀ t, Image.Flagged before d t → c.designated d = some t ∨ ∃ s ∈ slot, t ≤ s

/-- A mark that is remembered for a slot already is found there if the bytes say so. -/
theorem settles_iff_of_same (same : c.designated d = slot) (bytes : List UInt8) :
    (ofStore ({ image := bytes } : RamStore)).designated d = slot ↔ c.Settles d slot bytes := by
  rw [designated_ofStore_eq_iff]
  refine and_congr (by simp [same]) (forall_congr' fun t => imp_congr_right fun _ => ?_)
  constructor
  · exact .inr
  · rintro (had | below)
    · exact ⟨t, same.symm.trans had, Nat.le_refl t⟩
    · exact below

section device

variable [ByteStore σ]

/-- Where nothing is marked, no record has the flag. -/
theorem Holds.not_flagged [Faultless σ] {h : Shelf} (holds : c.Holds h)
    (unmarked : h.designated d = none) (t : Nat) :
    ¬ Image.Flagged (Faultless.image c.store) d t := by
  rintro ⟨r, here, raised⟩
  have flag := holds.agrees.flag d t r here
  have nowhere : c.ledger.designated d = none := by
    rw [designated_ledger, holds.designated, unmarked]
  rw [nowhere, raised] at flag
  cases flag

theorem writeRecord_refused (c : Catalog σ) (slot : Nat) (r : Record) :
    writeRecord slot r (c.behind [⟨.write, 0, 1⟩]) = (.error .io, c.behind [⟨.write, 0, 0⟩]) := rfl

/-- The flags of a record are to change, and its first page is refused. -/
theorem refreshFlags_refused [Faultless σ] {c : Catalog σ} (sized : c.Sized) {slot : Nat}
    {r : Record} (here : c.ledger.records slot = some r)
    (outdated : ¬ (r.autostart = (c.flagsOf slot).1 ∧ r.lastUsed = (c.flagsOf slot).2)) :
    ∃ mid : Catalog σ, refreshFlags slot (c.behind [⟨.write, 0, 1⟩]) =
      (.error .io, mid.behind [⟨.write, 0, 0⟩]) ∧ mid.ledger = c.ledger := by
  obtain ⟨read, done, -, ledger⟩ := leaves_readRecord sized slot
  rw [here] at done
  have free : Fault.consult .read [⟨.write, 0, 1⟩] = (false, [⟨.write, 0, 1⟩]) := rfl
  have found := behind_of_tracks (tracks_readRecord (FaultyStore.readsAlike free) slot) c
  rw [done] at found
  have flags : read.flagsOf slot = c.flagsOf slot := by
    have same := congrArg (fun l : Ledger => (l.autostart == some slot, l.lastUsed == some slot))
      ledger
    exact same
  have flagsBehind : (read.behind [⟨.write, 0, 1⟩]).flagsOf slot = c.flagsOf slot := flags
  have answered : StoreCall.always (readRecord slot) (c.behind [⟨.write, 0, 1⟩]) =
      (.ok (some r), read.behind [⟨.write, 0, 1⟩]) := by
    simp only [StoreCall.always, found]
  refine ⟨read, ?_, ledger⟩
  unfold refreshFlags
  rw [StoreCall.bind_apply, answered]
  dsimp only
  rw [StoreCall.get_bind]
  simp only [flagsBehind]
  rw [if_neg outdated, writeRecord_refused]

theorem refreshAll_refused {c mid : Catalog σ} {slot : Nat} (rest : List Nat)
    (refused : refreshFlags slot (c.behind [⟨.write, 0, 1⟩]) =
      (.error .io, mid.behind [⟨.write, 0, 0⟩])) :
    refreshAll (slot :: rest) (c.behind [⟨.write, 0, 1⟩]) =
      (.error .io, mid.behind [⟨.write, 0, 0⟩]) := by
  unfold refreshAll
  rw [StoreCall.bind_apply, refused]

end device

variable [ByteStore σ] [Fallible σ]

/-- A call that gives a mark to a slot, or takes it away, and succeeds, on a store of which any
calls may have failed before and any but the reads may fail now. A catalog that is set up anew on
what is read of the store afterwards finds the mark there exactly if it was settled by what was
read before, and so does one that is set up on what a loss of power leaves, where the call did
anything at all. -/
theorem reassign_found_iff (reads : Reads c.store)
    (there : ∀ s ∈ slot, (Image.record? (image c.store) s).isSome)
    (done : reassign d slot c = (.ok (), after)) :
    ((ofStore ({ image := image after.store } : RamStore)).designated d = slot ↔
      c.Settles d slot (image c.store)) ∧
    ((ofStore ({ image := durable after.store } : RamStore)).designated d = slot ↔
      c.Settles d slot (if c.designated d = slot then durable c.store else image c.store)) := by
  rcases reassign_cases done with ⟨-, impossible, -⟩ | ⟨-, same, rfl⟩ | ⟨moves, refreshed⟩
  · cases impossible
  · rw [if_pos same]
    exact ⟨settles_iff_of_same same _, settles_iff_of_same same _⟩
  · obtain ⟨-, settled⟩ := refreshAll_cases refreshed
    obtain ⟨flushed, readable⟩ := settled rfl
    have marked : Reads (c.designate d slot).store := by
      rw [store_designate]
      exact reads
    have previous := designated_readable c d
    have ledger : after.readable = c.readable.reassign d slot := by
      have designated : (c.designate d slot).readable = c.readable.designate d slot := by
        cases d <;> rfl
      rw [readable marked, designated, Ledger.reassign, previous, if_neg moves]
    have inside : ∀ s ∈ slot, s < slotCount ∧ (c.readable.records s).isSome := by
      intro s member
      obtain ⟨r, here⟩ := Option.isSome_iff_exists.mp (there s member)
      exact ⟨(Image.of_record? here).1, there s member⟩
    have flagged (t : Nat) : Image.Flagged (image after.store) d t ↔
        slot = some t ∨ Image.Flagged (image c.store) d t ∧ c.designated d ≠ some t := by
      rw [← mem_flagged_readable, ← mem_flagged_readable, ledger, ← previous]
      exact Ledger.mem_flagged_reassign (by rw [previous]; exact moves) inside t
    -- Of the flags there were before, only that of the slot which the mark is taken from is gone:
    -- what else was flagged, by a call that failed, still counts.
    have found : (ofStore ({ image := image after.store } : RamStore)).designated d = slot ↔
        c.Settles d slot (image c.store) := by
      rw [designated_ofStore_eq_iff]
      constructor
      · rintro ⟨-, below⟩
        refine ⟨fun same => absurd same moves, fun t was => ?_⟩
        by_cases had : c.designated d = some t
        · exact .inl had
        · exact .inr (below t ((flagged t).mpr (.inr ⟨was, had⟩)))
      · rintro ⟨-, below⟩
        refine ⟨fun s member => (flagged s).mpr (.inl member), fun t now => ?_⟩
        rcases (flagged t).mp now with gets | ⟨was, other⟩
        · exact ⟨t, gets, Nat.le_refl t⟩
        · exact (below t was).resolve_left other
    rw [flushed, if_neg moves]
    exact ⟨found, found⟩

/-- The mark of the manual program is found where it is given on a store that does not fail. -/
theorem reassign_found_iff_manual :
    let start : Catalog RamStore := ofStore { image := Image.erased imageSize }
    ∃ after, reassign .autostart (some manualSlot) start = (.ok (), after) ∧
      (ofStore ({ image := after.store.image } : RamStore)).designated .autostart =
        some manualSlot := by
  intro start
  have holds : start.Holds _ := .blank
  have isSlot : ∀ s ∈ some manualSlot, s < slotCount := by
    rintro s ⟨⟩
    decide
  obtain ⟨after, done, -⟩ := leaves_reassign holds.sized .autostart (some manualSlot) isSlot
  clear_value start
  have unmarked : start.designated .autostart = none := (holds.designated .autostart).trans rfl
  have there : ∀ s ∈ some manualSlot, (Image.record? (image start.store) s).isSome := by
    rintro s ⟨⟩
    exact holds.agrees.manual
  exact ⟨after, done, (reassign_found_iff trivial there done).1.mpr
    ⟨by simp [unmarked], fun t flagged => absurd flagged (holds.not_flagged rfl t)⟩⟩

/-- The mark of the manual program cannot be written and is given once more: now that is answered
as done, and still nothing is written. -/
theorem mark_given_but_not_found :
    let start : Catalog RamStore := ofStore { image := Image.erased imageSize }
    ∃ mid, reassign .autostart (some manualSlot) (start.behind [⟨.write, 0, 1⟩]) =
        (.error .io, mid) ∧
      (Image.record? mid.store.store.image manualSlot).isSome ∧
      reassign .autostart (some manualSlot) mid = (.ok (), mid) ∧
      (ofStore ({ image := mid.store.store.image } : RamStore)).designated .autostart = none := by
  intro start
  have holds : start.Holds _ := .blank
  clear_value start
  have unmarked : start.designated .autostart = none := (holds.designated .autostart).trans rfl
  have isSlot : ¬ ∃ s ∈ some manualSlot, slotCount ≤ s := by decide
  let marked : Catalog RamStore := start.designate .autostart (some manualSlot)
  obtain ⟨r, here⟩ := Option.isSome_iff_exists.mp holds.agrees.manual
  have lowered : r.autostart = false := by
    have flag : r.autostart = (start.designated .autostart == some manualSlot) :=
      holds.agrees.flag .autostart manualSlot r here
    rw [flag, unmarked]
    rfl
  obtain ⟨mid, refused, ledger⟩ := refreshFlags_refused (c := marked) holds.sized here (by
    rw [lowered]
    exact fun upToDate => Bool.noConfusion upToDate.1)
  have records : Image.record? mid.store.image = Image.record? start.store.image :=
    congrArg Ledger.records ledger
  have remembered : (mid.behind [⟨.write, 0, 0⟩]).designated .autostart = some manualSlot :=
    congrArg Ledger.autostart ledger
  refine ⟨mid.behind [⟨.write, 0, 0⟩], ?_, ?_, ?_, ?_⟩
  -- Nothing was marked, so the first call is to change the flags of the manual program alone, and
  -- its first page is refused.
  · cases done : reassign .autostart (some manualSlot) (start.behind [⟨.write, 0, 1⟩]) with
    | mk answer after =>
      rcases reassign_cases done with ⟨beyond, -⟩ | ⟨-, same, -⟩ | ⟨-, refreshed⟩
      · exact absurd beyond isSlot
      · cases unmarked.symm.trans same
      · have previous : (start.behind [⟨.write, 0, 1⟩]).designated .autostart = none := unmarked
        have behind : (start.behind [⟨.write, 0, 1⟩]).designate .autostart (some manualSlot) =
            marked.behind [⟨.write, 0, 1⟩] := rfl
        rw [previous, behind] at refreshed
        exact refreshed.symm.trans (refreshAll_refused [] refused)
  · have same : Image.record? mid.store.image manualSlot = some r :=
      (congrFun records manualSlot).trans here
    exact Option.isSome_of_eq_some same
  · cases done : reassign .autostart (some manualSlot) (mid.behind [⟨.write, 0, 0⟩]) with
    | mk answer after =>
      rcases reassign_cases done with ⟨beyond, -⟩ | ⟨rfl, -, rfl⟩ | ⟨moves, -⟩
      · exact absurd beyond isSlot
      · rfl
      · exact absurd remembered moves
  · refine (designated_ofStore_eq_iff _ _ none).mpr ⟨fun s member => (nomatch member), ?_⟩
    rintro t ⟨r, there, raised⟩
    have was : Image.record? start.store.image t = some r := (congrFun records t).symm.trans there
    exact absurd ⟨r, was, raised⟩ (holds.not_flagged rfl t)

end Catalog

end RelayTimer
