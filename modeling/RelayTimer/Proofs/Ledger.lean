import RelayTimer.Proofs.Shelf

set_option autoImplicit false

/-!
What a catalog remembers, next to the records that are in its store, and how the two are kept in
agreement.
-/
namespace RelayTimer

structure Ledger where
  records : Nat → Option Record
  occupied : Occupancy := {}
  autostart : Option Nat := none
  lastUsed : Option Nat := none
  selected : Option Nat := none

namespace Ledger

def designated (l : Ledger) : Designation → Option Nat
  | .autostart => l.autostart
  | .lastUsed => l.lastUsed

def designate (l : Ledger) (d : Designation) (slot : Option Nat) : Ledger :=
  match d with
  | .autostart => { l with autostart := slot }
  | .lastUsed => { l with lastUsed := slot }

/-- The record with the flags that are remembered for its slot. -/
def reflag (l : Ledger) (slot : Nat) (r : Record) : Record :=
  { r with autostart := l.autostart == some slot, lastUsed := l.lastUsed == some slot }

/-- Another record in a slot, or none. -/
def put (l : Ledger) (slot : Nat) (record : Option Record) : Ledger :=
  { l with records := fun s => if s = slot then record else l.records s }

/-- A text in a slot, which keeps its marks. -/
def write (l : Ledger) (slot : Nat) (text : String) : Ledger :=
  { l.put slot (some (Record.ofText text (l.autostart == some slot) (l.lastUsed == some slot))) with
    occupied := l.occupied.insert slot }

/-- All that is remembered of a slot is forgotten, and its record is gone. -/
def clear (l : Ledger) (slot : Nat) : Ledger :=
  { l.put slot none with
    occupied := l.occupied.remove slot
    autostart := if l.autostart = some slot then none else l.autostart
    lastUsed := if l.lastUsed = some slot then none else l.lastUsed
    selected := if l.selected = some slot then some manualSlot else l.selected }

def erase (l : Ledger) (slot : Nat) : Ledger :=
  if slot = manualSlot then (l.clear slot).write manualSlot defaultManualText else l.clear slot

/-- The record of a slot has its flags as they are remembered. -/
def refresh (l : Ledger) (slot : Nat) : Ledger := l.put slot ((l.records slot).map (l.reflag slot))

def refreshAll (l : Ledger) (slots : List Nat) : Ledger := slots.foldl refresh l

/-- A mark goes from one slot to another. -/
def reassign (l : Ledger) (d : Designation) (slot : Option Nat) : Ledger :=
  if l.designated d = slot then l
  else (l.designate d slot).refreshAll ((l.designated d).toList ++ slot.toList)

/-- The slots whose record has the flag for a mark. -/
def flagged (l : Ledger) (d : Designation) : List Nat :=
  (List.range slotCount).filter fun s => (l.records s).any (·.flag d)

/-- What is remembered is what the records say, where the last flag for a mark counts. -/
def remember (l : Ledger) : Ledger :=
  { l with
    occupied := Occupancy.ofPred fun s => (l.records s).isSome
    autostart := (l.flagged .autostart).getLast?
    lastUsed := (l.flagged .lastUsed).getLast? }

def scan (l : Ledger) : Ledger :=
  let settled := l.remember.refreshAll ((List.range slotCount).filter fun s =>
    (l.records s).any fun r => r.autostart || r.lastUsed)
  if (l.records manualSlot).isSome then settled else settled.write manualSlot defaultManualText

/-- The ledger as its user sees it. -/
def shelf (l : Ledger) : Shelf :=
  { texts := fun s => (l.records s).map Record.text
    autostart := l.autostart
    lastUsed := l.lastUsed
    selected := l.selected }

/-- What is remembered agrees with the records, but for the manual program, which may be missing. -/
structure Coherent (l : Ledger) : Prop where
  slots : ∀ s, (l.records s).isSome → s < slotCount
  occupied : ∀ s, l.occupied.contains s = (l.records s).isSome
  flag : ∀ d s r, l.records s = some r → r.flag d = (l.designated d == some s)
  designated : ∀ d s, l.designated d = some s → (l.records s).isSome

/-- What is remembered agrees with the records. -/
structure Agrees (l : Ledger) : Prop extends l.Coherent where
  manual : (l.records manualSlot).isSome
  selected : ∀ s, l.selected = some s → (l.records s).isSome

variable {l : Ledger}

theorem flag_reflag (l : Ledger) (slot : Nat) (r : Record) (d : Designation) :
    (l.reflag slot r).flag d = (l.designated d == some slot) := by
  cases d <;> rfl

/-- To bring the flags of slots up to date changes their records and nothing else. -/
theorem refreshAll_eq (l : Ledger) (slots : List Nat) :
    l.refreshAll slots = { l with records := fun s =>
      if s ∈ slots then (l.records s).map (l.reflag s) else l.records s } := by
  induction slots generalizing l with
  | nil => simp [refreshAll]
  | cons slot rest ih =>
      have step : l.refreshAll (slot :: rest) = (l.refresh slot).refreshAll rest := rfl
      rw [step, ih]
      simp only [refresh, put, Ledger.mk.injEq, and_true]
      funext s
      by_cases here : s = slot
      · subst here
        by_cases again : s ∈ rest
        · simp only [again, List.mem_cons, or_true, ↓reduceIte, Option.map_map]
          rfl
        · simp [again]
      · by_cases later : s ∈ rest
        · simp only [here, later, List.mem_cons, or_true, ↓reduceIte]
          rfl
        · simp [here, later]

theorem Coherent.write (coherent : l.Coherent) {slot : Nat} (isSlot : slot < slotCount)
    (text : String) : (l.write slot text).Coherent := by
  refine ⟨?_, ?_, ?_, ?_⟩
  · intro s there
    simp only [Ledger.write, put] at there
    split at there
    · rename_i here
      rw [here]
      exact isSlot
    · exact coherent.slots s there
  · intro s
    simp only [Ledger.write, put, Occupancy.contains_insert]
    by_cases here : s = slot
    · simp [here, isSlot]
    · have slots := coherent.slots s
      have occupied := coherent.occupied s
      cases there : (l.records s).isSome with
      | false => simp [here, there, occupied]
      | true => simp [here, there, occupied, slots there]
  · intro d s r there
    simp only [Ledger.write, put] at there
    split at there
    · rename_i here
      cases there
      rw [here]
      cases d <;> rfl
    · have kept := coherent.flag d s r there
      cases d <;> exact kept
  · intro d s marked
    have there := coherent.designated d s (by cases d <;> exact marked)
    simp only [Ledger.write, put]
    split
    · rfl
    · exact there

theorem shelf_write (l : Ledger) (slot : Nat) (text : String) :
    (l.write slot text).shelf = l.shelf.put slot (some (storedText text)) := by
  simp only [shelf, Ledger.write, put, Shelf.put, Shelf.mk.injEq, and_true]
  funext s
  split
  · simp
  · rfl

theorem Agrees.write (agrees : l.Agrees) {slot : Nat} (isSlot : slot < slotCount) (text : String) :
    (l.write slot text).Agrees := by
  have more (s : Nat) (there : (l.records s).isSome) : ((l.write slot text).records s).isSome := by
    simp only [Ledger.write, put]
    split
    · rfl
    · exact there
  exact ⟨agrees.toCoherent.write isSlot text, more _ agrees.manual,
    fun s selected => more s (agrees.selected s selected)⟩

theorem designated_clear (l : Ledger) (slot : Nat) (d : Designation) :
    (l.clear slot).designated d =
      if l.designated d = some slot then none else l.designated d := by
  cases d <;> rfl

theorem Coherent.clear (coherent : l.Coherent) (slot : Nat) : (l.clear slot).Coherent := by
  have designated := designated_clear l slot
  refine ⟨?_, ?_, ?_, ?_⟩
  · intro s there
    simp only [Ledger.clear, put] at there
    split at there
    · cases there
    · exact coherent.slots s there
  · intro s
    simp only [Ledger.clear, put, Occupancy.contains_remove]
    by_cases here : s = slot
    · simp [here]
    · have slots := coherent.slots s
      have occupied := coherent.occupied s
      cases there : (l.records s).isSome with
      | false => simp [here, there, occupied]
      | true => simp [here, there, occupied, slots there]
  · intro d s r there
    simp only [Ledger.clear, put] at there
    split at there
    · cases there
    · rename_i other
      rw [coherent.flag d s r there, designated]
      split
      · rename_i marked
        rw [marked]
        simpa using Ne.symm other
      · rfl
  · intro d s marked
    rw [designated] at marked
    split at marked
    · cases marked
    · rename_i kept
      have there := coherent.designated d s marked
      have other : s ≠ slot := by
        rintro rfl
        exact kept marked
      simp only [Ledger.clear, put, other, ↓reduceIte]
      exact there

theorem Coherent.erase (coherent : l.Coherent) (slot : Nat) : (l.erase slot).Coherent := by
  unfold Ledger.erase
  split
  · exact (coherent.clear slot).write (by decide) _
  · exact coherent.clear slot

theorem storedText_default : storedText defaultManualText = defaultManualText := by
  decide

theorem shelf_erase (l : Ledger) (slot : Nat) : (l.erase slot).shelf = l.shelf.erase slot := by
  have cleared : (l.clear slot).shelf = { (l.shelf.erase slot) with
      texts := fun s => if s = slot then none else l.shelf.texts s } := by
    simp only [shelf, Ledger.clear, put, Shelf.erase, Shelf.mk.injEq]
    refine ⟨?_, rfl, rfl, rfl⟩
    funext s
    split <;> rfl
  unfold Ledger.erase
  split
  · rename_i manual
    rw [shelf_write, cleared, storedText_default]
    subst manual
    simp only [Shelf.put, Shelf.erase, Shelf.mk.injEq, and_true, ↓reduceIte]
    funext s
    split <;> rfl
  · rename_i other
    rw [cleared]
    simp only [Shelf.erase, other, ↓reduceIte]

theorem Agrees.erase (agrees : l.Agrees) (slot : Nat) : (l.erase slot).Agrees := by
  have kept (s : Nat) (other : s ≠ slot) (there : (l.records s).isSome) :
      ((l.erase slot).records s).isSome := by
    unfold Ledger.erase
    split
    · simp only [Ledger.write, Ledger.clear, put, other, ↓reduceIte]
      split
      · rfl
      · exact there
    · simp only [Ledger.clear, put, other, ↓reduceIte]
      exact there
  have manual : ((l.erase slot).records manualSlot).isSome := by
    by_cases same : slot = manualSlot
    · simp [Ledger.erase, same, Ledger.write, put]
    · exact kept _ (Ne.symm same) agrees.manual
  refine ⟨agrees.toCoherent.erase slot, manual, ?_⟩
  intro s selected
  have was : (if l.selected = some slot then some manualSlot else l.selected) = some s :=
    (congrArg Shelf.selected (shelf_erase l slot)).symm.trans selected
  split at was
  · cases was
    exact manual
  · rename_i other
    refine kept s ?_ (agrees.selected s was)
    rintro rfl
    exact other was

section marks

theorem designated_designate (l : Ledger) (d other : Designation) (slot : Option Nat) :
    (l.designate d slot).designated other = if other = d then slot else l.designated other := by
  cases d <;> cases other <;> rfl

theorem records_designate (l : Ledger) (d : Designation) (slot : Option Nat) :
    (l.designate d slot).records = l.records := by
  cases d <;> rfl

/-- The flags of some slots are brought up to date: that is all that agreement needs if no other
record has a flag too many or too few. -/
theorem Coherent.refreshAll {slots : List Nat} (inside : ∀ s, (l.records s).isSome → s < slotCount)
    (occupied : ∀ s, l.occupied.contains s = (l.records s).isSome)
    (designated : ∀ d s, l.designated d = some s → (l.records s).isSome)
    (others : ∀ d s r, s ∉ slots → l.records s = some r → r.flag d = (l.designated d == some s)) :
    (l.refreshAll slots).Coherent := by
  have same (s : Nat) : ((l.refreshAll slots).records s).isSome = (l.records s).isSome := by
    rw [refreshAll_eq]
    simp only
    split <;> simp
  have marks (d : Designation) : (l.refreshAll slots).designated d = l.designated d := by
    rw [refreshAll_eq]
    cases d <;> rfl
  refine ⟨?_, ?_, ?_, ?_⟩
  · intro s there
    rw [same] at there
    exact inside s there
  · intro s
    rw [same, ← occupied, refreshAll_eq]
  · intro d s r there
    rw [marks]
    rw [refreshAll_eq] at there
    simp only at there
    split at there
    · obtain ⟨old, -, rfl⟩ := Option.map_eq_some_iff.mp there
      exact flag_reflag l s old d
    · rename_i absent
      exact others d s r absent there
  · intro d s marked
    rw [marks] at marked
    rw [same]
    exact designated d s marked

theorem shelf_refreshAll (l : Ledger) (slots : List Nat) : (l.refreshAll slots).shelf = l.shelf := by
  rw [refreshAll_eq]
  simp only [shelf, Shelf.mk.injEq, and_true]
  funext s
  split
  · rw [Option.map_map]
    rfl
  · rfl

theorem Coherent.reassign (coherent : l.Coherent) (d : Designation) (slot : Option Nat)
    (there : ∀ s ∈ slot, (l.records s).isSome) : (l.reassign d slot).Coherent := by
  unfold Ledger.reassign
  split
  · exact coherent
  · have records := records_designate l d slot
    apply Coherent.refreshAll
    · rw [records]
      exact coherent.slots
    · intro s
      rw [records, ← coherent.occupied]
      cases d <;> rfl
    · intro other s marked
      rw [records]
      rw [designated_designate] at marked
      split at marked
      · exact there s marked
      · exact coherent.designated other s marked
    · intro other s r absent here
      rw [records] at here
      rw [designated_designate, coherent.flag other s r here]
      split
      · rename_i same
        subst same
        simp only [List.mem_append, Option.mem_toList, not_or] at absent
        rw [beq_eq_false_iff_ne.mpr absent.1, beq_eq_false_iff_ne.mpr absent.2]
      · rfl

theorem shelf_reassign (l : Ledger) (d : Designation) (slot : Option Nat) :
    (l.reassign d slot).shelf = l.shelf.designate d slot := by
  unfold Ledger.reassign
  split
  · rename_i same
    rw [← same]
    cases d <;> rfl
  · rw [shelf_refreshAll]
    cases d <;> rfl

theorem Agrees.reassign (agrees : l.Agrees) (d : Designation) (slot : Option Nat)
    (there : ∀ s ∈ slot, (l.records s).isSome) : (l.reassign d slot).Agrees := by
  have text (s : Nat) : ((l.reassign d slot).records s).isSome = (l.records s).isSome := by
    have same := congrArg (fun h : Shelf => (h.texts s).isSome) (shelf_reassign l d slot)
    have kept : ((l.shelf.designate d slot).texts s).isSome = (l.shelf.texts s).isSome := by
      cases d <;> rfl
    rw [kept] at same
    simpa [shelf] using same
  have selected : (l.reassign d slot).selected = l.selected := by
    have same := congrArg Shelf.selected (shelf_reassign l d slot)
    refine same.trans ?_
    cases d <;> rfl
  refine ⟨agrees.toCoherent.reassign d slot there, by rw [text]; exact agrees.manual, ?_⟩
  intro s marked
  rw [selected] at marked
  rw [text]
  exact agrees.selected s marked

end marks

section scan

theorem mem_flagged (l : Ledger) (d : Designation) (s : Nat) :
    s ∈ l.flagged d ↔ s < slotCount ∧ ∃ r, l.records s = some r ∧ r.flag d = true := by
  simp only [flagged, List.mem_filter, List.mem_range, Option.any_eq_true]

theorem designated_remember (l : Ledger) (d : Designation) :
    l.remember.designated d = (l.flagged d).getLast? := by
  cases d <;> rfl

/-- After a look through the store what is remembered agrees with the records. -/
theorem Coherent.settle (inside : ∀ s, (l.records s).isSome → s < slotCount) :
    (l.remember.refreshAll ((List.range slotCount).filter fun s =>
      (l.records s).any fun r => r.autostart || r.lastUsed)).Coherent := by
  apply Coherent.refreshAll
  · exact inside
  · intro s
    have slot := inside s
    simp only [remember, Occupancy.contains_ofPred]
    cases there : (l.records s).isSome with
    | false => simp
    | true => simp [slot there]
  · intro d s marked
    rw [designated_remember] at marked
    obtain ⟨-, r, here, -⟩ := (mem_flagged l d s).mp (List.mem_of_getLast? marked)
    exact Option.isSome_iff_exists.mpr ⟨r, here⟩
  · intro d s r absent here
    have slot : s < slotCount := inside s (Option.isSome_iff_exists.mpr ⟨r, here⟩)
    have record : l.records s = some r := here
    have unflagged : r.autostart = false ∧ r.lastUsed = false := by
      simpa [List.mem_filter, slot, record] using absent
    have flag : r.flag d = false := by
      cases d
      · exact unflagged.1
      · exact unflagged.2
    rw [flag, designated_remember]
    symm
    rw [beq_eq_false_iff_ne]
    intro marked
    obtain ⟨-, other, same, raised⟩ := (mem_flagged l d s).mp (List.mem_of_getLast? marked)
    rw [record] at same
    cases same
    rw [flag] at raised
    cases raised

theorem Coherent.scan (inside : ∀ s, (l.records s).isSome → s < slotCount) : l.scan.Coherent := by
  unfold Ledger.scan
  dsimp only
  split
  · exact .settle inside
  · exact (Coherent.settle inside).write (by decide) _

/-- A look through the store finds what the records say. -/
theorem shelf_scan (l : Ledger) :
    l.scan.shelf = { Shelf.ofRecords l.records with selected := l.selected } := by
  have settled : (l.remember.refreshAll ((List.range slotCount).filter fun s =>
      (l.records s).any fun r => r.autostart || r.lastUsed)).shelf =
        { Shelf.ofRecords l.records with
          texts := fun s => (l.records s).map Record.text, selected := l.selected } :=
    shelf_refreshAll _ _
  unfold Ledger.scan
  dsimp only
  split
  · rename_i manual
    rw [settled]
    simp only [Shelf.ofRecords, Shelf.mk.injEq, and_true]
    funext s
    split
    · rename_i missing
      rw [missing.1] at missing
      simp [missing.2] at manual
    · rfl
  · rename_i missing
    rw [shelf_write, settled, storedText_default]
    simp only [Shelf.ofRecords, Shelf.put, Shelf.mk.injEq, and_true]
    funext s
    by_cases here : s = manualSlot
    · have absent : l.records manualSlot = none := by simpa using missing
      rw [here]
      simp [absent]
    · simp [here]

theorem isSome_texts (l : Ledger) (s : Nat) : (l.shelf.texts s).isSome = (l.records s).isSome := by
  simp [shelf]

theorem Agrees.scan (inside : ∀ s, (l.records s).isSome → s < slotCount)
    (selected : ∀ s, l.selected = some s → (l.records s).isSome) : l.scan.Agrees := by
  have found (s : Nat) : (l.scan.records s).isSome =
      ((Shelf.ofRecords l.records).texts s).isSome := by
    rw [← isSome_texts, shelf_scan]
  refine ⟨.scan inside, ?_, ?_⟩
  · rw [found]
    simp only [Shelf.ofRecords]
    split
    · rfl
    · rename_i present
      simpa [Option.isSome_iff_ne_none] using present
  · intro s marked
    have was : l.selected = some s :=
      (congrArg Shelf.selected (shelf_scan l)).symm.trans marked
    rw [found]
    simp only [Shelf.ofRecords]
    split
    · rfl
    · simpa using selected s was

theorem getLast?_flagged (coherent : l.Coherent) (d : Designation) :
    (l.flagged d).getLast? = l.designated d := by
  have member (s : Nat) : s ∈ l.flagged d ↔ l.designated d = some s := by
    rw [mem_flagged]
    refine ⟨?_, ?_⟩
    · rintro ⟨-, r, here, raised⟩
      rw [coherent.flag d s r here] at raised
      exact eq_of_beq raised
    · intro marked
      have there := coherent.designated d s marked
      obtain ⟨r, here⟩ := Option.isSome_iff_exists.mp there
      refine ⟨coherent.slots s there, r, here, ?_⟩
      rw [coherent.flag d s r here, marked]
      simp
  cases last : (l.flagged d).getLast? with
  | none =>
      have empty : l.flagged d = [] := List.getLast?_eq_none_iff.mp last
      cases marked : l.designated d with
      | none => rfl
      | some s =>
          have inside := (member s).mpr marked
          rw [empty] at inside
          cases inside
  | some s => exact ((member s).mp (List.mem_of_getLast? last)).symm

/-- Where what is remembered agrees with the records, there is nothing else to find. -/
theorem Agrees.ofRecords (agrees : l.Agrees) :
    Shelf.ofRecords l.records = { l.shelf with selected := none } := by
  have auto := getLast?_flagged agrees.toCoherent .autostart
  have last := getLast?_flagged agrees.toCoherent .lastUsed
  simp only [Shelf.ofRecords, shelf, Shelf.mk.injEq, and_true]
  refine ⟨?_, auto, last⟩
  funext s
  split
  · rename_i missing
    have manual := agrees.manual
    rw [← missing.1, missing.2] at manual
    cases manual
  · rfl

end scan

end Ledger

end RelayTimer
