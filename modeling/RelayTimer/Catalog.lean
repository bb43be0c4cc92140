import RelayTimer.Occupancy
import RelayTimer.Request.Reader
import RelayTimer.Store.Basic

set_option autoImplicit false

/-!
The stored programs: ten slots in a store, and what is remembered of them between two looks at the
store. Slot 0 holds the manual program, which always exists.
-/
namespace RelayTimer

def manualSlot : Nat := 0

/-- The manual program as long as nobody has set it. -/
def defaultManualText : String := "c 1M o 5s *"

/-- The things that at most one slot is marked for. -/
inductive Designation
  | autostart
  | lastUsed
  deriving Repr, DecidableEq

structure Catalog (σ : Type) where
  store : σ
  /-- The slots that hold a program. -/
  occupied : Occupancy := {}
  /-- The slot that plays when the timer starts. -/
  autostart : Option Nat := none
  /-- The slot that was the last to play. -/
  lastUsed : Option Nat := none
  /-- The slot that the display shows. -/
  selected : Option Nat := none

namespace Catalog

variable {σ : Type}

def designated (c : Catalog σ) : Designation → Option Nat
  | .autostart => c.autostart
  | .lastUsed => c.lastUsed

def designate (c : Catalog σ) (d : Designation) (slot : Option Nat) : Catalog σ :=
  match d with
  | .autostart => { c with autostart := slot }
  | .lastUsed => { c with lastUsed := slot }

section designate

variable (c : Catalog σ) (d other : Designation) (slot : Option Nat)

@[simp]
theorem store_designate : (c.designate d slot).store = c.store := by
  cases d <;> rfl

@[simp]
theorem occupied_designate : (c.designate d slot).occupied = c.occupied := by
  cases d <;> rfl

theorem designated_designate :
    (c.designate d slot).designated other = if other = d then slot else c.designated other := by
  cases d <;> cases other <;> rfl

@[simp]
theorem designate_designated : c.designate d (c.designated d) = c := by
  cases d <;> rfl

end designate

def isOccupied (c : Catalog σ) (slot : Nat) : Bool := c.occupied.contains slot

def select (c : Catalog σ) (slot : Option Nat) : Catalog σ := { c with selected := slot }

/-- The first slot after this one that holds a program, or this one. -/
def nextSlot (c : Catalog σ) (slot : Nat) : Nat :=
  ((List.range slotCount).find? fun s => slot < s && c.isOccupied s).getD slot

/-- The last slot before this one that holds a program, or the manual one. -/
def previousSlot (c : Catalog σ) (slot : Nat) : Nat :=
  ((List.range slotCount).reverse.find? fun s => s < slot && c.isOccupied s).getD manualSlot

def flagsOf (c : Catalog σ) (slot : Nat) : Bool × Bool :=
  (c.autostart == some slot, c.lastUsed == some slot)

def onStore {α : Type} (call : StoreCall σ α) : StoreCall (Catalog σ) α := fun c =>
  let (result, store) := call c.store
  (result, { c with store })

variable [ByteStore σ]

/-- The record of a slot. A slot that cannot be read holds none. -/
def readRecord (slot : Nat) : StateM (Catalog σ) (Option Record) := fun c =>
  if slotCount ≤ slot then (none, c)
  else match onStore (ByteStore.readAt (slotOffset slot) recordSize) c with
    | (.ok bytes, c) => (Record.decode? bytes, c)
    | (.error _, c) => (none, c)

def writeRecord (slot : Nat) (record : Record) : StoreCall (Catalog σ) Unit := onStore do
  ByteStore.writePage (slotPage slot) (record.encode.take pageSize)
  ByteStore.writePage (slotPage slot + 1) (record.encode.drop pageSize)

def flush : StoreCall (Catalog σ) Unit := onStore ByteStore.flush

/-- Writes a text to a slot, which keeps its marks. -/
def write (slot : Nat) (text : String) : StoreCall (Catalog σ) Unit := do
  if slotCount ≤ slot then throw .outOfRange
  let (autostart, lastUsed) := (← get).flagsOf slot
  writeRecord slot (Record.ofText text autostart lastUsed)
  flush
  modify fun c => { c with occupied := c.occupied.insert slot }

/-- Writes the manual program as nobody has set it. Where that fails the slot counts as occupied
all the same. -/
def restoreManual : StateM (Catalog σ) Unit := fun c =>
  match write manualSlot defaultManualText c with
  | (.ok (), c) => ((), c)
  | (.error _, c) => ((), { c with occupied := c.occupied.insert manualSlot })

/-- Forgets what is remembered of a slot. A selection of it falls back to the manual program. -/
def forget (c : Catalog σ) (slot : Nat) : Catalog σ :=
  { c with
    occupied := c.occupied.remove slot
    autostart := if c.autostart = some slot then none else c.autostart
    lastUsed := if c.lastUsed = some slot then none else c.lastUsed
    selected := if c.selected = some slot then some manualSlot else c.selected }

/-- Erases a slot; the manual program becomes what it is as long as nobody has set it. -/
def erase (slot : Nat) : StoreCall (Catalog σ) Unit := do
  if slotCount ≤ slot then throw .outOfRange
  onStore do
    ByteStore.erasePage (slotPage slot)
    ByteStore.erasePage (slotPage slot + 1)
    ByteStore.flush
  modify (·.forget slot)
  if slot = manualSlot then StoreCall.always restoreManual

/-- Writes the record of a slot anew if its flags are not those it is to have. A slot without a
record is left alone. -/
def refreshFlags (slot : Nat) : StoreCall (Catalog σ) Unit := do
  match ← StoreCall.always (readRecord slot) with
  | none => return
  | some record =>
    let (autostart, lastUsed) := (← get).flagsOf slot
    if record.autostart = autostart ∧ record.lastUsed = lastUsed then return
    writeRecord slot { record with autostart, lastUsed }

def refreshAll : List Nat → StoreCall (Catalog σ) Unit
  | [] => flush
  | slot :: rest => do
    refreshFlags slot
    refreshAll rest

/-- Marks a slot for something and takes the mark from the slot that had it. What is remembered
changes first, and nothing is written where it does not change. -/
def reassign (d : Designation) (slot : Option Nat) : StoreCall (Catalog σ) Unit := do
  if slot.any (slotCount ≤ ·) then throw .outOfRange
  let previous := (← get).designated d
  modify (·.designate d slot)
  if previous = slot then return
  match previous with
  | some old => refreshFlags old
  | none => pure ()
  match slot with
  | some new => refreshFlags new
  | none => pure ()
  flush

def readAll : List Nat → StateM (Catalog σ) (List (Nat × Record))
  | [] => return []
  | slot :: rest => do
    let record ← readRecord slot
    let records ← readAll rest
    return (record.map fun r => (slot, r)).toList ++ records

/-- Looks through the store anew. A mark found on several slots stays with the last of them and is
taken from the others; the manual program is written where it is missing. -/
def scan : StateM (Catalog σ) Unit := do
  let records ← readAll (List.range slotCount)
  let slots := records.map (·.1)
  let auto := (records.filter (·.2.autostart)).map (·.1)
  let last := (records.filter (·.2.lastUsed)).map (·.1)
  modify fun c => { c with
    occupied := Occupancy.ofPred slots.contains
    autostart := auto.getLast?
    lastUsed := last.getLast? }
  let flagged := slots.filter fun s => auto.contains s || last.contains s
  let _ ← (refreshAll flagged).run
  if !slots.contains manualSlot then restoreManual

def ofStore (store : σ) : Catalog σ := (scan.run { store }).2

def programText (slot : Nat) : StateM (Catalog σ) (Option String) := do
  if (← get).isOccupied slot then
    return (← readRecord slot).map Record.text
  else return none

def program? (slot : Nat) : StateM (Catalog σ) (Option Program) := do
  match (← programText slot).map Request.ofLine with
  | some (.ok (.program p)) => return some p
  | _ => return none

end Catalog

end RelayTimer
