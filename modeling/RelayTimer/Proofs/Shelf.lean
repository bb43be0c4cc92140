import RelayTimer.Engine
import RelayTimer.Proofs.StoredImage

set_option autoImplicit false

/-!
The stored programs as their user sees them: a text in some of the slots, and at most one slot for
each of the marks.
-/
namespace RelayTimer

structure Shelf where
  texts : Nat → Option String
  autostart : Option Nat := none
  lastUsed : Option Nat := none
  selected : Option Nat := none

/-- What can be done with the stored programs. -/
inductive ShelfOp
  | scan
  | write (slot : Nat) (text : String)
  | erase (slot : Nat)
  | designate (d : Designation) (slot : Option Nat)
  | select (slot : Option Nat)
  | load (slot : Nat)
  deriving Repr, DecidableEq

namespace Shelf

def designated (h : Shelf) : Designation → Option Nat
  | .autostart => h.autostart
  | .lastUsed => h.lastUsed

def designate (h : Shelf) (d : Designation) (slot : Option Nat) : Shelf :=
  match d with
  | .autostart => { h with autostart := slot }
  | .lastUsed => { h with lastUsed := slot }

/-- The shelf with another text in a slot, or none. -/
def put (h : Shelf) (slot : Nat) (text : Option String) : Shelf :=
  { h with texts := fun s => if s = slot then text else h.texts s }

/-- The shelf without a text and the marks of its slot. The manual program is there again as nobody
has set it, and takes over a selection. -/
def erase (h : Shelf) (slot : Nat) : Shelf :=
  { texts := fun s =>
      if s = slot then if slot = manualSlot then some defaultManualText else none else h.texts s
    autostart := if h.autostart = some slot then none else h.autostart
    lastUsed := if h.lastUsed = some slot then none else h.lastUsed
    selected := if h.selected = some slot then some manualSlot else h.selected }

/-- The shelf after something has been done. To look through the store or to play a program leaves
it as it is, and so does what is done to a slot that does not exist. -/
def step (h : Shelf) : ShelfOp → Shelf
  | .scan | .load _ => h
  | .write slot text => if slot < slotCount then h.put slot (some (storedText text)) else h
  | .erase slot => if slot < slotCount then h.erase slot else h
  | .designate d slot => h.designate d slot
  | .select slot => { h with selected := slot }

/-- A mark or the selection is given to a slot only where there is a text. -/
def Admits (h : Shelf) : ShelfOp → Prop
  | .designate _ slot | .select slot => ∀ s ∈ slot, (h.texts s).isSome
  | .scan | .write .. | .erase _ | .load _ => True

/-- All of this can be done, one after another. -/
def AdmitsAll (h : Shelf) : List ShelfOp → Prop
  | [] => True
  | op :: rest => h.Admits op ∧ (h.step op).AdmitsAll rest

/-- The program of a slot, if its text is one. -/
def program? (h : Shelf) (slot : Nat) : Option Program :=
  match (h.texts slot).map Request.ofLine with
  | some (.ok (.program p)) => some p
  | _ => none

end Shelf

/-- The flag of a record for a mark. -/
def Record.flag (r : Record) : Designation → Bool
  | .autostart => r.autostart
  | .lastUsed => r.lastUsed

/-- What is on the shelf when all that there is is some records: a mark is with the last slot whose
record has its flag, and the manual program is there in any case. -/
def Shelf.ofRecords (records : Nat → Option Record) : Shelf :=
  let marked (d : Designation) :=
    ((List.range slotCount).filter fun s => (records s).any (·.flag d)).getLast?
  { texts := fun s =>
      if s = manualSlot ∧ records s = none then some defaultManualText
      else (records s).map Record.text
    autostart := marked .autostart
    lastUsed := marked .lastUsed }

namespace ShelfOp

/-- What is answered: there are ten slots. -/
def answer : ShelfOp → Except StoreError Unit
  | .write slot _ | .erase slot => if slot < slotCount then .ok () else .error .outOfRange
  | .designate .. | .scan | .select _ | .load _ => .ok ()

end ShelfOp

end RelayTimer
