import RelayTimer.Store.Fault

set_option autoImplicit false

/-!
The flash chip: two megabytes, erased in sectors of four kilobytes. Writing clears bits and never
sets one.
-/
namespace RelayTimer

def sectorSize : Nat := 4096

def flashSize : Nat := 2 * 1024 * 1024

inductive FlashCall
  /-- Erases the sector at an address. -/
  | erase (address : Nat)
  /-- Writes bytes from an address on. -/
  | program (address : Nat) (data : List UInt8)
  deriving Repr, DecidableEq

structure Cells where
  byte : Nat → UInt8

namespace Cells

def erased : Cells := ⟨fun _ => erasedByte⟩

def erase (cells : Cells) (address length : Nat) : Cells :=
  ⟨fun a => if address ≤ a ∧ a < address + length then erasedByte else cells.byte a⟩

def overwrite (cells : Cells) (address : Nat) (data : List UInt8) : Cells :=
  let bytes := data.toArray
  ⟨fun a =>
    if address ≤ a ∧ a < address + bytes.size then bytes.getD (a - address) erasedByte
    else cells.byte a⟩

/-- The cells with the bits cleared that are clear in the data. -/
def program (cells : Cells) (address : Nat) (data : List UInt8) : Cells :=
  let bytes := data.toArray
  ⟨fun a =>
    if address ≤ a ∧ a < address + bytes.size then
      cells.byte a &&& bytes.getD (a - address) erasedByte
    else cells.byte a⟩

def read (cells : Cells) (address length : Nat) : List UInt8 :=
  (List.range length).map fun i => cells.byte (address + i)

end Cells

structure FlashChip where
  cells : Cells := Cells.erased
  /-- The calls that have been made since the power came on, the first one first. -/
  journal : List FlashCall := []
  faults : List Fault := []

namespace FlashCall

def isErase : FlashCall → Bool
  | erase _ => true
  | program .. => false

def kind : FlashCall → CallKind
  | erase _ => .erase
  | program .. => .write

def inRange : FlashCall → Bool
  | erase address => address % sectorSize = 0 ∧ address + sectorSize ≤ flashSize
  | program address data => address + data.length ≤ flashSize

def apply (cells : Cells) : FlashCall → Cells
  | erase address => cells.erase address sectorSize
  | program address data => cells.program address data

/-- The call cut short after some of the bytes that it writes. An erasure is not cut short. -/
def torn (length : Nat) : FlashCall → FlashCall
  | erase address => erase address
  | program address data => program address (data.take length)

end FlashCall

namespace FlashChip

def read (address length : Nat) : StoreCall FlashChip (List UInt8) := fun chip =>
  if flashSize < address + length then (.error .io, chip)
  else match Fault.consult .read chip.faults with
    | (true, faults) => (.error .io, { chip with faults })
    | (false, faults) => (.ok (chip.cells.read address length), { chip with faults })

/-- Makes a call. A call out of range fails before any fault is consulted. -/
def perform (call : FlashCall) : StoreCall FlashChip Unit := fun chip =>
  if call.inRange then
    match Fault.consult call.kind chip.faults with
    | (true, faults) => (.error .io, { chip with faults })
    | (false, faults) =>
      (.ok (), { cells := call.apply chip.cells, journal := chip.journal ++ [call], faults })
  else (.error .io, chip)

def erases (chip : FlashChip) : Nat := chip.journal.countP FlashCall.isErase

def programs (chip : FlashChip) : Nat := chip.journal.countP fun call => !call.isErase

end FlashChip

end RelayTimer
