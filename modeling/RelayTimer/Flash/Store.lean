import RelayTimer.Flash.Chip
import RelayTimer.Store.Seal

set_option autoImplicit false

/-!
A store in two sectors of the flash chip. Reads and writes work on a copy in memory; a flush writes
the copy into the sector that is not in use and seals it, so that a reset on the way leaves the
sector in use as it was.
-/
namespace RelayTimer

structure FlashStore where
  chip : FlashChip
  /-- Where the two sectors begin. -/
  offset : Nat
  /-- The copy that is read and written. -/
  image : List UInt8
  /-- The sector in use, if either is. -/
  bank : Option Bank := none
  /-- The generation of the image in use. -/
  generation : UInt32 := 0
  /-- Whether the copy differs from the image in use. -/
  dirty : Bool := false

namespace FlashStore

def sectorAt (offset : Nat) (bank : Bank) : Nat := offset + bank.index * sectorSize

/-- Whether a store can lie at an offset: aligned, image and seal within a sector, and both
sectors on the chip. -/
def fits (size offset : Nat) : Bool :=
  offset % sectorSize = 0 ∧ size + Seal.size ≤ sectorSize ∧ offset + 2 * sectorSize ≤ flashSize

def readGeneration (size sector : Nat) : StoreCall FlashChip (Option UInt32) := do
  let image ← FlashChip.read sector size
  let footer ← FlashChip.read (sector + size) Seal.size
  return Seal.generation? image footer

/-- What a store of a size finds at an offset: the sector in use, its generation and its image. -/
def find (size offset : Nat) : StoreCall FlashChip (Option Bank × UInt32 × List UInt8) := do
  if fits size offset then
    let first ← readGeneration size (sectorAt offset .first)
    let second ← readGeneration size (sectorAt offset .second)
    match Bank.newest? first second with
    | none => return (none, 0, Image.erased size)
    | some bank =>
      let image ← FlashChip.read (sectorAt offset bank) size
      let generation := match bank with
        | .first => first
        | .second => second
      return (some bank, generation.getD 0, image)
  else throw .outOfRange

/-- Opens the store of a size at an offset. Where neither sector is sealed it begins erased. -/
def load (size offset : Nat) (chip : FlashChip) : Except StoreError FlashStore × FlashChip :=
  match find size offset chip with
  | (.ok (bank, generation, image), chip) =>
    (.ok { chip, offset, image, bank, generation }, chip)
  | (.error e, chip) => (.error e, chip)

def target (s : FlashStore) : Bank :=
  match s.bank with
  | some bank => bank.other
  | none => .first

/-- The calls of a flush, in order: the seal comes last. -/
def commit (s : FlashStore) : List FlashCall :=
  let sector := sectorAt s.offset s.target
  [.erase sector, .program sector s.image,
    .program (sector + s.image.length) (Seal.ofImage s.image (s.generation + 1))]

def performAll : List FlashCall → StoreCall FlashChip Unit
  | [] => pure ()
  | call :: rest => do
    FlashChip.perform call
    performAll rest

def pageStart (page : Nat) : StoreCall FlashStore Nat := do
  let start := page * pageSize
  if (← get).image.length < start + pageSize then throw .outOfRange
  return start

def pageAt (s : FlashStore) (start : Nat) : List UInt8 := (s.image.drop start).take pageSize

def change (s : FlashStore) (start : Nat) (data : List UInt8) : FlashStore :=
  { s with image := Image.put s.image start data, dirty := true }

/-- Writes a page of the copy. One that is the same already does not make it differ. -/
def writePage (page : Nat) (data : List UInt8) : StoreCall FlashStore Unit := do
  if data.length ≠ pageSize then throw .outOfRange
  let start ← pageStart page
  if (← get).pageAt start ≠ data then modify (·.change start data)

def erasePage (page : Nat) : StoreCall FlashStore Unit := do
  let start ← pageStart page
  if ((← get).pageAt start).any (· != erasedByte) then
    modify (·.change start (List.replicate pageSize erasedByte))

instance : ByteStore FlashStore where
  capacity s := s.image.length
  readAt offset length := fun s =>
    match Image.read? s.image offset length with
    | some bytes => (.ok bytes, s)
    | none => (.error .outOfRange, s)
  writePage := writePage
  erasePage := erasePage
  flush := fun s =>
    if s.dirty then
      match performAll s.commit s.chip with
      | (.ok (), chip) =>
        (.ok (), { s with
          chip, bank := some s.target, generation := s.generation + 1, dirty := false })
      | (.error e, chip) => (.error e, { s with chip })
    else (.ok (), s)

end FlashStore

end RelayTimer
