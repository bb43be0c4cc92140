import RelayTimer.Store.Record

set_option autoImplicit false

/-!
Stores: bytes that outlive a reset, read one by one and written in pages. A store may keep what is
written to itself until it is flushed.
-/
namespace RelayTimer

/-- Why a store refuses a call: the call reaches past the store or brings a page of the wrong size,
or the device failed. -/
inductive StoreError
  | outOfRange
  | io
  deriving Repr, DecidableEq

/-- A call on a store. What it did before it failed stays done. -/
abbrev StoreCall (σ α : Type) := ExceptT StoreError (StateM σ) α

def StoreCall.always {σ α : Type} (step : StateM σ α) : StoreCall σ α := fun s =>
  let (a, s) := step s
  (.ok a, s)

class ByteStore (σ : Type) where
  /-- How many bytes the store holds. -/
  capacity : σ → Nat
  readAt : Nat → Nat → StoreCall σ (List UInt8)
  writePage : Nat → List UInt8 → StoreCall σ Unit
  erasePage : Nat → StoreCall σ Unit
  /-- Makes all that was written durable; a store that is always up to date has nothing to do. -/
  flush : StoreCall σ Unit := pure ()

namespace ByteStore

def pageCount {σ : Type} [ByteStore σ] (store : σ) : Nat := capacity store / pageSize

end ByteStore

def erasedByte : UInt8 := 0xFF

namespace Image

def read? (image : List UInt8) (offset length : Nat) : Option (List UInt8) :=
  if offset + length ≤ image.length then some ((image.drop offset).take length) else none

def put (image : List UInt8) (offset : Nat) (data : List UInt8) : List UInt8 :=
  image.take offset ++ data ++ image.drop (offset + data.length)

/-- The image with a page replaced. The data must be a page and the page must be all inside. -/
def writePage? (image : List UInt8) (page : Nat) (data : List UInt8) : Option (List UInt8) :=
  if data.length = pageSize ∧ page * pageSize + pageSize ≤ image.length then
    some (put image (page * pageSize) data)
  else none

def erasePage? (image : List UInt8) (page : Nat) : Option (List UInt8) :=
  writePage? image page (List.replicate pageSize erasedByte)

def erased (size : Nat) : List UInt8 := List.replicate size erasedByte

theorem length_put (image : List UInt8) (offset : Nat) (data : List UInt8)
    (inside : offset + data.length ≤ image.length) :
    (put image offset data).length = image.length := by
  simp only [put, List.length_append, List.length_take, List.length_drop]
  omega

theorem length_of_writePage? {image after data : List UInt8} {page : Nat}
    (h : writePage? image page data = some after) : after.length = image.length := by
  unfold writePage? at h
  split at h
  · rename_i inside
    cases h
    exact length_put _ _ _ (by rw [inside.1]; exact inside.2)
  · cases h

end Image

end RelayTimer
