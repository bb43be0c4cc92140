import RelayTimer.Store.Basic

set_option autoImplicit false

/-!
A store in memory, which counts what is done to it.
-/
namespace RelayTimer

structure RamStore where
  image : List UInt8
  /-- How many pages have been written or erased. -/
  pageWrites : Nat := 0
  flushes : Nat := 0

namespace RamStore

def keep (s : RamStore) : Option (List UInt8) → Except StoreError Unit × RamStore
  | some image => (.ok (), { s with image, pageWrites := s.pageWrites + 1 })
  | none => (.error .outOfRange, s)

instance : ByteStore RamStore where
  capacity s := s.image.length
  readAt offset length := fun s =>
    match Image.read? s.image offset length with
    | some bytes => (.ok bytes, s)
    | none => (.error .outOfRange, s)
  writePage page data := fun s => s.keep (Image.writePage? s.image page data)
  erasePage page := fun s => s.keep (Image.erasePage? s.image page)
  flush := fun s => (.ok (), { s with flushes := s.flushes + 1 })

end RamStore

/-- A store behind which nobody flushes: what is written is taken to be durable at once. -/
structure WriteThrough (σ : Type) where
  store : σ

namespace WriteThrough

def pass {σ α : Type} (call : StoreCall σ α) : StoreCall (WriteThrough σ) α :=
  fun w =>
    let (result, store) := call w.store
    (result, ⟨store⟩)

instance {σ : Type} [ByteStore σ] : ByteStore (WriteThrough σ) where
  capacity w := ByteStore.capacity w.store
  readAt offset length := pass (ByteStore.readAt offset length)
  writePage page data := pass (ByteStore.writePage page data)
  erasePage page := pass (ByteStore.erasePage page)

end WriteThrough

end RelayTimer
