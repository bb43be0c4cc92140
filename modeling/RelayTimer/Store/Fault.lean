import RelayTimer.Store.Basic

set_option autoImplicit false

/-!
Devices that fail: which of the calls to come are refused, and a store in front of which such a
device stands.
-/
namespace RelayTimer

inductive CallKind
  | read
  | write
  | erase
  | flush
  deriving Repr, DecidableEq

/-- Lets the next `after` calls of a kind pass and refuses `count` calls then. -/
structure Fault where
  kind : CallKind
  after : Nat
  count : Nat
  deriving Repr, DecidableEq

namespace Fault

/-- Whether the next call of a kind is refused, and the faults that remain. Faults are asked in
order, and those behind one that refuses the call do not see it. -/
def consult (kind : CallKind) : List Fault → Bool × List Fault
  | [] => (false, [])
  | fault :: rest =>
    let pass (fault : Fault) :=
      let (refused, rest) := consult kind rest
      (refused, fault :: rest)
    if fault.kind ≠ kind then pass fault
    else if 0 < fault.after then pass { fault with after := fault.after - 1 }
    else if 0 < fault.count then (true, { fault with count := fault.count - 1 } :: rest)
    else pass fault

end Fault

/-- A store whose device fails as the faults say. A call that is refused does nothing. -/
structure FaultyStore (σ : Type) where
  store : σ
  faults : List Fault := []

namespace FaultyStore

def guarded {σ α : Type} (kind : CallKind) (call : StoreCall σ α) : StoreCall (FaultyStore σ) α :=
  fun f =>
    match Fault.consult kind f.faults with
    | (true, faults) => (.error .io, { f with faults })
    | (false, faults) =>
      let (result, store) := call f.store
      (result, { store, faults })

instance {σ : Type} [ByteStore σ] : ByteStore (FaultyStore σ) where
  capacity f := ByteStore.capacity f.store
  readAt offset length := guarded .read (ByteStore.readAt offset length)
  writePage page data := guarded .write (ByteStore.writePage page data)
  erasePage page := guarded .erase (ByteStore.erasePage page)
  flush := guarded .flush ByteStore.flush

end FaultyStore

end RelayTimer
