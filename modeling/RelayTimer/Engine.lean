import RelayTimer.Board
import RelayTimer.Catalog
import RelayTimer.ManualTimes

set_option autoImplicit false

/-!
The stored programs and the board they are played on.
-/
namespace RelayTimer

structure Engine (σ : Type) where
  catalog : Catalog σ
  board : Board

namespace Engine

variable {σ : Type}

def onBoard (e : Engine σ) (change : Board → Board) : Engine σ :=
  { e with board := change e.board }

def onCatalog {α : Type} (call : StateM (Catalog σ) α) : StateM (Engine σ) α := fun e =>
  let (result, catalog) := call.run e.catalog
  (result, { e with catalog })

def onStorage {α : Type} (call : StoreCall (Catalog σ) α) : StoreCall (Engine σ) α :=
  onCatalog call

variable [ByteStore σ]

def ofStore (store : σ) (relay : RelayOutput) : Engine σ :=
  { catalog := Catalog.ofStore store, board := { contact := { relay } } }

/-- Plays the program of a slot, or the fail-safe one where there is none. -/
def load (slot : Nat) : StateM (Engine σ) Unit := do
  let program ← onCatalog (Catalog.program? slot)
  modify (·.onBoard (·.play (program.getD Program.failSafe)))

/-- Selects the slot that was the last to play, and plays the one that is to play at the start. -/
def boot : StateM (Engine σ) Unit := do
  modify fun e => { e with catalog := e.catalog.select (some (e.catalog.lastUsed.getD manualSlot)) }
  match (← get).catalog.autostart with
  | some slot =>
    modify fun e => { e with catalog := e.catalog.select (some slot) }
    load slot
  | none => return

/-- The manual program as times, or the default ones where it has another form. -/
def manualTimes : StateM (Engine σ) ManualTimes := do
  let program ← onCatalog (Catalog.program? manualSlot)
  return (program.bind ManualTimes.ofProgram?).getD {}

def storeManual (times : ManualTimes) : StoreCall (Engine σ) Unit := do
  onStorage (Catalog.write manualSlot times.text)
  StoreCall.always (load manualSlot)

end Engine

end RelayTimer
