import RelayTimer.Store.Record

set_option autoImplicit false

/-!
Sets of slots.
-/
namespace RelayTimer

/-- A set of slots, in ascending order. -/
structure Occupancy where
  slots : List Nat := []
  deriving Repr, DecidableEq

namespace Occupancy

def ofPred (p : Nat → Bool) : Occupancy := ⟨(List.range slotCount).filter p⟩

def contains (o : Occupancy) (slot : Nat) : Bool := o.slots.contains slot

/-- The set with a slot added; what is no slot is not added. -/
def insert (o : Occupancy) (slot : Nat) : Occupancy := ofPred fun s => s == slot || o.contains s

def remove (o : Occupancy) (slot : Nat) : Occupancy := ofPred fun s => s != slot && o.contains s

theorem contains_ofPred (p : Nat → Bool) (slot : Nat) :
    (ofPred p).contains slot = (decide (slot < slotCount) && p slot) := by
  rw [Bool.eq_iff_iff]
  simp [ofPred, contains]

theorem contains_insert (o : Occupancy) (slot other : Nat) :
    (o.insert slot).contains other =
      (decide (other < slotCount) && (other == slot || o.contains other)) :=
  contains_ofPred _ _

theorem contains_remove (o : Occupancy) (slot other : Nat) :
    (o.remove slot).contains other =
      (decide (other < slotCount) && (other != slot && o.contains other)) :=
  contains_ofPred _ _

end Occupancy

end RelayTimer
