import RelayTimer.Flash.Store
import RelayTimer.Proofs.Sealing

set_option autoImplicit false

/-!
Where the calls of a commit leave the cells as they were, and what they leave in a sector.
-/
namespace RelayTimer

namespace Cells

/-- The same bytes from an address on, `length` of them. -/
def Agree (cells other : Cells) (address length : Nat) : Prop :=
  ∀ a, address ≤ a → a < address + length → cells.byte a = other.byte a

@[simp]
theorem length_read (cells : Cells) (address length : Nat) :
    (cells.read address length).length = length := by
  simp [read]

theorem Agree.refl (cells : Cells) (address length : Nat) : Agree cells cells address length :=
  fun _ _ _ => rfl

theorem Agree.trans {first second third : Cells} {address length : Nat}
    (later : Agree third second address length) (earlier : Agree second first address length) :
    Agree third first address length := by
  intro a low high
  rw [later a low high, earlier a low high]

theorem Agree.read {cells other : Cells} {address length : Nat}
    (agree : Agree cells other address length) {start count : Nat} (low : address ≤ start)
    (high : start + count ≤ address + length) : cells.read start count = other.read start count := by
  unfold Cells.read
  apply List.map_congr_left
  intro i inside
  have below := List.mem_range.mp inside
  exact agree _ (by omega) (by omega)

theorem agree_erase (cells : Cells) {sector size address length : Nat}
    (apart : address + length ≤ sector ∨ sector + size ≤ address) :
    Agree (cells.erase sector size) cells address length := by
  intro a low high
  have outside : ¬ (sector ≤ a ∧ a < sector + size) := by omega
  simp only [erase, outside, ↓reduceIte]

theorem agree_program (cells : Cells) {start address length : Nat} {data : List UInt8}
    (apart : address + length ≤ start ∨ start + data.length ≤ address) :
    Agree (cells.program start data) cells address length := by
  intro a low high
  have outside : ¬ (start ≤ a ∧ a < start + data.toArray.size) := by
    simp only [List.size_toArray]
    omega
  simp only [program, outside, ↓reduceIte]

theorem read_erase (cells : Cells) {sector size start count : Nat} (low : sector ≤ start)
    (high : start + count ≤ sector + size) :
    (cells.erase sector size).read start count = List.replicate count erasedByte := by
  unfold Cells.read
  rw [List.eq_replicate_iff]
  refine ⟨by simp, ?_⟩
  intro b member
  obtain ⟨i, inside, rfl⟩ := List.mem_map.mp member
  have below := List.mem_range.mp inside
  have within : sector ≤ start + i ∧ start + i < sector + size := by omega
  simp only [erase, within, and_self, ↓reduceIte]

theorem erased_and (b : UInt8) : erasedByte &&& b = b := by
  apply UInt8.toBitVec_inj.mp
  simp only [erasedByte, UInt8.toBitVec_and]
  exact BitVec.allOnes_and

/-- Bytes that are written where nothing was are there. -/
theorem read_program (cells : Cells) (address : Nat) (data : List UInt8)
    (blank : cells.read address data.length = List.replicate data.length erasedByte) :
    (cells.program address data).read address data.length = data := by
  unfold Cells.read at blank ⊢
  apply List.ext_getElem
  · simp
  · intro i before inside
    have was : cells.byte (address + i) = erasedByte := by
      have here := (List.eq_replicate_iff.mp blank).2 (cells.byte (address + i))
      exact here (List.mem_map.mpr ⟨i, List.mem_range.mpr inside, rfl⟩)
    simp [program, inside, was, erased_and]

end Cells

namespace FlashCall

/-- The call changes nothing but one sector. -/
def Within (sector : Nat) : FlashCall → Prop
  | erase address => address = sector
  | program address data => sector ≤ address ∧ address + data.length ≤ sector + sectorSize

theorem Within.agree {sector : Nat} {call : FlashCall} (within : call.Within sector) (cells : Cells)
    {other : Nat} (apart : other + sectorSize ≤ sector ∨ sector + sectorSize ≤ other) :
    (call.apply cells).Agree cells other sectorSize := by
  cases call with
  | erase address =>
      have same : address = sector := within
      subst same
      exact cells.agree_erase apart
  | program address data =>
      obtain ⟨low, high⟩ := within
      apply cells.agree_program
      omega

theorem agree_foldl {sector other : Nat} (calls : List FlashCall)
    (within : ∀ call ∈ calls, call.Within sector) (cells : Cells)
    (apart : other + sectorSize ≤ sector ∨ sector + sectorSize ≤ other) :
    (calls.foldl apply cells).Agree cells other sectorSize := by
  induction calls generalizing cells with
  | nil => exact .refl cells other sectorSize
  | cons call rest ih =>
      have first := (within call (by simp)).agree cells apart
      exact (ih (fun later member => within later (by simp [member])) _).trans first

end FlashCall

end RelayTimer
