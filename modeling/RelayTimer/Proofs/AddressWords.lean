import RelayTimer.Proofs.FlashCommit

set_option autoImplicit false

/-!
Addresses as the words that a machine computes with. In a store they are words of 64 bits, and an
address that is no word is refused and not taken for a smaller one; on the chip they are words of 32
bits, and none goes round.
-/
namespace RelayTimer

namespace Address

/-- The sum of two words, if it is a word. -/
def add? (a b : UInt64) : Option UInt64 :=
  if a.toNat + b.toNat < UInt64.size then some (a + b) else none

/-- The product of two words, if it is a word. -/
def mul? (a b : UInt64) : Option UInt64 :=
  if a.toNat * b.toNat < UInt64.size then some (a * b) else none

/-- Where bytes begin and end, `length` of them from `offset` on, if a store has as many. -/
def bytes? (size : Nat) (offset length : UInt64) : Option (UInt64 × UInt64) := do
  let last ← add? offset length
  if last.toNat ≤ size then some (offset, last) else none

/-- Where a page begins and ends, if a store has it. -/
def page? (size : Nat) (page : UInt64) : Option (UInt64 × UInt64) := do
  let first ← mul? page (UInt64.ofNat pageSize)
  bytes? size first (UInt64.ofNat pageSize)

theorem add?_cases (a b : UInt64) :
    (∃ c, add? a b = some c ∧ c.toNat = a.toNat + b.toNat) ∨
      (add? a b = none ∧ UInt64.size ≤ a.toNat + b.toNat) := by
  unfold add?
  split
  · rename_i small
    exact .inl ⟨a + b, rfl, by rw [UInt64.toNat_add, Nat.mod_eq_of_lt small]⟩
  · rename_i large
    exact .inr ⟨rfl, Nat.le_of_not_lt large⟩

theorem mul?_cases (a b : UInt64) :
    (∃ c, mul? a b = some c ∧ c.toNat = a.toNat * b.toNat) ∨
      (mul? a b = none ∧ UInt64.size ≤ a.toNat * b.toNat) := by
  unfold mul?
  split
  · rename_i small
    exact .inl ⟨a * b, rfl, by rw [UInt64.toNat_mul, Nat.mod_eq_of_lt small]⟩
  · rename_i large
    exact .inr ⟨rfl, Nat.le_of_not_lt large⟩

variable {size : Nat}

/-- Bytes are had exactly where their true end is inside. -/
theorem bytes?_cases (roomy : size < UInt64.size) (offset length : UInt64) :
    (offset.toNat + length.toNat ≤ size ∧ ∃ last, bytes? size offset length = some (offset, last) ∧
        last.toNat = offset.toNat + length.toNat) ∨
      (size < offset.toNat + length.toNat ∧ bytes? size offset length = none) := by
  unfold bytes?
  rcases add?_cases offset length with ⟨last, sum, value⟩ | ⟨overflow, large⟩
  · rw [sum, Option.bind_eq_bind, Option.bind_some, value]
    by_cases inside : offset.toNat + length.toNat ≤ size
    · exact .inl ⟨inside, last, if_pos inside, value⟩
    · exact .inr ⟨Nat.lt_of_not_le inside, if_neg inside⟩
  · rw [overflow]
    exact .inr ⟨Nat.lt_of_lt_of_le roomy large, rfl⟩

/-- A page is had exactly where its true end is inside. -/
theorem page?_cases (roomy : size < UInt64.size) (page : UInt64) :
    (page.toNat * pageSize + pageSize ≤ size ∧ ∃ first last, page? size page = some (first, last) ∧
        first.toNat = page.toNat * pageSize ∧ last.toNat = page.toNat * pageSize + pageSize) ∨
      (size < page.toNat * pageSize + pageSize ∧ page? size page = none) := by
  have width : (UInt64.ofNat pageSize).toNat = pageSize := rfl
  unfold page?
  rcases mul?_cases page (UInt64.ofNat pageSize) with ⟨first, product, start⟩ | ⟨overflow, large⟩
  · have span := bytes?_cases roomy first (UInt64.ofNat pageSize)
    rw [width] at start
    rw [width, start] at span
    rw [product, Option.bind_eq_bind, Option.bind_some]
    rcases span with ⟨inside, last, found, value⟩ | ⟨outside, refused⟩
    · exact .inl ⟨inside, first, last, found, start, value⟩
    · exact .inr ⟨outside, refused⟩
  · rw [width] at large
    rw [overflow]
    exact .inr ⟨by omega, rfl⟩

end Address

namespace FlashStore

/-- Where a sector of the store begins, in words of 32 bits. -/
def sectorWord (offset : UInt32) (bank : Bank) : UInt32 :=
  offset + UInt32.ofNat (bank.index * sectorSize)

/-- The calls of a flush, their addresses computed in words of 32 bits. -/
def commitWords (offset : UInt32) (s : FlashStore) : List FlashCall :=
  let sector := sectorWord offset s.target
  [.erase sector.toNat, .program sector.toNat s.image,
    .program (sector + UInt32.ofNat s.image.length).toNat
      (Seal.ofImage s.image (s.generation + 1))]

variable {size : Nat} {offset : UInt32}

theorem toNat_sectorWord (onChip : offset.toNat + 2 * sectorSize ≤ flashSize) (bank : Bank) :
    (sectorWord offset bank).toNat = sectorAt offset.toNat bank := by
  have index : bank.index * sectorSize ≤ sectorSize := by
    cases bank <;> decide
  simp only [sectorSize, flashSize] at onChip index
  rw [sectorWord, UInt32.toNat_add, UInt32.toNat_ofNat', sectorAt]
  simp only [sectorSize]
  omega

/-- The addresses of a flush are the ones they are meant to be. -/
theorem commitWords_eq {s : FlashStore} (inside : fits size offset.toNat = true)
    (length : s.image.length = size) (place : s.offset = offset.toNat) :
    s.commitWords offset = s.commit := by
  obtain ⟨-, room, onChip⟩ := (fits_iff size offset.toNat).mp inside
  have sector := toNat_sectorWord onChip s.target
  have behind : (sectorWord offset s.target + UInt32.ofNat s.image.length).toNat =
      sectorAt offset.toNat s.target + s.image.length := by
    have last := sectorAt_le offset.toNat s.target
    rw [UInt32.toNat_add, UInt32.toNat_ofNat', sector, length]
    simp only [sectorSize, flashSize, Seal.size] at room onChip last
    omega
  simp only [commitWords, commit, behind, sector, place]

end FlashStore

end RelayTimer
