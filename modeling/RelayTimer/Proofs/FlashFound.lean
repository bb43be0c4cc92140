import RelayTimer.Proofs.FlashCells

set_option autoImplicit false

/-!
What a store finds on the chip when it is opened, and how the calls of a commit change that: all of
it at once, with the last byte of the seal.
-/
namespace RelayTimer

namespace Cells

/-- The generation that a sector of the store is sealed with, if it is. -/
def generation? (cells : Cells) (size offset : Nat) (bank : Bank) : Option UInt32 :=
  let sector := FlashStore.sectorAt offset bank
  Seal.generation? (cells.read sector size) (cells.read (sector + size) Seal.size)

/-- The sector in use, its generation and its image, given the generations of both sectors. -/
def chosen (size offset : Nat) (first second : Option UInt32) (cells : Cells) :
    Option Bank × UInt32 × List UInt8 :=
  match Bank.newest? first second with
  | none => (none, 0, Image.erased size)
  | some bank =>
    let generation := match bank with
      | .first => first
      | .second => second
    (some bank, generation.getD 0, cells.read (FlashStore.sectorAt offset bank) size)

/-- What a store of a size finds at an offset: the sector in use, its generation and its image. -/
def found (cells : Cells) (size offset : Nat) : Option Bank × UInt32 × List UInt8 :=
  cells.chosen size offset (cells.generation? size offset .first)
    (cells.generation? size offset .second)

end Cells

namespace Bank

/-- The sector that the next flush writes when a sector is in use. -/
def next : Option Bank → Bank
  | some bank => bank.other
  | none => .first

variable {generation : Bank → Option UInt32}

theorem sealed_of_newest {bank : Bank}
    (newest : newest? (generation .first) (generation .second) = some bank) :
    ∃ n, generation bank = some n := by
  cases first : generation .first with
  | none =>
      cases second : generation .second with
      | none => simp [first, second, newest?] at newest
      | some b =>
          simp only [first, second, newest?, Option.some.injEq] at newest
          exact ⟨b, by rw [← newest, second]⟩
  | some a =>
      cases bank with
      | first => exact ⟨a, first⟩
      | second =>
          cases second : generation .second with
          | none => simp [first, second, newest?] at newest
          | some b => exact ⟨b, rfl⟩

theorem unsealed_of_no_newest (blank : newest? (generation .first) (generation .second) = none)
    (bank : Bank) : generation bank = none := by
  cases first : generation .first <;> cases second : generation .second <;>
    simp only [first, second, newest?, reduceCtorEq] at blank
  cases bank
  · exact first
  · exact second

theorem newest_of_unsealed {bank : Bank} {n : UInt32} (sealed : generation bank = some n)
    (unsealed : generation bank.other = none) :
    newest? (generation .first) (generation .second) = some bank := by
  cases bank with
  | first =>
      have second : generation .second = .none := unsealed
      simp only [sealed, second, newest?]
  | second =>
      have first : generation .first = .none := unsealed
      simp only [sealed, first, newest?]

/-- The next generation is newer, also where the generations begin again. -/
theorem newest_of_succ {bank : Bank} {n : UInt32} (sealed : generation bank = some n)
    (next : generation bank.other = some (n + 1)) :
    newest? (generation .first) (generation .second) = some bank.other := by
  cases bank with
  | first =>
      have second : generation .second = some (n + 1) := next
      have ahead : n + 1 - n = 1 := by
        rw [UInt32.add_comm, UInt32.add_sub_cancel]
      simp only [sealed, second, newest?, ahead]
      rfl
  | second =>
      have first : generation .first = some (n + 1) := next
      have behind : n - (n + 1) = 0xFFFFFFFF := by
        apply UInt32.toNat_inj.mp
        have bound := n.toNat_lt
        rw [UInt32.toNat_sub, UInt32.toNat_add]
        simp
        omega
      simp only [sealed, first, newest?, behind]
      rfl

@[simp]
theorem other_other (bank : Bank) : bank.other.other = bank := by
  cases bank <;> rfl

end Bank

section found

variable {size offset : Nat} {before after : Cells}

theorem generation?_of_agree {bank : Bank} (fits : size + Seal.size ≤ sectorSize)
    (agree : after.Agree before (FlashStore.sectorAt offset bank) sectorSize) :
    after.generation? size offset bank = before.generation? size offset bank := by
  simp only [Cells.generation?]
  rw [agree.read (by omega) (by omega), agree.read (by omega) (by omega)]

/-- Either no sector is sealed and nothing is found, or a sealed one is found. -/
theorem found_cases (cells : Cells) (size offset : Nat) :
    ((∀ bank, cells.generation? size offset bank = none) ∧
      cells.found size offset = (none, 0, Image.erased size)) ∨
    ∃ bank n, cells.generation? size offset bank = some n ∧
      cells.found size offset =
        (some bank, n, cells.read (FlashStore.sectorAt offset bank) size) := by
  cases newest : Bank.newest? (cells.generation? size offset .first)
    (cells.generation? size offset .second) with
  | none =>
      refine .inl ⟨Bank.unsealed_of_no_newest newest, ?_⟩
      simp only [Cells.found, Cells.chosen, newest]
  | some bank =>
      obtain ⟨n, sealed⟩ := Bank.sealed_of_newest newest
      refine .inr ⟨bank, n, sealed, ?_⟩
      simp only [Cells.found, Cells.chosen, newest]
      cases bank <;> simp only [sealed, Option.getD_some]

theorem found_of_newest {cells : Cells} {bank : Bank} {n : UInt32}
    (newest : Bank.newest? (cells.generation? size offset .first)
      (cells.generation? size offset .second) = some bank)
    (sealed : cells.generation? size offset bank = some n) :
    cells.found size offset =
      (some bank, n, cells.read (FlashStore.sectorAt offset bank) size) := by
  simp only [Cells.found, Cells.chosen, newest]
  cases bank <;> simp only [sealed, Option.getD_some]

/-- What a commit may change, as long as it is not complete: the sector that it writes. -/
def Aside (size offset : Nat) (before after : Cells) : Prop :=
  after.Agree before
    (FlashStore.sectorAt offset (Bank.next (before.found size offset).1).other) sectorSize

/-- As long as the sector that is written is not sealed, what is found stays the same. -/
theorem found_of_unsealed (fits : size + Seal.size ≤ sectorSize)
    (aside : Aside size offset before after)
    (unsealed : after.generation? size offset (Bank.next (before.found size offset).1) = none) :
    after.found size offset = before.found size offset := by
  unfold Aside at aside
  rcases found_cases before size offset with ⟨blank, found⟩ | ⟨bank, n, sealed, found⟩
  · rw [found] at aside unsealed ⊢
    have second := generation?_of_agree fits aside
    have clear : ∀ bank, after.generation? size offset bank = .none := by
      intro bank
      cases bank with
      | first => exact unsealed
      | second => exact second.trans (blank .second)
    simp only [Cells.found, Cells.chosen, clear, Bank.newest?]
  · rw [found] at aside unsealed ⊢
    simp only [Bank.next, Bank.other_other] at aside unsealed
    have same := (generation?_of_agree fits aside).trans sealed
    rw [found_of_newest (Bank.newest_of_unsealed same unsealed) same,
      aside.read (by omega) (by omega)]

/-- Once the sector that is written is sealed with the next generation, it is what is found. -/
theorem found_of_sealed (fits : size + Seal.size ≤ sectorSize)
    (aside : Aside size offset before after)
    (sealed : after.generation? size offset (Bank.next (before.found size offset).1) =
        some ((before.found size offset).2.1 + 1)) :
    let bank := Bank.next (before.found size offset).1
    after.found size offset = (some bank, (before.found size offset).2.1 + 1,
      after.read (FlashStore.sectorAt offset bank) size) := by
  intro bank
  refine found_of_newest ?_ sealed
  unfold Aside at aside
  rcases found_cases before size offset with ⟨blank, found⟩ | ⟨old, n, was, found⟩
  · rw [found] at aside sealed
    simp only [bank, found]
    exact Bank.newest_of_unsealed sealed ((generation?_of_agree fits aside).trans (blank .second))
  · rw [found] at aside sealed
    simp only [bank, found]
    simp only [Bank.next, Bank.other_other] at aside sealed ⊢
    exact Bank.newest_of_succ ((generation?_of_agree fits aside).trans was) sealed

/-- Whatever the sector that is written is sealed with, its image is found or the one before. -/
theorem found_image (fits : size + Seal.size ≤ sectorSize)
    (aside : Aside size offset before after) :
    (after.found size offset).2.2 = (before.found size offset).2.2 ∨
      (after.found size offset).2.2 =
        after.read (FlashStore.sectorAt offset (Bank.next (before.found size offset).1)) size := by
  have unsealed := found_of_unsealed fits aside
  unfold Aside at aside
  rcases found_cases after size offset with ⟨blank, -⟩ | ⟨bank, n, sealed, now⟩
  · exact .inl (by rw [unsealed (blank _)])
  · rw [now]
    by_cases written : bank = Bank.next (before.found size offset).1
    · exact .inr (by rw [written])
    · have kept : bank = (Bank.next (before.found size offset).1).other := by
        revert written
        cases bank <;> cases Bank.next (before.found size offset).1 <;> simp [Bank.other]
      rw [← kept] at aside
      refine .inl ?_
      rw [generation?_of_agree fits aside] at sealed
      rcases found_cases before size offset with ⟨blank, -⟩ | ⟨old, m, -, found⟩
      · rw [blank bank] at sealed
        cases sealed
      · rw [found] at kept ⊢
        simp only [Bank.next, Bank.other_other] at kept
        rw [kept] at aside ⊢
        exact aside.read (by omega) (by omega)

end found

end RelayTimer
