import RelayTimer.Store.Seal

set_option autoImplicit false

/-!
A seal tells the generation it was made with.
-/
namespace RelayTimer

namespace LittleEndian

/-- A byte of a word, put back in its place. -/
theorem testBit_byte (w place : UInt32) (low : place.toNat ≤ 24) (i : Nat) :
    ((w >>> place).toUInt8.toUInt32 <<< place).toNat.testBit i =
      (decide (place.toNat ≤ i ∧ i < place.toNat + 8) && w.toNat.testBit i) := by
  simp only [UInt32.toNat_shiftLeft, UInt8.toNat_toUInt32, UInt32.toNat_toUInt8,
    UInt32.toNat_shiftRight]
  rw [Nat.mod_eq_of_lt (by omega : place.toNat < 32), Nat.testBit_mod_two_pow,
    Nat.testBit_shiftLeft, Nat.testBit_mod_two_pow, Nat.testBit_shiftRight]
  rcases Nat.lt_or_ge i place.toNat with below | above
  · have outside : ¬ place.toNat ≤ i := by omega
    simp [outside]
  · rw [show place.toNat + (i - place.toNat) = i by omega]
    by_cases inside : i < place.toNat + 8
    · have word : i < 32 := by omega
      have byte : i - place.toNat < 8 := by omega
      simp [above, inside, word, byte]
    · have byte : ¬ i - place.toNat < 8 := by omega
      simp [inside, byte]

theorem word32_bytes32 (w : UInt32) :
    word32 w.toUInt8 (w >>> 8).toUInt8 (w >>> 16).toUInt8 (w >>> 24).toUInt8 = w := by
  apply UInt32.toNat_inj.mp
  apply Nat.eq_of_testBit_eq
  intro i
  have lowest := testBit_byte w 0 (by decide) i
  simp only [UInt32.shiftRight_zero, UInt32.shiftLeft_zero] at lowest
  simp only [word32, UInt32.toNat_or, Nat.testBit_or]
  rw [testBit_byte w 8 (by decide), testBit_byte w 16 (by decide), testBit_byte w 24 (by decide),
    lowest]
  by_cases inside : i < 32
  · cases w.toNat.testBit i with
    | false => simp
    | true =>
        simp
        omega
  · have clear : w.toNat.testBit i = false := by
      apply Nat.testBit_lt_two_pow
      have bound := w.toNat_lt
      have high := Nat.pow_le_pow_right (by decide : 0 < 2) (show 32 ≤ i by omega)
      omega
    simp [clear]

end LittleEndian

namespace Seal

theorem generation?_ofImage (image : List UInt8) (generation : UInt32) :
    generation? image (ofImage image generation) = some generation := by
  have bytes : ofImage image generation = [0x43, 0x59, generation.toUInt8,
      (generation >>> 8).toUInt8, (generation >>> 16).toUInt8, (generation >>> 24).toUInt8,
      (Checksum.update (Checksum.ofBytes image) (LittleEndian.bytes32 generation)).toUInt8,
      (Checksum.update (Checksum.ofBytes image)
        (LittleEndian.bytes32 generation) >>> 8).toUInt8] := rfl
  unfold generation?
  rw [bytes]
  simp only [LittleEndian.word32_bytes32, ← bytes, ↓reduceIte]

/-- Where nothing has been written there is no seal. -/
theorem generation?_erased (image : List UInt8) :
    generation? image (List.replicate size 0xFF) = none := by
  simp [generation?, size, List.replicate, ofImage, letters]

end Seal

end RelayTimer
