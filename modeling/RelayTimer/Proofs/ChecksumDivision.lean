import Mathlib
import RelayTimer.Proofs.ChecksumPowers

set_option autoImplicit false

/-!
The checksum is a division. The bits of a word, and those of some bytes one behind the other, are the
coefficients of a polynomial over two elements, the highest bit first; the checksum of bytes is what
is left of them when x¹⁶ + x¹² + x⁵ + 1 is taken away as often as it goes into them.
-/
namespace RelayTimer.Checksum

open Polynomial

/-- The polynomial over two elements that is the sum of some powers. -/
noncomputable def polynomial (powers : List Nat) : (ZMod 2)[X] := (powers.map (X ^ ·)).sum

/-- A word as a polynomial: each bit that is set is the power of its place. -/
noncomputable def wordPolynomial (r : UInt16) : (ZMod 2)[X] := polynomial (setBits r.toBitVec)

/-- Some bytes as a polynomial: the first byte has the highest powers, and so has the highest bit of
each. -/
noncomputable def bytesPolynomial (bytes : List UInt8) : (ZMod 2)[X] := polynomial (places bytes)

/-- What the checksum divides by. -/
noncomputable def modulus : (ZMod 2)[X] := X ^ 16 + X ^ 12 + X ^ 5 + 1

/-- A bit as one of the two elements. -/
def element (bit : Bool) : ZMod 2 := if bit then 1 else 0

theorem element_xor (a b : Bool) : element (a ^^ b) = element a + element b := by
  cases a <;> cases b <;> decide

section polynomials

theorem polynomial_cons (n : Nat) (powers : List Nat) :
    polynomial (n :: powers) = X ^ n + polynomial powers := by
  rw [polynomial, List.map_cons, List.sum_cons, polynomial]

theorem polynomial_map_add (m : Nat) (powers : List Nat) :
    polynomial (powers.map (· + m)) = polynomial powers * X ^ m := by
  induction powers with
  | nil => exact (zero_mul _).symm
  | cons n rest ih => rw [List.map_cons, polynomial_cons, polynomial_cons, ih, pow_add, add_mul]

/-- Powers that are all different do not cancel out. -/
theorem coeff_polynomial {powers : List Nat} (different : powers.Nodup) (i : Nat) :
    (polynomial powers).coeff i = if i ∈ powers then 1 else 0 := by
  induction powers with
  | nil => simp [polynomial]
  | cons n rest ih =>
      obtain ⟨new, others⟩ := List.nodup_cons.mp different
      rw [polynomial_cons, coeff_add, coeff_X_pow, ih others]
      by_cases here : i = n
      · subst here
        simp [new]
      · simp [here]

theorem coeff_eq_false {r : UInt16} {i : Nat} (outside : 16 ≤ i) : coeff r i = false :=
  BitVec.getLsbD_of_ge _ _ outside

theorem coeff_wordPolynomial (r : UInt16) (i : Nat) :
    (wordPolynomial r).coeff i = element (coeff r i) := by
  have set : i ∈ setBits r.toBitVec ↔ coeff r i = true := by
    rw [mem_setBits]
    refine ⟨And.right, fun one => ⟨?_, one⟩⟩
    by_contra outside
    rw [coeff_eq_false (by omega)] at one
    cases one
  rw [wordPolynomial, coeff_polynomial (nodup_setBits _), element]
  simp only [set]

theorem wordPolynomial_zero : wordPolynomial 0 = 0 := rfl

theorem wordPolynomial_one : wordPolynomial 1 = 1 := by
  have last : setBits (1 : UInt16).toBitVec = [0] := by decide
  rw [wordPolynomial, last, polynomial_cons, pow_zero]
  exact add_zero 1

theorem wordPolynomial_xor (a b : UInt16) :
    wordPolynomial (a ^^^ b) = wordPolynomial a + wordPolynomial b := by
  ext i
  rw [coeff_add, coeff_wordPolynomial, coeff_wordPolynomial, coeff_wordPolynomial, coeff_xor,
    element_xor]

theorem degree_wordPolynomial_lt (r : UInt16) : (wordPolynomial r).degree < (16 : Nat) := by
  rw [degree_lt_iff_coeff_zero]
  intro i outside
  rw [coeff_wordPolynomial, coeff_eq_false outside]
  rfl

end polynomials

section modulus

/-- The generator is the modulus without its highest power. -/
theorem modulus_eq : modulus = X ^ 16 + wordPolynomial generator := by
  have powers : setBits generator.toBitVec = [0, 5, 12] := by decide
  rw [modulus, wordPolynomial, powers]
  simp only [polynomial, List.map_cons, List.map_nil, List.sum_cons, List.sum_nil]
  ring

theorem monic_modulus : modulus.Monic := by
  rw [modulus_eq]
  exact monic_X_pow_add (degree_wordPolynomial_lt generator)

theorem degree_modulus : modulus.degree = (16 : Nat) := by
  have below : (wordPolynomial generator).degree < (X ^ 16 : (ZMod 2)[X]).degree := by
    rw [degree_X_pow]
    exact degree_wordPolynomial_lt generator
  rw [modulus_eq, degree_add_eq_left_of_degree_lt below, degree_X_pow]

/-- A word is what is left of each polynomial that is a multiple of the modulus more. -/
theorem wordPolynomial_eq_modByMonic {r : UInt16} {p q : (ZMod 2)[X]}
    (more : wordPolynomial r + modulus * q = p) : wordPolynomial r = p %ₘ modulus := by
  have smaller : (wordPolynomial r).degree < modulus.degree := by
    rw [degree_modulus]
    exact degree_wordPolynomial_lt r
  exact (div_modByMonic_unique q _ monic_modulus ⟨more, smaller⟩).2.symm

theorem wordPolynomial_modByMonic (r : UInt16) :
    wordPolynomial r %ₘ modulus = wordPolynomial r := by
  have same : wordPolynomial r + modulus * 0 = wordPolynomial r := by rw [mul_zero, add_zero]
  exact (wordPolynomial_eq_modByMonic same).symm

end modulus

section division

/-- What falls out when a word is doubled is the power behind its highest one. -/
theorem wordPolynomial_double (r : UInt16) :
    wordPolynomial (r <<< 1) + C (element (coeff r 15)) * X ^ 16 = wordPolynomial r * X := by
  ext i
  rw [coeff_add, coeff_C_mul, coeff_X_pow, coeff_wordPolynomial]
  cases i with
  | zero =>
      rw [coeff_mul_X_zero, coeff_double r (by decide)]
      simp [element]
  | succ i =>
      rw [coeff_mul_X, coeff_wordPolynomial]
      rcases Nat.lt_trichotomy i 15 with inside | rfl | outside
      · rw [coeff_double r (by omega)]
        simp [inside.ne]
      · rw [coeff_eq_false (Nat.le_refl 16)]
        simp [element]
      · rw [coeff_eq_false (r := r <<< 1) (by omega), coeff_eq_false (r := r) (i := i) (by omega)]
        simp [element, outside.ne']

/-- One step of the division: the modulus is taken away once if the highest power falls out. -/
theorem wordPolynomial_shift (r : UInt16) :
    wordPolynomial (shift r) = (wordPolynomial r * X) %ₘ modulus := by
  apply wordPolynomial_eq_modByMonic (q := C (element (coeff r 15)))
  rw [← wordPolynomial_double, shift_eq, wordPolynomial_xor, modulus_eq]
  cases coeff r 15 with
  | false => simp [element, wordPolynomial_zero]
  | true =>
      -- The generator is there twice, once in the word and once in the modulus.
      simp only [element, if_true, C_1, one_mul, mul_one]
      rw [add_add_add_comm, CharTwo.add_self_eq_zero, add_zero]

theorem wordPolynomial_shifts (n : Nat) (r : UInt16) :
    wordPolynomial (shifts n r) = (wordPolynomial r * X ^ n) %ₘ modulus := by
  induction n generalizing r with
  | zero => rw [shifts, pow_zero, mul_one, wordPolynomial_modByMonic]
  | succ n ih =>
      calc wordPolynomial (shifts n (shift r))
          = (wordPolynomial (shift r) * X ^ n) %ₘ modulus := ih (shift r)
        _ = (wordPolynomial r * X %ₘ modulus) * (X ^ n %ₘ modulus) %ₘ modulus := by
            rw [mul_modByMonic, wordPolynomial_modByMonic, wordPolynomial_shift]
        _ = (wordPolynomial r * X ^ (n + 1)) %ₘ modulus := by
            rw [← mul_modByMonic, mul_assoc, ← pow_succ']

/-- The remainder of some powers together is that of their polynomial. -/
theorem wordPolynomial_sum (powers : List Nat) :
    wordPolynomial (sum powers) = polynomial powers %ₘ modulus := by
  induction powers with
  | nil => exact (zero_modByMonic modulus).symm
  | cons n rest ih =>
      have first : wordPolynomial (power n) = X ^ n %ₘ modulus := by
        rw [power, wordPolynomial_shifts, wordPolynomial_one, one_mul]
      rw [sum_cons, wordPolynomial_xor, first, ih, polynomial_cons, add_modByMonic]

/-- Bytes go behind the remainder that they are given, and a word of zeros goes behind them. -/
theorem wordPolynomial_update (r : UInt16) (bytes : List UInt8) :
    wordPolynomial (update r bytes) =
      (wordPolynomial r * X ^ (8 * bytes.length) + bytesPolynomial bytes * X ^ 16) %ₘ modulus := by
  have alone : wordPolynomial (update 0 bytes) = (bytesPolynomial bytes * X ^ 16) %ₘ modulus := by
    rw [update_zero_eq_sum, wordPolynomial_sum, polynomial_map_add, bytesPolynomial]
  rw [update_eq, wordPolynomial_xor, wordPolynomial_shifts, alone, add_modByMonic]

/-- Bytes are divided highest bit first, whether in one go or one part after the other; what is left
of bytes that are added is the sum of what is left of each. -/
theorem update_divides (r s : UInt16) (first second : List UInt8) :
    wordPolynomial (update r first) =
        (wordPolynomial r * X ^ (8 * first.length) + bytesPolynomial first * X ^ 16) %ₘ modulus ∧
      update (update r first) second = update r (first ++ second) ∧
      (first.length = second.length →
        update (r ^^^ s) (List.zipWith (· ^^^ ·) first second) =
          update r first ^^^ update s second) :=
  ⟨wordPolynomial_update r first, (update_append r first second).symm, update_xor r s⟩

/-- The nine digits leave 0x29B1, and a change of three of their bits leaves its own remainder
besides. -/
theorem update_divides_digits :
    wordPolynomial 0x29B1 = (wordPolynomial 0xFFFF * X ^ 72 +
        bytesPolynomial [0x31, 0x32, 0x33, 0x34, 0x35, 0x36, 0x37, 0x38, 0x39] * X ^ 16) %ₘ modulus ∧
      update 0x29B1 [0, 0, 0, 0, 0, 0x81, 0, 0, 0x10] = update 0xFFFF
        [0x31, 0x32, 0x33, 0x34, 0x35, 0x36, 0x37, 0x38, 0x39, 0, 0, 0, 0, 0, 0x81, 0, 0, 0x10] ∧
      ([0x31, 0x32, 0x33, 0x34, 0x35, 0x36, 0x37, 0x38, 0x39] : List UInt8).length =
        ([0, 0, 0, 0, 0, 0x81, 0, 0, 0x10] : List UInt8).length ∧
      update 0xE2F0 [0x31, 0x32, 0x33, 0x34, 0x35, 0xB7, 0x37, 0x38, 0x29] =
        0x29B1 ^^^ update 0x1D0F [0, 0, 0, 0, 0, 0x81, 0, 0, 0x10] := by
  have digits : update 0xFFFF [0x31, 0x32, 0x33, 0x34, 0x35, 0x36, 0x37, 0x38, 0x39] = 0x29B1 := by
    decide +kernel
  obtain ⟨divided, composed, added⟩ := update_divides 0xFFFF 0x1D0F
    [0x31, 0x32, 0x33, 0x34, 0x35, 0x36, 0x37, 0x38, 0x39] [0, 0, 0, 0, 0, 0x81, 0, 0, 0x10]
  rw [digits] at divided composed added
  exact ⟨divided, composed, rfl, added rfl⟩

end division

end RelayTimer.Checksum
