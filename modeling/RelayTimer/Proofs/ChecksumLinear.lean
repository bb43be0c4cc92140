import Mathlib.Algebra.Group.Nat.Defs
import RelayTimer.Checksum

set_option autoImplicit false

/-!
The checksum is linear: what is changed in some bytes changes their checksum by the remainder of
the change alone. A remainder is the sum of the powers whose coefficients are set, and to move it up
by a power loses nothing.
-/
namespace RelayTimer.Checksum

/-- The coefficient of a power in a remainder. -/
def coeff (r : UInt16) (i : Nat) : Bool := r.toBitVec.getLsbD i

theorem ext_coeff {a b : UInt16} (same : ∀ i < 16, coeff a i = coeff b i) : a = b :=
  UInt16.toBitVec_inj.mp (BitVec.eq_of_getLsbD_eq same)

@[simp]
theorem coeff_zero (i : Nat) : coeff 0 i = false := BitVec.getLsbD_zero

@[simp]
theorem coeff_xor (a b : UInt16) (i : Nat) : coeff (a ^^^ b) i = (coeff a i ^^ coeff b i) := by
  simp only [coeff, UInt16.toBitVec_xor, BitVec.getLsbD_xor]

theorem coeff_double (r : UInt16) {i : Nat} (inside : i < 16) :
    coeff (r <<< 1) i = (decide (0 < i) && coeff r (i - 1)) := by
  have one : (1 : UInt16).toBitVec % 16 = 1#16 := rfl
  simp only [coeff, UInt16.toBitVec_shiftLeft, one, BitVec.shiftLeft_eq', BitVec.toNat_ofNat,
    BitVec.getLsbD_shiftLeft, inside]
  cases i <;> simp

/-- The highest power that is moved up falls out, and the generator comes in its place. -/
theorem shift_eq (r : UInt16) : shift r = (r <<< 1) ^^^ if coeff r 15 then generator else 0 := by
  have top : r &&& 0x8000 ≠ 0 ↔ coeff r 15 = true := by
    have word : (r &&& 0x8000).toBitVec = r.toBitVec &&& BitVec.twoPow 16 15 := rfl
    rw [ne_eq, ← UInt16.toBitVec_inj, word, BitVec.and_twoPow, coeff]
    cases r.toBitVec.getLsbD 15 <;> decide
  unfold shift
  simp only [top]
  cases coeff r 15 <;> simp

theorem coeff_shift (r : UInt16) {i : Nat} (inside : i < 16) :
    coeff (shift r) i =
      ((decide (0 < i) && coeff r (i - 1)) ^^ (coeff r 15 && coeff generator i)) := by
  rw [shift_eq, coeff_xor, coeff_double r inside]
  cases coeff r 15 <;> simp

theorem shift_xor (a b : UInt16) : shift (a ^^^ b) = shift a ^^^ shift b := by
  apply ext_coeff
  intro i inside
  simp only [coeff_shift _ inside, coeff_xor]
  cases coeff a 15 <;> cases coeff b 15 <;> cases coeff generator i <;>
    cases coeff a (i - 1) <;> cases coeff b (i - 1) <;> simp

/-- The generator has a last coefficient, so that only nothing is moved up to nothing. -/
theorem eq_zero_of_shift {r : UInt16} (nothing : shift r = 0) : r = 0 := by
  have moved (i : Nat) (inside : i < 16) :
      ((decide (0 < i) && coeff r (i - 1)) ^^ (coeff r 15 && coeff generator i)) = false := by
    rw [← coeff_shift r inside, nothing, coeff_zero]
  have top : coeff r 15 = false := by
    have last : coeff generator 0 = true := rfl
    simpa [last] using moved 0 (by decide)
  apply ext_coeff
  intro i inside
  rw [coeff_zero]
  by_cases highest : i = 15
  · rw [highest, top]
  · have next := moved (i + 1) (by omega)
    simpa [top] using next

section shifts

theorem shifts_add (m n : Nat) (r : UInt16) : shifts (m + n) r = shifts n (shifts m r) := by
  induction m generalizing r with
  | zero => rw [Nat.zero_add]; rfl
  | succ m ih =>
      rw [Nat.succ_add]
      exact ih (shift r)

theorem shifts_xor (n : Nat) (a b : UInt16) : shifts n (a ^^^ b) = shifts n a ^^^ shifts n b := by
  induction n generalizing a b with
  | zero => rfl
  | succ n ih =>
      simp only [shifts, shift_xor]
      exact ih _ _

@[simp]
theorem shifts_zero (n : Nat) : shifts n 0 = 0 := by
  induction n with
  | zero => rfl
  | succ n ih => exact ih

theorem eq_zero_of_shifts {n : Nat} {r : UInt16} (nothing : shifts n r = 0) : r = 0 := by
  induction n generalizing r with
  | zero => exact nothing
  | succ n ih => exact eq_zero_of_shift (ih nothing)

theorem shifts_inj {n : Nat} {a b : UInt16} (same : shifts n a = shifts n b) : a = b := by
  have nothing : shifts n (a ^^^ b) = 0 := by
    rw [shifts_xor, same, UInt16.xor_self]
  exact UInt16.xor_eq_zero_iff.mp (eq_zero_of_shifts nothing)

theorem toNat_shift {r : UInt16} (small : r.toNat * 2 < UInt16.size) :
    (shift r).toNat = r.toNat * 2 := by
  have below : r.toNat < 2 ^ 15 := by
    simp only [UInt16.size] at small
    omega
  have top : coeff r 15 = false := Nat.testBit_lt_two_pow below
  rw [shift_eq, top]
  simp only [Bool.false_eq_true, ↓reduceIte, UInt16.xor_zero, UInt16.toNat_shiftLeft]
  simp only [UInt16.size] at small
  simp [Nat.shiftLeft_eq, Nat.mod_eq_of_lt small]

/-- As long as nothing falls out, to move up is to double. -/
theorem toNat_shifts {n : Nat} {r : UInt16} (small : r.toNat * 2 ^ n < UInt16.size) :
    (shifts n r).toNat = r.toNat * 2 ^ n := by
  induction n generalizing r with
  | zero => simp [shifts]
  | succ n ih =>
      rw [Nat.pow_succ', ← Nat.mul_assoc] at small ⊢
      have once : (shift r).toNat = r.toNat * 2 :=
        toNat_shift (Nat.lt_of_le_of_lt (Nat.le_mul_of_pos_right _ (Nat.two_pow_pos n)) small)
      rw [← once] at small ⊢
      exact ih small

/-- A byte is moved up by eight powers as a whole. -/
theorem shifts_byte (b : UInt8) : shifts 8 b.toUInt16 = b.toUInt16 <<< 8 := by
  apply UInt16.toNat_inj.mp
  have bound := b.toNat_lt
  have small : b.toUInt16.toNat * 2 ^ 8 < UInt16.size := by
    simp only [UInt8.toNat_toUInt16, UInt16.size]
    omega
  rw [toNat_shifts small, UInt16.toNat_shiftLeft]
  simp only [UInt16.size] at small
  simp [Nat.shiftLeft_eq] at small ⊢
  omega

end shifts

section bytes

theorem update_cons (r : UInt16) (b : UInt8) (rest : List UInt8) :
    update r (b :: rest) = update (next r b) rest := rfl

/-- A byte counts as much as its own remainder, whatever is before it. -/
theorem next_eq (r : UInt16) (b : UInt8) : next r b = shifts 8 r ^^^ shifts 16 b.toUInt16 := by
  rw [next, shifts_xor, ← shifts_byte, ← shifts_add 8 8]

theorem update_eq (r : UInt16) (bytes : List UInt8) :
    update r bytes = shifts (8 * bytes.length) r ^^^ update 0 bytes := by
  induction bytes generalizing r with
  | nil => simp [update, shifts]
  | cons b rest ih =>
      rw [update_cons, update_cons, ih (next r b), ih (next 0 b), next_eq, next_eq, shifts_xor,
        shifts_zero, ← shifts_add, List.length_cons, Nat.mul_succ, Nat.add_comm 8]
      simp only [UInt16.zero_xor, UInt16.xor_assoc]

theorem update_zeros (r : UInt16) (n : Nat) :
    update r (List.replicate n 0) = shifts (8 * n) r := by
  induction n generalizing r with
  | zero => rfl
  | succ n ih =>
      have zero : (0 : UInt8).toUInt16 = 0 := rfl
      rw [List.replicate_succ, update_cons, ih, next_eq, zero, shifts_zero, UInt16.xor_zero,
        ← shifts_add, Nat.mul_succ, Nat.add_comm 8]

/-- Bytes that are added are checked as if they were checked one by one. -/
theorem update_xor (a b : UInt16) {first second : List UInt8}
    (same : first.length = second.length) :
    update (a ^^^ b) (List.zipWith (· ^^^ ·) first second) = update a first ^^^ update b second := by
  induction first generalizing a b second with
  | nil =>
      obtain rfl := List.length_eq_zero_iff.mp same.symm
      rfl
  | cons x rest ih =>
      cases second with
      | nil => cases same
      | cons y others =>
          have step : next (a ^^^ b) (x ^^^ y) = next a x ^^^ next b y := by
            simp only [next_eq, UInt8.toUInt16_xor, shifts_xor]
            ac_rfl
          rw [List.zipWith_cons_cons, update_cons, update_cons, update_cons, step]
          exact ih _ _ (Nat.succ.inj same)

/-- What is changed in some bytes changes their checksum by its own remainder. -/
theorem ofBytes_xor {bytes change : List UInt8} (same : bytes.length = change.length) :
    ofBytes (List.zipWith (· ^^^ ·) bytes change) = ofBytes bytes ^^^ update 0 change := by
  have start := update_xor 0xFFFF 0 same
  rwa [UInt16.xor_zero] at start

end bytes

end RelayTimer.Checksum
