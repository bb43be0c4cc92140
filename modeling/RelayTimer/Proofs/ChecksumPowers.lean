import Mathlib.Data.List.Iterate
import Mathlib.Data.List.Nodup
import RelayTimer.Proofs.ChecksumLinear

set_option autoImplicit false

/-!
Which changes have no remainder. The powers below 512 leave different remainders, each with an odd
number of coefficients, so that no three of them or fewer cancel out; and a change of sixteen powers
in a row is only moved up.
-/
namespace RelayTimer.Checksum

/-- The remainder of a single power. -/
def power (n : Nat) : UInt16 := shifts n 1

/-- The remainder of some powers together. -/
def sum (powers : List Nat) : UInt16 := powers.foldr (fun n rest => power n ^^^ rest) 0

theorem sum_cons (n : Nat) (powers : List Nat) : sum (n :: powers) = power n ^^^ sum powers := rfl

section parity

/-- Whether an odd number of coefficients is set. -/
def isOdd (r : UInt16) : Bool := (List.range 16).foldr (fun i rest => coeff r i ^^ rest) false

theorem isOdd_xor (a b : UInt16) : isOdd (a ^^^ b) = (isOdd a ^^ isOdd b) := by
  unfold isOdd
  induction List.range 16 with
  | nil => rfl
  | cons i rest ih =>
      simp only [List.foldr_cons]
      rw [ih, coeff_xor, Bool.xor_assoc, Bool.xor_assoc, Bool.xor_left_comm (coeff b i)]

/-- All coefficients but the highest one are still there when they are moved up. -/
theorem isOdd_double (r : UInt16) : isOdd (r <<< 1) = (isOdd r ^^ coeff r 15) := by
  simp (disch := decide) only [isOdd, List.range, List.range.loop, List.foldr, coeff_double]
  cases coeff r 15 <;> simp

/-- The generator has an odd number of coefficients besides the power that falls out. -/
theorem isOdd_shift (r : UInt16) : isOdd (shift r) = isOdd r := by
  have odd : isOdd generator = true := by decide
  have even : isOdd 0 = false := by decide
  rw [shift_eq, isOdd_xor, isOdd_double]
  cases coeff r 15 <;> simp [odd, even]

theorem isOdd_shifts (n : Nat) (r : UInt16) : isOdd (shifts n r) = isOdd r := by
  induction n generalizing r with
  | zero => rfl
  | succ n ih => exact (ih (shift r)).trans (isOdd_shift r)

theorem isOdd_sum (powers : List Nat) : isOdd (sum powers) = decide (powers.length % 2 = 1) := by
  induction powers with
  | nil => rfl
  | cons n rest ih =>
      have one : isOdd (power n) = true := isOdd_shifts n 1
      rw [sum_cons, isOdd_xor, one, ih, List.length_cons]
      rcases Nat.mod_two_eq_zero_or_one rest.length with even | odd
      · have more : (rest.length + 1) % 2 = 1 := by omega
        simp [even, more]
      · have more : (rest.length + 1) % 2 = 0 := by omega
        simp [odd, more]

end parity

section powers

theorem shifts_eq_iterate (n : Nat) (r : UInt16) : shifts n r = shift^[n] r := by
  induction n generalizing r with
  | zero => rfl
  | succ n ih => exact ih (shift r)

/-- It takes more than the powers of a record to come back to the first one. -/
theorem power_ne_one {n : Nat} (positive : 0 < n) (small : n < 512) : power n ≠ 1 := by
  have round : (List.iterate shift (shift 1) 511).all (· != 1) = true := by decide +kernel
  intro one
  have reached : (1 : UInt16) ∈ List.iterate shift (shift 1) 511 := by
    rw [List.mem_iterate]
    refine ⟨n - 1, by omega, ?_⟩
    rw [← Function.iterate_succ_apply, ← shifts_eq_iterate, Nat.succ_eq_add_one,
      Nat.sub_add_cancel positive]
    exact one.symm
  simpa using List.all_eq_true.mp round 1 reached

theorem power_inj {m n : Nat} (smallFirst : m < 512) (smallSecond : n < 512)
    (same : power m = power n) : m = n := by
  have never {low high : Nat} (less : low < high) (small : high < 512) :
      power low ≠ power high := by
    intro equal
    have split : power high = shifts low (power (high - low)) := by
      unfold power
      rw [← shifts_add, Nat.sub_add_cancel less.le]
    rw [split] at equal
    exact power_ne_one (by omega) (by omega) (shifts_inj (b := power (high - low)) equal).symm
  rcases Nat.lt_trichotomy m n with less | equal | more
  · exact absurd same (never less smallSecond)
  · exact equal
  · exact absurd same.symm (never more smallFirst)

/-- Up to three different powers below 512 do not cancel out. -/
theorem sum_ne_zero {powers : List Nat} (different : powers.Nodup) (small : ∀ n ∈ powers, n < 512)
    (nonempty : powers ≠ []) (few : powers.length ≤ 3) : sum powers ≠ 0 := by
  intro nothing
  -- An odd number of powers leaves an odd number of coefficients, so there are two of them.
  have even : decide (powers.length % 2 = 1) = false := by
    rw [← isOdd_sum, nothing]
    rfl
  match powers with
  | [] => exact nonempty rfl
  | [_] => simp at even
  | [m, n] =>
      have same : power m = power n := by
        rw [← UInt16.xor_eq_zero_iff, ← nothing]
        exact congrArg (power m ^^^ ·) UInt16.xor_zero.symm
      have equal := power_inj (small m (by simp)) (small n (by simp)) same
      simp [equal] at different
  | [_, _, _] => simp at even
  | _ :: _ :: _ :: _ :: rest =>
      simp only [List.length_cons] at few
      omega

end powers

section sums

theorem sum_append (first second : List Nat) :
    sum (first ++ second) = sum first ^^^ sum second := by
  induction first with
  | nil => exact UInt16.zero_xor.symm
  | cons n rest ih =>
      rw [List.cons_append, sum_cons, sum_cons, ih, UInt16.xor_assoc]

theorem shifts_sum (m : Nat) (powers : List Nat) :
    shifts m (sum powers) = sum (powers.map (· + m)) := by
  induction powers with
  | nil => exact shifts_zero m
  | cons n rest ih =>
      have moved : shifts m (power n) = power (n + m) := (shifts_add n m 1).symm
      rw [sum_cons, shifts_xor, moved, ih, List.map_cons, sum_cons]

/-- The places of the bits that are set. -/
def setBits {width : Nat} (v : BitVec width) : List Nat := (List.range width).filter v.getLsbD

theorem nodup_setBits {width : Nat} (v : BitVec width) : (setBits v).Nodup :=
  List.nodup_range.filter _

theorem mem_setBits {width : Nat} (v : BitVec width) (i : Nat) :
    i ∈ setBits v ↔ i < width ∧ v.getLsbD i = true := by
  rw [setBits, List.mem_filter, List.mem_range]

/-- A power that does not fall out is a single coefficient. -/
theorem coeff_power {n : Nat} (inside : n < 16) (i : Nat) : coeff (power n) i = decide (n = i) := by
  have value : (power n).toNat = 1 * 2 ^ n := by
    apply toNat_shifts
    rw [UInt16.toNat_one, Nat.one_mul]
    exact Nat.pow_lt_pow_right (by decide) inside
  have bit : coeff (power n) i = (power n).toNat.testBit i := rfl
  rw [bit, value, Nat.one_mul, Nat.testBit_two_pow]

theorem coeff_sum {powers : List Nat} (different : powers.Nodup) (inside : ∀ n ∈ powers, n < 16)
    (i : Nat) : coeff (sum powers) i = decide (i ∈ powers) := by
  induction powers with
  | nil => simp [sum]
  | cons n rest ih =>
      obtain ⟨new, others⟩ := List.nodup_cons.mp different
      rw [sum_cons, coeff_xor, coeff_power (inside n (by simp)) i,
        ih others fun m member => inside m (List.mem_cons_of_mem _ member)]
      by_cases here : n = i
      · subst here
        simp [new]
      · simp [here, Ne.symm here]

/-- A word of at most sixteen bits is the sum of the powers that are set in it. -/
theorem sum_setBits {width : Nat} (fits : width ≤ 16) (v : BitVec width) :
    sum (setBits v) = ⟨v.setWidth 16⟩ := by
  apply ext_coeff
  intro i below
  have inside : ∀ n ∈ setBits v, n < 16 :=
    fun n member => Nat.lt_of_lt_of_le ((mem_setBits v n).mp member).1 fits
  rw [coeff_sum (nodup_setBits v) inside]
  simp only [coeff, mem_setBits, BitVec.getLsbD_setWidth, below, decide_true, Bool.true_and]
  by_cases short : i < width
  · simp [short]
  · simp [short, BitVec.getLsbD_of_ge v i (by omega)]

end sums

section bytes

/-- How many bits are set in some bytes. -/
def bitCount : List UInt8 → Nat
  | [] => 0
  | b :: rest => (setBits b.toBitVec).length + bitCount rest

theorem bitCount_append (first second : List UInt8) :
    bitCount (first ++ second) = bitCount first + bitCount second := by
  induction first with
  | nil => exact (Nat.zero_add _).symm
  | cons b rest ih => rw [List.cons_append, bitCount, bitCount, ih, Nat.add_assoc]

theorem eq_zero_of_setBits {b : UInt8} (clear : setBits b.toBitVec = []) : b = 0 := by
  have word : sum (setBits b.toBitVec) = b.toUInt16 := sum_setBits (by decide) b.toBitVec
  rw [clear] at word
  exact UInt8.toNat_inj.mp (congrArg UInt16.toNat word).symm

theorem eq_zero_of_bitCount {bytes : List UInt8} (clear : bitCount bytes = 0) :
    ∀ b ∈ bytes, b = 0 := by
  induction bytes with
  | nil => simp
  | cons b rest ih =>
      obtain ⟨here, later⟩ := Nat.add_eq_zero_iff.mp clear
      have first : b = 0 := eq_zero_of_setBits (List.length_eq_zero_iff.mp here)
      exact List.forall_mem_cons.mpr ⟨first, ih later⟩

/-- The places of the bits that are set in some bytes, counted from the last one. -/
def places : List UInt8 → List Nat
  | [] => []
  | b :: rest => (setBits b.toBitVec).map (· + 8 * rest.length) ++ places rest

theorem length_places (bytes : List UInt8) : (places bytes).length = bitCount bytes := by
  induction bytes with
  | nil => rfl
  | cons b rest ih =>
      rw [places, List.length_append, List.length_map, ih]
      rfl

theorem lt_of_mem_places {bytes : List UInt8} {n : Nat} (member : n ∈ places bytes) :
    n < 8 * bytes.length := by
  induction bytes with
  | nil => cases member
  | cons b rest ih =>
      rw [List.length_cons]
      rcases List.mem_append.mp member with first | later
      · obtain ⟨i, set, rfl⟩ := List.mem_map.mp first
        have := ((mem_setBits _ _).mp set).1
        omega
      · have := ih later
        omega

theorem nodup_places (bytes : List UInt8) : (places bytes).Nodup := by
  induction bytes with
  | nil => exact List.nodup_nil
  | cons b rest ih =>
      refine List.nodup_append.mpr ⟨?_, ih, ?_⟩
      · exact (nodup_setBits _).map fun i j same => by simpa using same
      · rintro n first m later rfl
        obtain ⟨i, -, rfl⟩ := List.mem_map.mp first
        have := lt_of_mem_places later
        omega

/-- The remainder of some bytes is that of the bits that are set in them. -/
theorem update_zero_eq_sum (bytes : List UInt8) :
    update 0 bytes = sum ((places bytes).map (· + 16)) := by
  induction bytes with
  | nil => rfl
  | cons b rest ih =>
      have byte : b.toUInt16 = sum (setBits b.toBitVec) :=
        (sum_setBits (by decide) b.toBitVec).symm
      rw [update_cons, update_eq, ih, next_eq, shifts_zero, UInt16.zero_xor, byte, shifts_sum,
        shifts_sum, places, List.map_append, sum_append, List.map_map, List.map_map]
      congr 2
      apply List.map_congr_left
      intro i _
      simp only [Function.comp_apply]
      omega

/-- A change of two bytes side by side has a remainder. -/
theorem update_burst_ne_zero (before after : Nat) {first second : UInt8}
    (nonzero : first ≠ 0 ∨ second ≠ 0) :
    update 0 (List.replicate before 0 ++ first :: second :: List.replicate after 0) ≠ 0 := by
  intro nothing
  rw [update_append, update_zeros, shifts_zero, update_cons, update_cons, update_zeros] at nothing
  have word := eq_zero_of_shifts nothing
  rw [next_eq, next_eq, shifts_zero, UInt16.zero_xor, ← shifts_add, shifts_add 8 16 first.toUInt16,
    ← shifts_xor, shifts_byte] at word
  have same : first.toUInt16 <<< 8 = second.toUInt16 :=
    UInt16.xor_eq_zero_iff.mp (eq_zero_of_shifts word)
  have values := congrArg UInt16.toNat same
  have low := first.toNat_lt
  have high := second.toNat_lt
  simp only [UInt16.toNat_shiftLeft, UInt8.toNat_toUInt16, Nat.shiftLeft_eq] at values
  have zero : first.toNat = 0 ∧ second.toNat = 0 := by
    simp at values
    omega
  rcases nonzero with changed | changed
  · exact changed (UInt8.toNat_inj.mp zero.1)
  · exact changed (UInt8.toNat_inj.mp zero.2)

end bytes

end RelayTimer.Checksum
