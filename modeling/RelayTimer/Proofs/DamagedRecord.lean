import RelayTimer.Proofs.ChecksumPowers
import RelayTimer.Proofs.RecordCodec

set_option autoImplicit false

/-!
Records that have been damaged in storage. Damage that is confined to a byte, to two bytes side by
side or to the checksum, and damage to at most three bits wherever they are, is found out: what is
left is no record.
-/
namespace RelayTimer

/-- Bytes some bits of which have been turned over. -/
def damaged (bytes mask : List UInt8) : List UInt8 := List.zipWith (· ^^^ ·) bytes mask

/-- Nothing outside of some places is turned over. -/
def Confined (mask : List UInt8) (inside : Nat → Prop) : Prop :=
  ∀ i b, mask[i]? = some b → b ≠ 0 → inside i

namespace Confined

variable {mask : List UInt8} {inside wider : Nat → Prop}

theorem mono (confined : Confined mask inside) (within : ∀ i, inside i → wider i) :
    Confined mask wider :=
  fun i b here changed => within i (confined i b here changed)

theorem take (confined : Confined mask inside) (n : Nat) : Confined (mask.take n) inside := by
  intro i b here changed
  rw [List.getElem?_take] at here
  split at here
  · exact confined i b here changed
  · cases here

/-- What is turned over is turned over inside. -/
theorem exists_place (confined : Confined mask inside) (damaged : ∃ b ∈ mask, b ≠ 0) :
    ∃ i < mask.length, inside i := by
  obtain ⟨b, member, changed⟩ := damaged
  obtain ⟨i, below, rfl⟩ := List.getElem_of_mem member
  exact ⟨i, below, confined i _ (List.getElem?_eq_getElem below) changed⟩

end Confined

/-- Damage to a record that is confined to a few places, or to a few bits. -/
inductive Slight (mask : List UInt8) : Prop
  | byte (place : Nat) (confined : Confined mask fun i => i = place)
  | neighbours (place : Nat) (ahead : place + 1 ≤ 61)
      (confined : Confined mask fun i => i = place ∨ i = place + 1)
  | checksum (confined : Confined mask fun i => i = 62 ∨ i = 63)
  | bits (few : Checksum.bitCount mask ≤ 3)

namespace LittleEndian

theorem bytes16_xor (a b : UInt16) :
    bytes16 (a ^^^ b) = damaged (bytes16 a) (bytes16 b) := by
  simp only [bytes16, damaged, List.zipWith_cons_cons, List.zipWith_nil_left, UInt16.toUInt8_xor,
    UInt16.shiftRight_xor]

/-- A bit of a word is in one of its two bytes. -/
theorem getLsbD_bytes16 (w : UInt16) {i : Nat} (inside : i < 8) :
    w.toUInt8.toBitVec.getLsbD i = w.toBitVec.getLsbD i ∧
      (w >>> 8).toUInt8.toBitVec.getLsbD i = w.toBitVec.getLsbD (8 + i) := by
  constructor
  · simp [inside]
  · simp [inside, UInt16.toBitVec_shiftRight]

/-- The bytes of a word have as many bits set as the word. -/
theorem bitCount_bytes16 (w : UInt16) :
    Checksum.bitCount (bytes16 w) = (Checksum.setBits w.toBitVec).length := by
  have split : List.range 16 = List.range 8 ++ (List.range 8).map (8 + ·) := by decide
  have low : (Checksum.setBits w.toUInt8.toBitVec).length =
      ((List.range 8).filter w.toBitVec.getLsbD).length := by
    congr 1
    apply List.filter_congr
    intro i member
    exact (getLsbD_bytes16 w (List.mem_range.mp member)).1
  have high : (Checksum.setBits (w >>> 8).toUInt8.toBitVec).length =
      (((List.range 8).map (8 + ·)).filter w.toBitVec.getLsbD).length := by
    rw [List.filter_map, List.length_map]
    congr 1
    apply List.filter_congr
    intro i member
    exact (getLsbD_bytes16 w (List.mem_range.mp member)).2
  have word : Checksum.setBits w.toBitVec = (List.range 16).filter w.toBitVec.getLsbD := rfl
  rw [word, split, List.filter_append, List.length_append, ← low, ← high]
  rfl

theorem eq_zero_of_bytes16 {w : UInt16} (nothing : ∀ b ∈ bytes16 w, b = 0) : w = 0 := by
  have low := nothing w.toUInt8 (by simp [bytes16])
  have high := nothing (w >>> 8).toUInt8 (by simp [bytes16])
  apply Checksum.ext_coeff
  intro i below
  rw [Checksum.coeff_zero]
  rcases Nat.lt_or_ge i 8 with inLow | inHigh
  · rw [Checksum.coeff, ← (getLsbD_bytes16 w inLow).1, low]
    exact BitVec.getLsbD_zero
  · have place : i = 8 + (i - 8) := by omega
    rw [Checksum.coeff, place, ← (getLsbD_bytes16 w (by omega)).2, high]
    exact BitVec.getLsbD_zero

end LittleEndian

namespace Record

theorem length_body (r : Record) : r.body.length = 62 := by
  simp only [body, List.length_cons, r.length_field, textRoom]

/-- Damage goes unnoticed only if it ends with its own remainder, as a record does. -/
theorem remainder_of_unnoticed {r found : Record} {mask : List UInt8}
    (whole : mask.length = recordSize) (decoded : decode? (damaged r.encode mask) = some found) :
    mask.drop 62 = LittleEndian.bytes16 (Checksum.update 0 (mask.take 62)) := by
  simp only [recordSize] at whole
  obtain ⟨auto, last, sealed, -⟩ := (decode?_eq_some_iff _ found).mp decoded
  have front : r.body.length = (mask.take 62).length := by
    rw [length_body, List.length_take]
    omega
  rw [encode_eq, sealBody, sealBody, ← List.take_append_drop 62 mask, damaged,
    List.zipWith_append front] at sealed
  obtain ⟨sameBody, sameSum⟩ := List.append_inj sealed (by
    simp only [List.length_zipWith, length_body, List.length_take, List.length_cons,
      found.length_field, textRoom]
    omega)
  rw [← sameBody, Checksum.ofBytes_xor front, LittleEndian.bytes16_xor] at sameSum
  obtain ⟨low, high, tail⟩ := List.length_eq_two.mp (by
    rw [List.length_drop]
    omega : (mask.drop 62).length = 2)
  rw [tail] at sameSum ⊢
  simp only [damaged, LittleEndian.bytes16, List.zipWith_cons_cons, List.zipWith_nil_left,
    List.cons.injEq, UInt8.xor_right_inj] at sameSum ⊢
  exact sameSum

section shapes

variable {front : List UInt8}

/-- Two damaged bytes side by side, and none anywhere else, leave a remainder. -/
theorem update_ne_zero_of_neighbours {place : Nat} (ahead : place + 1 < front.length)
    (confined : Confined front fun i => i = place ∨ i = place + 1) (damaged : ∃ b ∈ front, b ≠ 0) :
    Checksum.update 0 front ≠ 0 := by
  have untouched {i : Nat} (inside : i < front.length) (apart : i < place ∨ place + 1 < i) :
      front[i]? = .some 0 := by
    rw [List.getElem?_eq_getElem inside, Option.some.injEq]
    by_contra changed
    have := confined i front[i] (List.getElem?_eq_getElem inside) changed
    omega
  have split : front = List.replicate place 0 ++ front[place] :: front[place + 1] ::
      List.replicate (front.length - (place + 2)) 0 := by
    apply List.ext_getElem?
    intro i
    rcases Nat.lt_or_ge i place with before | onward
    · rw [List.getElem?_append_left (by simpa using before), List.getElem?_replicate_of_lt before]
      exact untouched (by omega) (.inl before)
    · obtain ⟨n, rfl⟩ := Nat.exists_eq_add_of_le onward
      rw [List.getElem?_append_right (by simp), List.length_replicate, Nat.add_sub_cancel_left]
      match n with
      | 0 => simp
      | 1 => simp
      | n + 2 =>
          simp only [List.getElem?_cons_succ, List.getElem?_replicate]
          split
          · exact untouched (by omega) (by omega)
          · exact List.getElem?_eq_none (by omega)
  rw [split]
  apply Checksum.update_burst_ne_zero
  obtain ⟨b, member, changed⟩ := damaged
  obtain ⟨i, inside, rfl⟩ := List.getElem_of_mem member
  rcases confined i front[i] (List.getElem?_eq_getElem inside) changed with rfl | rfl
  · exact .inl changed
  · exact .inr changed

/-- Three damaged bits, or fewer, are not among those that end with their own remainder. -/
theorem bitCount_of_remainder (length : front.length = 62) (damaged : ∃ b ∈ front, b ≠ 0) :
    3 < Checksum.bitCount (front ++ LittleEndian.bytes16 (Checksum.update 0 front)) := by
  let word := Checksum.update 0 front
  -- The bits of the remainder and those of the text are powers that cancel out.
  let powers := Checksum.setBits word.toBitVec ++ (Checksum.places front).map (· + 16)
  have count : powers.length = Checksum.bitCount (front ++ LittleEndian.bytes16 word) := by
    rw [Checksum.bitCount_append, LittleEndian.bitCount_bytes16, ← Checksum.length_places,
      List.length_append, List.length_map, Nat.add_comm]
  have cancels : Checksum.sum powers = 0 := by
    rw [Checksum.sum_append, ← Checksum.update_zero_eq_sum, Checksum.sum_setBits (by decide)]
    exact UInt16.xor_self
  have low : ∀ n ∈ Checksum.setBits word.toBitVec, n < 16 :=
    fun n member => ((Checksum.mem_setBits _ n).mp member).1
  have high : ∀ n ∈ (Checksum.places front).map (· + 16), 16 ≤ n ∧ n < 512 := by
    intro n member
    obtain ⟨m, place, rfl⟩ := List.mem_map.mp member
    have := Checksum.lt_of_mem_places place
    omega
  have different : powers.Nodup := by
    refine List.nodup_append.mpr ⟨Checksum.nodup_setBits _, ?_, ?_⟩
    · exact (Checksum.nodup_places front).map fun m n same => Nat.add_right_cancel same
    · rintro n first m second rfl
      have := low n first
      have := (high n second).1
      omega
  have small : ∀ n ∈ powers, n < 512 := by
    intro n member
    rcases List.mem_append.mp member with first | second
    · have := low n first
      omega
    · exact (high n second).2
  have nonempty : powers ≠ [] := by
    intro empty
    have places : (Checksum.places front).length = 0 := by
      rw [← List.length_map, (List.append_eq_nil_iff.mp empty).2]
      rfl
    rw [Checksum.length_places] at places
    obtain ⟨b, member, changed⟩ := damaged
    exact changed (Checksum.eq_zero_of_bitCount places b member)
  rw [← count]
  by_contra few
  exact Checksum.sum_ne_zero different small nonempty (by omega) cancels

end shapes

/-- What is changed in a record goes unnoticed only if something is changed ahead of the checksum.
-/
theorem exists_ahead_of_unnoticed {mask : List UInt8} (damaged : ∃ b ∈ mask, b ≠ 0)
    (remainder : mask.drop 62 = LittleEndian.bytes16 (Checksum.update 0 (mask.take 62))) :
    ∃ b ∈ mask.take 62, b ≠ 0 := by
  by_contra undamaged
  have clean : ∀ b ∈ mask.take 62, b = 0 := by
    intro b member
    by_contra changed
    exact undamaged ⟨b, member, changed⟩
  rw [List.eq_replicate_of_mem clean, Checksum.update_zeros, Checksum.shifts_zero] at remainder
  obtain ⟨b, member, changed⟩ := damaged
  rw [← List.take_append_drop 62 mask] at member
  rcases List.mem_append.mp member with ahead | behind
  · exact changed (clean b ahead)
  · rw [remainder] at behind
    simp only [LittleEndian.bytes16, List.mem_cons, List.not_mem_nil, or_false] at behind
    rcases behind with rfl | rfl <;> exact changed rfl

/-- A record that is damaged in a byte, in two bytes side by side, in the checksum or in at most
three bits is no record any more. -/
theorem decode?_damaged (r : Record) {mask : List UInt8} (whole : mask.length = recordSize)
    (damages : ∃ b ∈ mask, b ≠ 0) (slight : Slight mask) :
    decode? (damaged r.encode mask) = none := by
  rcases decoded : decode? (damaged r.encode mask) with - | found
  · rfl
  have remainder := remainder_of_unnoticed whole decoded
  have ahead := exists_ahead_of_unnoticed damages remainder
  have length : (mask.take 62).length = 62 := by
    rw [List.length_take, whole]
    rfl
  -- Damage to two neighbours ahead of the checksum leaves the checksum as it is.
  have neighbours (place : Nat) (before : place + 1 ≤ 61)
      (confined : Confined mask fun i => i = place ∨ i = place + 1) : False := by
    have clean : ∀ b ∈ mask.drop 62, b = 0 := by
      intro b member
      by_contra changed
      obtain ⟨i, inside, rfl⟩ := List.getElem_of_mem member
      have here : mask[62 + i]? = .some (mask.drop 62)[i] := by
        rw [← List.getElem?_drop, List.getElem?_eq_getElem inside]
      have := confined (62 + i) _ here changed
      omega
    rw [remainder] at clean
    exact update_ne_zero_of_neighbours (by omega) (confined.take 62) ahead
      (LittleEndian.eq_zero_of_bytes16 clean)
  cases slight with
  | neighbours place before confined => exact (neighbours place before confined).elim
  | bits few =>
      have many := bitCount_of_remainder length ahead
      rw [← remainder, List.take_append_drop] at many
      omega
  | checksum confined =>
      obtain ⟨i, below, changed⟩ := (confined.take 62).exists_place ahead
      omega
  | byte place confined =>
      obtain ⟨i, below, rfl⟩ := (confined.take 62).exists_place ahead
      rcases Nat.lt_or_ge (i + 1) 62 with early | last
      · exact (neighbours i (by omega) (confined.mono fun _ here => .inl here)).elim
      · exact (neighbours (i - 1) (by omega) (confined.mono fun _ here => .inr (by omega))).elim

/-- A bit of the marker is turned over, one of the text, and one of the checksum. -/
theorem decode?_damaged_scattered :
    let r := ofText "c 10s o 20s *" true true
    let mask : List UInt8 :=
      0x01 :: List.replicate 30 0 ++ 0x80 :: List.replicate 31 0 ++ [0x10]
    mask.length = recordSize ∧ (∃ b ∈ mask, b ≠ 0) ∧ Slight mask ∧
      decode? (damaged r.encode mask) = none := by
  intro r mask
  have whole : mask.length = recordSize := by decide
  have damages : ∃ b ∈ mask, b ≠ 0 := ⟨0x80, by decide, by decide⟩
  have slight : Slight mask := .bits (by decide)
  exact ⟨whole, damages, slight, decode?_damaged r whole damages slight⟩

end Record

end RelayTimer
