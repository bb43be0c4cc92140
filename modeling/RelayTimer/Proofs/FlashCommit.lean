import RelayTimer.Proofs.FlashFound
import RelayTimer.Proofs.StoreCall

set_option autoImplicit false

/-!
Opening a store and flushing it, with a chip that may fail at any call, and with a reset at any
byte of a commit.
-/
namespace RelayTimer

namespace FlashChip

/-- The call reads a value off the cells and leaves them alone. It may fail where there are
faults. -/
def Reads {α : Type} (call : StoreCall FlashChip α) (value : Cells → α) : Prop :=
  ∀ chip, (call chip).2.cells = chip.cells ∧
    ((call chip).1 = .ok (value chip.cells) ∨ (call chip).1 = .error .io) ∧
    (chip.faults = [] → call chip = (.ok (value chip.cells), chip))

theorem Reads.pure {α : Type} (a : α) : Reads (Pure.pure a) fun _ => a :=
  fun _ => ⟨rfl, .inl rfl, fun _ => rfl⟩

theorem Reads.bind {α β : Type} {call : StoreCall FlashChip α} {value : Cells → α}
    {next : α → StoreCall FlashChip β} (first : Reads call value) (result : α → Cells → β)
    (later : ∀ a, Reads (next a) (result a)) :
    Reads (call >>= next) fun cells => result (value cells) cells := by
  intro chip
  obtain ⟨kept, read, calm⟩ := first chip
  rw [StoreCall.bind_apply]
  cases done : call chip with
  | mk answer after =>
      rw [done] at kept read calm
      have same : after.cells = chip.cells := kept
      rcases read with ok | failed
      · have found : answer = .ok (value chip.cells) := ok
        subst found
        obtain ⟨keptLater, readLater, calmLater⟩ := later (value chip.cells) after
        rw [same] at keptLater readLater calmLater
        refine ⟨keptLater, readLater, ?_⟩
        intro quiet
        have unchanged : after = chip := (Prod.mk.inj (calm quiet)).2
        subst unchanged
        exact calmLater quiet
      · have fault : answer = .error .io := failed
        subst fault
        refine ⟨same, .inr rfl, ?_⟩
        intro quiet
        cases (Prod.mk.inj (calm quiet)).1

theorem reads_read {address length : Nat} (inside : address + length ≤ flashSize) :
    Reads (read address length) fun cells => cells.read address length := by
  intro chip
  have inRange : ¬ flashSize < address + length := by omega
  unfold read
  simp only [inRange, ↓reduceIte]
  cases consulted : Fault.consult .read chip.faults with
  | mk refused faults =>
      cases refused with
      | true =>
          refine ⟨rfl, .inr rfl, ?_⟩
          intro quiet
          rw [quiet] at consulted
          cases consulted
      | false =>
          refine ⟨rfl, .inl rfl, ?_⟩
          intro quiet
          obtain ⟨cells, journal, own⟩ := chip
          simp only at quiet
          subst quiet
          cases consulted
          rfl

/-- A call is made in full or, where there are faults, not at all. -/
theorem perform_cases {call : FlashCall} (inRange : call.inRange = true) (chip : FlashChip) :
    ((perform call chip).1 = .ok () ∧ (perform call chip).2.cells = call.apply chip.cells) ∨
      ((perform call chip).1 = .error .io ∧ (perform call chip).2.cells = chip.cells) := by
  unfold perform
  simp only [inRange, ↓reduceIte]
  cases Fault.consult call.kind chip.faults with
  | mk refused faults =>
      cases refused with
      | true => exact .inr ⟨rfl, rfl⟩
      | false => exact .inl ⟨rfl, rfl⟩

end FlashChip

namespace FlashStore

/-- All calls are made, or those before one that fails. -/
theorem performAll_cases (calls : List FlashCall) (inRange : ∀ call ∈ calls, call.inRange = true)
    (chip : FlashChip) :
    ((performAll calls chip).1 = .ok () ∧
      (performAll calls chip).2.cells = calls.foldl FlashCall.apply chip.cells) ∨
    ((performAll calls chip).1 = .error .io ∧ ∃ n < calls.length,
      (performAll calls chip).2.cells = (calls.take n).foldl FlashCall.apply chip.cells) := by
  induction calls generalizing chip with
  | nil => exact .inl ⟨rfl, rfl⟩
  | cons call rest ih =>
      have first := FlashChip.perform_cases (inRange call (by simp)) chip
      unfold performAll
      rw [StoreCall.bind_apply]
      cases done : FlashChip.perform call chip with
      | mk answer after =>
          rw [done] at first
          rcases first with ⟨ok, cells⟩ | ⟨failed, cells⟩
          · simp only at ok cells
            subst ok
            rcases ih (fun later member => inRange later (by simp [member])) after with
              ⟨all, last⟩ | ⟨failed, n, short, last⟩
            · exact .inl ⟨all, by rw [last, cells]; rfl⟩
            · refine .inr ⟨failed, n + 1, by simpa using short, ?_⟩
              rw [last, cells]
              rfl
          · simp only at failed cells
            subst failed
            exact .inr ⟨rfl, 0, by simp, cells⟩

theorem fits_iff (size offset : Nat) : fits size offset = true ↔ offset % sectorSize = 0 ∧
    size + Seal.size ≤ sectorSize ∧ offset + 2 * sectorSize ≤ flashSize := by
  simp [fits]

theorem sectorAt_le (offset : Nat) (bank : Bank) :
    offset ≤ sectorAt offset bank ∧ sectorAt offset bank + sectorSize ≤ offset + 2 * sectorSize := by
  cases bank <;> simp [sectorAt, Bank.index] <;> omega

theorem sectorAt_other (offset : Nat) (bank : Bank) :
    sectorAt offset bank.other + sectorSize ≤ sectorAt offset bank ∨
      sectorAt offset bank + sectorSize ≤ sectorAt offset bank.other := by
  cases bank <;> simp [sectorAt, Bank.index, Bank.other]

variable {size offset : Nat}

theorem reads_readGeneration (inside : fits size offset = true) (bank : Bank) :
    FlashChip.Reads (readGeneration size (sectorAt offset bank)) fun cells =>
      cells.generation? size offset bank := by
  obtain ⟨-, room, onChip⟩ := (fits_iff size offset).mp inside
  have sector := sectorAt_le offset bank
  refine (FlashChip.reads_read (by omega)).bind
    (fun image cells => Seal.generation? image (cells.read (sectorAt offset bank + size) Seal.size))
    fun image => ?_
  exact (FlashChip.reads_read (by omega)).bind (fun footer _ => Seal.generation? image footer)
    fun footer => .pure (Seal.generation? image footer)

theorem reads_find (inside : fits size offset = true) :
    FlashChip.Reads (find size offset) fun cells => cells.found size offset := by
  obtain ⟨-, room, onChip⟩ := (fits_iff size offset).mp inside
  unfold find
  simp only [inside, ↓reduceIte]
  refine (reads_readGeneration inside .first).bind (fun first cells =>
    cells.chosen size offset first (cells.generation? size offset .second)) fun first => ?_
  refine (reads_readGeneration inside .second).bind (fun second cells =>
    cells.chosen size offset first second) fun second => ?_
  unfold Cells.chosen
  cases Bank.newest? first second with
  | none => exact .pure _
  | some bank =>
      have sector := sectorAt_le offset bank
      exact (FlashChip.reads_read (by omega)).bind (fun image _ => (some bank, _, image))
        fun image => .pure _

/-- The store that is opened on a chip. -/
def opened (size offset : Nat) (chip : FlashChip) : FlashStore :=
  let (bank, generation, image) := chip.cells.found size offset
  { chip, offset, image, bank, generation }

/-- A store is opened on what is found, unless the chip fails. -/
theorem load_cases (inside : fits size offset = true) (chip : FlashChip) :
    (load size offset chip).2.cells = chip.cells ∧
      ((load size offset chip).1 = .ok (opened size offset (load size offset chip).2) ∨
        (load size offset chip).1 = .error .io) ∧
      (chip.faults = [] → load size offset chip = (.ok (opened size offset chip), chip)) := by
  obtain ⟨kept, read, calm⟩ := reads_find inside chip
  unfold load
  cases done : find size offset chip with
  | mk answer after =>
      rw [done] at kept read calm
      have same : after.cells = chip.cells := kept
      rcases read with ok | failed
      · have found : answer = .ok (chip.cells.found size offset) := ok
        subst found
        refine ⟨same, .inl (by simp only [opened, same]), ?_⟩
        intro quiet
        cases (Prod.mk.inj (calm quiet)).2
        rfl
      · have fault : answer = .error .io := failed
        subst fault
        refine ⟨same, .inr rfl, ?_⟩
        intro quiet
        cases (Prod.mk.inj (calm quiet)).1

/-- The store holds what is found on its chip, but for its copy of the image. -/
structure Ready (size : Nat) (s : FlashStore) : Prop where
  inside : fits size s.offset = true
  length : s.image.length = size
  bank : s.bank = (s.chip.cells.found size s.offset).1
  generation : s.generation = (s.chip.cells.found size s.offset).2.1

/-- The calls that are made of a commit that a reset cuts short: some of them, and maybe some bytes
of the next one. -/
def cutCalls (s : FlashStore) (done : Nat) (inside : Option Nat) : List FlashCall :=
  s.commit.take done ++ (inside.bind fun length => s.commit[done]?.map (·.torn length)).toList

section commit

variable {s : FlashStore}

theorem Ready.target (ready : Ready size s) :
    s.target = Bank.next (s.chip.cells.found size s.offset).1 := by
  unfold FlashStore.target
  rw [ready.bank]
  rfl

theorem Ready.within (ready : Ready size s) :
    ∀ call ∈ s.commit, call.Within (sectorAt s.offset s.target) := by
  obtain ⟨-, room, -⟩ := (fits_iff size s.offset).mp ready.inside
  have length := ready.length
  simp only [commit, List.mem_cons, List.not_mem_nil, or_false, forall_eq_or_imp, forall_eq,
    FlashCall.Within, Seal.length_ofImage, length, true_and]
  omega

/-- Both sectors are on the chip, so the chip can do whatever a flush asks of it. -/
theorem commit_inRange (inside : fits size s.offset = true) (length : s.image.length = size) :
    ∀ call ∈ s.commit, call.inRange = true := by
  obtain ⟨aligned, room, onChip⟩ := (fits_iff size s.offset).mp inside
  have sector := sectorAt_le s.offset s.target
  have start : sectorAt s.offset s.target % sectorSize = 0 := by
    unfold sectorAt
    rw [Nat.add_mul_mod_self_right]
    exact aligned
  simp only [commit, List.mem_cons, List.not_mem_nil, or_false, forall_eq_or_imp, forall_eq,
    FlashCall.inRange, Seal.length_ofImage, length, decide_eq_true_eq]
  omega

theorem Ready.inRange (ready : Ready size s) : ∀ call ∈ s.commit, call.inRange = true :=
  commit_inRange ready.inside ready.length

/-- Whatever is made of a commit leaves the sector in use as it is. -/
theorem Ready.aside (ready : Ready size s) {calls : List FlashCall}
    (within : ∀ call ∈ calls, call.Within (sectorAt s.offset s.target)) :
    Aside size s.offset s.chip.cells (calls.foldl FlashCall.apply s.chip.cells) := by
  unfold Aside
  rw [← ready.target]
  exact FlashCall.agree_foldl calls within s.chip.cells (sectorAt_other s.offset s.target)

/-- As long as there is no seal in the sector that is written, nothing else is found. -/
theorem Ready.found_of_blank (ready : Ready size s) {calls : List FlashCall}
    (within : ∀ call ∈ calls, call.Within (sectorAt s.offset s.target))
    (blank : (calls.foldl FlashCall.apply s.chip.cells).read
      (sectorAt s.offset s.target + size) Seal.size = List.replicate Seal.size erasedByte) :
    (calls.foldl FlashCall.apply s.chip.cells).found size s.offset =
      s.chip.cells.found size s.offset := by
  obtain ⟨-, room, -⟩ := (fits_iff size s.offset).mp ready.inside
  refine found_of_unsealed room (ready.aside within) ?_
  rw [← ready.target]
  simp only [Cells.generation?, blank]
  exact Seal.generation?_erased _

theorem Ready.found_of_erased (ready : Ready size s) :
    ([FlashCall.erase (sectorAt s.offset s.target)].foldl FlashCall.apply s.chip.cells).found
      size s.offset = s.chip.cells.found size s.offset := by
  obtain ⟨-, room, -⟩ := (fits_iff size s.offset).mp ready.inside
  apply ready.found_of_blank
  · simp [FlashCall.Within]
  · exact s.chip.cells.read_erase (by omega) (by omega)

/-- Before the seal is written nothing else is found, whatever has been written of the image. -/
theorem Ready.found_of_staged (ready : Ready size s) (data : List UInt8)
    (short : data.length ≤ size) :
    ([FlashCall.erase (sectorAt s.offset s.target), .program (sectorAt s.offset s.target) data].foldl
      FlashCall.apply s.chip.cells).found size s.offset = s.chip.cells.found size s.offset := by
  obtain ⟨-, room, -⟩ := (fits_iff size s.offset).mp ready.inside
  apply ready.found_of_blank
  · simp only [List.mem_cons, List.not_mem_nil, or_false, forall_eq_or_imp, forall_eq,
      FlashCall.Within, true_and]
    omega
  · let sector := sectorAt s.offset s.target
    have behind : ((s.chip.cells.erase sector sectorSize).program sector data).Agree
        (s.chip.cells.erase sector sectorSize) (sector + size) Seal.size :=
      Cells.agree_program _ (.inr (by omega))
    have blank := s.chip.cells.read_erase (by omega : sector ≤ sector + size)
      (by omega : sector + size + Seal.size ≤ sector + sectorSize)
    rw [← blank]
    exact behind.read (by omega) (by omega)

/-- Up to the seal a commit changes nothing of what is found. -/
theorem Ready.found_of_take (ready : Ready size s) {n : Nat} (unsealed : n < 3) :
    ((s.commit.take n).foldl FlashCall.apply s.chip.cells).found size s.offset =
      s.chip.cells.found size s.offset := by
  match n, unsealed with
  | 0, _ => rfl
  | 1, _ => exact ready.found_of_erased
  | 2, _ => exact ready.found_of_staged s.image (Nat.le_of_eq ready.length)

/-- The image is whole before the seal is written, and stays so. -/
theorem Ready.read_of_sealing (ready : Ready size s) (data : List UInt8) :
    let sector := sectorAt s.offset s.target
    ([FlashCall.erase sector, .program sector s.image, .program (sector + s.image.length) data].foldl
      FlashCall.apply s.chip.cells).read sector size = s.image := by
  intro sector
  obtain ⟨-, room, -⟩ := (fits_iff size s.offset).mp ready.inside
  have length := ready.length
  let cleared := s.chip.cells.erase sector sectorSize
  have blank : cleared.read sector s.image.length =
      List.replicate s.image.length erasedByte :=
    s.chip.cells.read_erase (by omega) (by omega)
  have whole := cleared.read_program sector s.image blank
  have before : ((cleared.program sector s.image).program (sector + s.image.length) data).Agree
      (cleared.program sector s.image) sector size :=
    Cells.agree_program _ (.inl (by omega))
  rw [length] at whole
  exact (before.read (by omega) (by omega)).trans whole

/-- A seal that is written in part or in full makes the image found, or else nothing is changed. -/
theorem Ready.found_image_of_sealing (ready : Ready size s) (data : List UInt8)
    (short : data.length ≤ Seal.size) :
    let sector := sectorAt s.offset s.target
    let image := ([FlashCall.erase sector, .program sector s.image,
      .program (sector + s.image.length) data].foldl
        FlashCall.apply s.chip.cells).found size s.offset |>.2.2
    image = (s.chip.cells.found size s.offset).2.2 ∨ image = s.image := by
  intro sector image
  obtain ⟨-, room, -⟩ := (fits_iff size s.offset).mp ready.inside
  have length := ready.length
  have within : ∀ call ∈ [FlashCall.erase sector, .program sector s.image,
      .program (sector + s.image.length) data], call.Within (sectorAt s.offset s.target) := by
    simp only [List.mem_cons, List.not_mem_nil, or_false, forall_eq_or_imp, forall_eq,
      FlashCall.Within, sector, true_and]
    omega
  have either := found_image room (ready.aside within)
  rw [← ready.target, ready.read_of_sealing data] at either
  exact either

/-- A commit that is made in full is what is found. -/
theorem Ready.found_of_commit (ready : Ready size s) :
    (s.commit.foldl FlashCall.apply s.chip.cells).found size s.offset =
      (some s.target, s.generation + 1, s.image) := by
  obtain ⟨-, room, -⟩ := (fits_iff size s.offset).mp ready.inside
  have length := ready.length
  let sector := sectorAt s.offset s.target
  let footer := Seal.ofImage s.image (s.generation + 1)
  let cleared := s.chip.cells.erase sector sectorSize
  have image : (s.commit.foldl FlashCall.apply s.chip.cells).read sector size = s.image :=
    ready.read_of_sealing footer
  have behind : (cleared.program sector s.image).Agree cleared (sector + size) Seal.size :=
    Cells.agree_program _ (.inr (by omega))
  have blank : (cleared.program sector s.image).read (sector + size) footer.length =
      List.replicate footer.length erasedByte := by
    rw [Seal.length_ofImage, behind.read (by omega) (by omega)]
    exact s.chip.cells.read_erase (by omega) (by omega)
  have written : (s.commit.foldl FlashCall.apply s.chip.cells).read (sector + size) Seal.size =
      footer := by
    have there := (cleared.program sector s.image).read_program (sector + size) footer blank
    rw [Seal.length_ofImage] at there
    change (((cleared.program sector s.image).program (sector + s.image.length) footer).read _ _) = _
    rw [length]
    exact there
  have sealed := found_of_sealed room (ready.aside ready.within) (by
    rw [← ready.target, ← ready.generation]
    simp only [Cells.generation?]
    rw [image, written]
    exact Seal.generation?_ofImage _ _)
  rw [← ready.target, ← ready.generation] at sealed
  rw [sealed]
  simp only [Prod.mk.injEq, true_and]
  exact image

theorem length_cutCalls_le (s : FlashStore) (done : Nat) (inside : Option Nat) :
    (s.cutCalls done inside).length ≤ 3 ∧
      (s.cutCalls done inside).length ≤ (s.commit.take done).length + 1 := by
  unfold cutCalls
  rw [List.length_append, List.length_take]
  have three : s.commit.length = 3 := rfl
  cases next : inside.bind fun length => s.commit[done]?.map (·.torn length) with
  | none =>
      simp only [three, Option.toList_none, List.length_nil]
      omega
  | some call =>
      have before : done < 3 := by
        obtain ⟨length, -, torn⟩ := Option.bind_eq_some_iff.mp next
        obtain ⟨whole, here, -⟩ := Option.map_eq_some_iff.mp torn
        exact (List.getElem?_eq_some_iff.mp here).1
      simp only [three, Option.toList_some, List.length_singleton]
      omega

/-- A call that fails before the reset leaves the calls of the commit before it. -/
theorem take_cutCalls (s : FlashStore) (done : Nat) (inside : Option Nat) {n : Nat}
    (before : n < (s.cutCalls done inside).length) :
    (s.cutCalls done inside).take n = s.commit.take n ∧ n < 3 := by
  obtain ⟨three, one⟩ := length_cutCalls_le s done inside
  refine ⟨?_, by omega⟩
  have within : n ≤ (s.commit.take done).length := by omega
  unfold cutCalls
  rw [List.take_append_of_le_length within, List.take_take, Nat.min_eq_left]
  rw [List.length_take] at within
  omega

theorem inRange_torn {call : FlashCall} (inRange : call.inRange = true) (length : Nat) :
    (call.torn length).inRange = true := by
  cases call with
  | erase address => exact inRange
  | program address data =>
      simp only [FlashCall.torn, FlashCall.inRange, decide_eq_true_eq, List.length_take] at inRange ⊢
      omega

theorem Ready.inRange_cutCalls (ready : Ready size s) (done : Nat) (inside : Option Nat) :
    ∀ call ∈ s.cutCalls done inside, call.inRange = true := by
  intro call member
  unfold cutCalls at member
  rcases List.mem_append.mp member with made | torn
  · exact ready.inRange call (List.mem_of_mem_take made)
  · obtain ⟨length, -, torn⟩ := Option.bind_eq_some_iff.mp (Option.mem_toList.mp torn)
    obtain ⟨whole, here, rfl⟩ := Option.map_eq_some_iff.mp torn
    exact inRange_torn (ready.inRange whole (List.mem_of_getElem? here)) length

theorem Ready.found_image_of_take (ready : Ready size s) (done : Nat) :
    let image := ((s.commit.take done).foldl FlashCall.apply s.chip.cells).found size s.offset
      |>.2.2
    image = (s.chip.cells.found size s.offset).2.2 ∨ image = s.image := by
  intro image
  rcases Nat.lt_or_ge done 3 with before | complete
  · exact .inl (by simp only [image, ready.found_of_take before])
  · have all : s.commit.take done = s.commit := List.take_of_length_le complete
    exact .inr (by simp only [image, all, ready.found_of_commit])

/-- However a reset cuts a commit short, the image that is found is the one before or the one that
was being committed. -/
theorem Ready.found_image_of_cut (ready : Ready size s) (done : Nat) (inside : Option Nat) :
    let image := ((s.cutCalls done inside).foldl FlashCall.apply s.chip.cells).found size s.offset
      |>.2.2
    image = (s.chip.cells.found size s.offset).2.2 ∨ image = s.image := by
  match inside, done with
  | none, done =>
      have made : s.cutCalls done none = s.commit.take done := by simp [cutCalls]
      rw [made]
      exact ready.found_image_of_take done
  | some length, 0 => exact .inl (congrArg (·.2.2) ready.found_of_erased)
  | some length, 1 =>
      have short : (s.image.take length).length ≤ size := by
        rw [List.length_take, ready.length]
        omega
      exact .inl (congrArg (·.2.2) (ready.found_of_staged _ short))
  | some length, 2 =>
      have short : ((Seal.ofImage s.image (s.generation + 1)).take length).length ≤ Seal.size := by
        rw [List.length_take, Seal.length_ofImage]
        omega
      exact ready.found_image_of_sealing _ short
  | some length, n + 3 =>
      have made : s.cutCalls (n + 3) (some length) = s.commit.take (n + 3) := by
        simp [cutCalls, commit]
      rw [made]
      exact ready.found_image_of_take (n + 3)

/-- A flush has nothing to do, or it commits the copy, or it fails and leaves what is found. -/
theorem Ready.flush_cases (ready : Ready size s) :
    (s.dirty = false ∧ ByteStore.flush s = (.ok (), s)) ∨
    (s.dirty = true ∧ ∃ chip, chip.cells.found size s.offset =
        (some s.target, s.generation + 1, s.image) ∧
      ByteStore.flush s = (.ok (), { s with
        chip, bank := some s.target, generation := s.generation + 1, dirty := false })) ∨
    (s.dirty = true ∧ ∃ chip, chip.cells.found size s.offset = s.chip.cells.found size s.offset ∧
      ByteStore.flush s = (.error .io, { s with chip })) := by
  rcases Bool.eq_false_or_eq_true s.dirty with dirty | clean
  · refine .inr ?_
    have made := performAll_cases s.commit ready.inRange s.chip
    cases done : performAll s.commit s.chip with
    | mk answer chip =>
        rw [done] at made
        rcases made with ⟨ok, cells⟩ | ⟨failed, n, before, cells⟩
        · simp only at ok cells
          subst ok
          refine .inl ⟨dirty, chip, by rw [cells, ready.found_of_commit], ?_⟩
          simp only [ByteStore.flush, dirty, ↓reduceIte, done]
        · simp only at failed cells
          subst failed
          refine .inr ⟨dirty, chip, by rw [cells, ready.found_of_take before], ?_⟩
          simp only [ByteStore.flush, dirty, ↓reduceIte, done]
  · refine .inl ⟨clean, ?_⟩
    simp [ByteStore.flush, clean]

end commit

end FlashStore

end RelayTimer
