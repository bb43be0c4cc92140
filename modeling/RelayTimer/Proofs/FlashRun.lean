import RelayTimer.Proofs.FlashCommit
import RelayTimer.Proofs.FlashPages

set_option autoImplicit false

/-!
A chip that begins erased and the store that is opened on it again and again, while the chip fails
and resets strike.
-/
namespace RelayTimer

/-- What can happen to a chip and the store on it. -/
inductive FlashOp
  | read (offset length : Nat)
  | write (page : Nat) (data : List UInt8)
  | erase (page : Nat)
  | flush
  /-- The store is opened anew, whether or not it is open. -/
  | reopen
  /-- From now on the chip fails as the faults say. -/
  | fail (faults : List Fault)
  | reset
  /-- A flush that a reset cuts short: after some calls, and maybe some bytes of the next one. -/
  | cut (done : Nat) (inside : Option Nat)

namespace FlashOp

/-- Whether the store is asked to make its copy durable. -/
def commits : FlashOp → Bool
  | flush | cut .. => true
  | _ => false

end FlashOp

/-- A chip, and the store that is open on it if one is. -/
inductive FlashDevice
  | closed (chip : FlashChip)
  | opened (store : FlashStore)

namespace FlashDevice

def chip : FlashDevice → FlashChip
  | closed chip => chip
  | opened store => store.chip

def onChip (d : FlashDevice) (change : FlashChip → FlashChip) : FlashDevice :=
  match d with
  | closed chip => closed (change chip)
  | opened store => opened { store with chip := change store.chip }

/-- The store after a call, if it is open. -/
def onStore {α : Type} (d : FlashDevice) (call : StoreCall FlashStore α) : FlashDevice :=
  match d with
  | closed chip => closed chip
  | opened store => opened (call store).2

end FlashDevice

/-- A device, with what its history says of the image on it. -/
structure FlashRun where
  device : FlashDevice
  /-- The image of the last flush or opening that succeeded. -/
  established : List UInt8
  /-- The image of the commit that a reset has cut short since then. -/
  cutShort : Option (List UInt8) := none

namespace FlashRun

/-- A chip that is erased, on which no store has been opened. -/
def begin (size : Nat) : FlashRun := { device := .closed {}, established := Image.erased size }

/-- The power goes and comes back. -/
def reset (r : FlashRun) : FlashRun :=
  { r with device := .closed { r.device.chip with journal := [] } }

def flush (r : FlashRun) : FlashRun :=
  match r.device with
  | .closed _ => r
  | .opened store =>
    match ByteStore.flush store with
    | (.ok (), after) => { device := .opened after, established := store.image }
    | (.error _, after) => { r with device := .opened after }

def reopen (size offset : Nat) (r : FlashRun) : FlashRun :=
  match FlashStore.load size offset r.device.chip with
  | (.ok store, _) => { device := .opened store, established := store.image }
  | (.error _, chip) => { r with device := .closed chip }

/-- A flush with a reset in it. If it has nothing to do, or fails before, the reset comes after. -/
def cut (r : FlashRun) (done : Nat) (inside : Option Nat) : FlashRun :=
  match r.device with
  | .closed _ => r.reset
  | .opened store =>
    if store.dirty then
      match FlashStore.performAll (store.cutCalls done inside) store.chip with
      | (.ok (), chip) => reset { r with device := .closed chip, cutShort := some store.image }
      | (.error _, chip) => reset { r with device := .closed chip }
    else r.reset

def step (size offset : Nat) (r : FlashRun) : FlashOp → FlashRun
  | .read start length => { r with device := r.device.onStore (ByteStore.readAt start length) }
  | .write page data => { r with device := r.device.onStore (ByteStore.writePage page data) }
  | .erase page => { r with device := r.device.onStore (ByteStore.erasePage page) }
  | .flush => r.flush
  | .reopen => r.reopen size offset
  | .fail faults => { r with device := r.device.onChip fun chip => { chip with faults } }
  | .reset => r.reset
  | .cut done inside => r.cut done inside

/-- What comes of a chip after all of this. -/
def after (size offset : Nat) (ops : List FlashOp) : FlashRun :=
  ops.foldl (step size offset) (begin size)

/-- The image of the store that is opened when the chip does not fail. -/
def finds? (size offset : Nat) (r : FlashRun) : Option (List UInt8) :=
  match FlashStore.load size offset { r.device.chip with faults := [] } with
  | (.ok store, _) => some store.image
  | (.error _, _) => none

/-- What a history says of the image on its chip holds. -/
structure Faithful (size offset : Nat) (r : FlashRun) : Prop where
  found : (r.device.chip.cells.found size offset).2.2 = r.established ∨
    r.cutShort = some (r.device.chip.cells.found size offset).2.2
  opened : ∀ store, r.device = .opened store → store.offset = offset ∧
    FlashStore.Ready size store ∧ r.cutShort = none ∧
    (store.dirty = false → store.image = r.established)

variable {size offset : Nat} {r : FlashRun}

theorem length_found (cells : Cells) : (cells.found size offset).2.2.length = size := by
  rcases found_cases cells size offset with ⟨-, found⟩ | ⟨bank, n, -, found⟩
  · simp [found, Image.erased]
  · simp [found]

/-- While the store is open, the image in use is the established one. -/
theorem Faithful.found_of_opened (faithful : Faithful size offset r) {store : FlashStore}
    (opened : r.device = .opened store) :
    (store.chip.cells.found size offset).2.2 = r.established := by
  obtain ⟨-, -, whole, -⟩ := faithful.opened store opened
  have found := faithful.found
  rw [opened, whole] at found
  simpa [FlashDevice.chip] using found

theorem Faithful.begin : Faithful size offset (begin size) := by
  have blank (address length : Nat) :
      Cells.erased.read address length = List.replicate length erasedByte := by
    simp [Cells.read, Cells.erased, List.map_const']
  refine ⟨.inl ?_, by simp [FlashRun.begin]⟩
  rcases found_cases Cells.erased size offset with ⟨-, found⟩ | ⟨bank, n, sealed, -⟩
  · exact congrArg (·.2.2) found
  · simp only [Cells.generation?, blank] at sealed
    rw [show erasedByte = 0xFF from rfl, Seal.generation?_erased] at sealed
    cases sealed

/-- A history goes on faithfully where the cells stay as they are and no store is open. -/
theorem Faithful.closed (faithful : Faithful size offset r) {chip : FlashChip}
    (cells : chip.cells.found size offset = r.device.chip.cells.found size offset) :
    Faithful size offset { r with device := .closed chip } := by
  refine ⟨?_, nofun⟩
  change (chip.cells.found size offset).2.2 = _ ∨ _ = some (chip.cells.found size offset).2.2
  rw [cells]
  exact faithful.found

theorem Faithful.reset (faithful : Faithful size offset r) : Faithful size offset r.reset :=
  faithful.closed rfl

/-- The copy may change as long as the store then takes it for changed. -/
theorem Faithful.keep (faithful : Faithful size offset r) {store : FlashStore}
    (opened : r.device = .opened store) (image : Option (List UInt8))
    (same : ∀ after ∈ image, after.length = store.image.length) :
    Faithful size offset { r with device := .opened (store.keep image).2 } := by
  obtain ⟨place, ready, whole, clean⟩ := faithful.opened store opened
  have found := faithful.found
  rw [opened] at found
  cases image with
  | none =>
      refine ⟨found, ?_⟩
      rintro _ ⟨⟩
      exact ⟨place, ready, whole, clean⟩
  | some after =>
      refine ⟨found, ?_⟩
      rintro _ ⟨⟩
      refine ⟨place, ⟨ready.inside, (same after rfl).trans ready.length, ready.bank,
        ready.generation⟩, whole, ?_⟩
      intro unchanged
      simp only [FlashStore.keep, Bool.or_eq_false_iff, bne_eq_false_iff_eq] at unchanged ⊢
      rw [unchanged.2, clean unchanged.1]

/-- A call on the store may do no more than put another image in the place of the copy. -/
theorem Faithful.onStore {α : Type} (faithful : Faithful size offset r)
    (call : StoreCall FlashStore α)
    (keeps : ∀ store, ∃ image : Option (List UInt8),
      (∀ after ∈ image, after.length = store.image.length) ∧
        (call store).2 = (store.keep image).2) :
    Faithful size offset { r with device := r.device.onStore call } := by
  cases device : r.device with
  | closed chip =>
      have found := faithful.found
      rw [device] at found
      exact ⟨found, nofun⟩
  | opened store =>
      obtain ⟨image, same, done⟩ := keeps store
      simp only [FlashDevice.onStore, done]
      exact faithful.keep device image same

theorem Faithful.onChip (faithful : Faithful size offset r) (faults : List Fault) :
    Faithful size offset
      { r with device := r.device.onChip fun chip => { chip with faults } } := by
  cases device : r.device with
  | closed chip =>
      have found := faithful.found
      rw [device] at found
      exact ⟨found, nofun⟩
  | opened store =>
      obtain ⟨place, ready, whole, clean⟩ := faithful.opened store device
      have found := faithful.found
      rw [device] at found
      refine ⟨found, ?_⟩
      rintro _ ⟨⟩
      exact ⟨place, ⟨ready.inside, ready.length, ready.bank, ready.generation⟩, whole, clean⟩

theorem Faithful.flush (faithful : Faithful size offset r) : Faithful size offset r.flush := by
  unfold FlashRun.flush
  cases device : r.device with
  | closed chip => exact faithful
  | opened store =>
      obtain ⟨place, ready, whole, clean⟩ := faithful.opened store device
      have found := faithful.found_of_opened device
      rcases ready.flush_cases with ⟨unchanged, done⟩ | ⟨-, chip, now, done⟩ | ⟨dirty, chip, now, done⟩
      · simp only [done]
        refine ⟨.inl (by rw [clean unchanged]; exact found), ?_⟩
        rintro _ ⟨⟩
        exact ⟨place, ready, rfl, fun _ => rfl⟩
      · simp only [done]
        rw [place] at now
        refine ⟨.inl (by simp only [FlashDevice.chip, now]), ?_⟩
        rintro _ ⟨⟩
        refine ⟨place, ⟨ready.inside, ready.length, ?_, ?_⟩, rfl, fun _ => rfl⟩
        · simp only [place, now]
        · simp only [place, now]
      · simp only [done]
        refine ⟨.inl ?_, ?_⟩
        · rw [place] at now
          simp only [FlashDevice.chip, now, found]
        · rintro _ ⟨⟩
          refine ⟨place, ⟨ready.inside, ready.length, ?_, ?_⟩, whole, ?_⟩
          · simp only [now, ready.bank]
          · simp only [now, ready.generation]
          · intro clean
            simp only [dirty, reduceCtorEq] at clean

theorem ready_opened (inside : FlashStore.fits size offset = true) (chip : FlashChip) :
    FlashStore.Ready size (FlashStore.opened size offset chip) :=
  ⟨inside, length_found chip.cells, rfl, rfl⟩

theorem Faithful.reopen (faithful : Faithful size offset r)
    (inside : FlashStore.fits size offset = true) :
    Faithful size offset (r.reopen size offset) := by
  unfold FlashRun.reopen
  obtain ⟨kept, read, -⟩ := FlashStore.load_cases inside r.device.chip
  cases done : FlashStore.load size offset r.device.chip with
  | mk answer chip =>
      rw [done] at kept read
      have same : chip.cells = r.device.chip.cells := kept
      rcases read with ok | failed
      · have opened : answer = .ok (FlashStore.opened size offset chip) := ok
        subst opened
        refine ⟨.inl rfl, ?_⟩
        rintro _ ⟨⟩
        exact ⟨rfl, ready_opened inside chip, rfl, fun _ => rfl⟩
      · have fault : answer = .error .io := failed
        subst fault
        exact faithful.closed (by rw [same])

/-- A commit that a reset cuts short is found or not; one that failed before is not. -/
theorem Faithful.cut (faithful : Faithful size offset r) (done : Nat) (inside : Option Nat) :
    Faithful size offset (r.cut done inside) := by
  unfold FlashRun.cut
  cases device : r.device with
  | closed chip => exact faithful.reset
  | opened store =>
      obtain ⟨place, ready, -, -⟩ := faithful.opened store device
      have before := faithful.found_of_opened device
      simp only
      split
      · have made := FlashStore.performAll_cases (store.cutCalls done inside)
          (ready.inRange_cutCalls done inside) store.chip
        cases performed : FlashStore.performAll (store.cutCalls done inside) store.chip with
        | mk answer chip =>
            rw [performed] at made
            rcases made with ⟨ok, cells⟩ | ⟨failed, n, short, cells⟩
            · simp only at ok cells
              subst ok
              refine ⟨?_, nofun⟩
              change (chip.cells.found size offset).2.2 = r.established ∨
                some store.image = some (chip.cells.found size offset).2.2
              have image := ready.found_image_of_cut done inside
              rw [← cells, place, before] at image
              rcases image with old | new
              · exact .inl old
              · exact .inr (by rw [new])
            · simp only at failed cells
              subst failed
              obtain ⟨calls, unsealed⟩ := FlashStore.take_cutCalls store done inside short
              refine faithful.closed ?_
              rw [device]
              change chip.cells.found size offset = store.chip.cells.found size offset
              have found := ready.found_of_take unsealed
              rw [place] at found
              rw [cells, calls, found]
      · exact faithful.reset

theorem Faithful.step (faithful : Faithful size offset r)
    (inside : FlashStore.fits size offset = true) (op : FlashOp) :
    Faithful size offset (r.step size offset op) := by
  cases op with
  | read start length =>
      apply faithful.onStore
      intro store
      refine ⟨none, nofun, ?_⟩
      simp only [ByteStore.readAt]
      split <;> rfl
  | write page data =>
      apply faithful.onStore
      intro store
      rw [FlashStore.writePage_eq_keep]
      exact ⟨_, fun after written => Image.length_of_writePage? written, rfl⟩
  | erase page =>
      apply faithful.onStore
      intro store
      rw [FlashStore.erasePage_eq_keep]
      exact ⟨_, fun after written => Image.length_of_writePage? written, rfl⟩
  | flush => exact faithful.flush
  | reopen => exact faithful.reopen inside
  | fail faults => exact faithful.onChip faults
  | reset => exact faithful.reset
  | cut done inner => exact faithful.cut done inner

theorem Faithful.foldl (faithful : Faithful size offset r)
    (inside : FlashStore.fits size offset = true) (ops : List FlashOp) :
    Faithful size offset (ops.foldl (FlashRun.step size offset) r) := by
  induction ops generalizing r with
  | nil => exact faithful
  | cons op rest ih => exact ih (faithful.step inside op)

/-- A store that is opened on a chip that does not fail has the image that is found. -/
theorem finds?_eq (inside : FlashStore.fits size offset = true) :
    r.finds? size offset = some (r.device.chip.cells.found size offset).2.2 := by
  have calm := (FlashStore.load_cases inside { r.device.chip with faults := [] }).2.2 rfl
  simp only [finds?, calm]
  rfl

/-- As long as no commit begins, what is established stays so. -/
theorem Faithful.step_quiet (faithful : Faithful size offset r)
    (inside : FlashStore.fits size offset = true) (whole : r.cutShort = none) (op : FlashOp)
    (quiet : op.commits = false) :
    (r.step size offset op).established = r.established ∧
      (r.step size offset op).cutShort = none := by
  cases op with
  | flush => cases quiet
  | cut done inner => cases quiet
  | reopen =>
      unfold FlashRun.step FlashRun.reopen
      obtain ⟨kept, read, -⟩ := FlashStore.load_cases inside r.device.chip
      have found := faithful.found
      simp only [whole, reduceCtorEq, or_false] at found
      cases done : FlashStore.load size offset r.device.chip with
      | mk answer chip =>
          rw [done] at kept read
          have same : chip.cells = r.device.chip.cells := kept
          rcases read with ok | failed
          · have opened : answer = .ok (FlashStore.opened size offset chip) := ok
            subst opened
            refine ⟨?_, rfl⟩
            change (chip.cells.found size offset).2.2 = _
            rw [same, found]
          · have fault : answer = .error .io := failed
            subst fault
            exact ⟨rfl, whole⟩
  | _ => exact ⟨rfl, whole⟩

theorem Faithful.foldl_quiet (faithful : Faithful size offset r)
    (inside : FlashStore.fits size offset = true) (whole : r.cutShort = none) (ops : List FlashOp)
    (quiet : ∀ op ∈ ops, op.commits = false) :
    (ops.foldl (FlashRun.step size offset) r).established = r.established ∧
      (ops.foldl (FlashRun.step size offset) r).cutShort = none := by
  induction ops generalizing r with
  | nil => exact ⟨rfl, whole⟩
  | cons op rest ih =>
      obtain ⟨same, still⟩ := faithful.step_quiet inside whole op (quiet op (by simp))
      obtain ⟨later, last⟩ := ih (faithful.step inside op) still
        (fun other member => quiet other (by simp [member]))
      exact ⟨later.trans same, last⟩

/-- Without a commit that was cut short, the established image is what is found. -/
theorem Faithful.finds?_of_whole (faithful : Faithful size offset r)
    (inside : FlashStore.fits size offset = true) (whole : r.cutShort = none) :
    r.finds? size offset = some r.established := by
  have found := faithful.found
  simp only [whole, reduceCtorEq, or_false] at found
  rw [finds?_eq inside, found]

theorem after_append (size offset : Nat) (ops rest : List FlashOp) :
    after size offset (ops ++ rest) =
      rest.foldl (FlashRun.step size offset) (after size offset ops) :=
  List.foldl_append

/-- Whatever is read, written and flushed, wherever the chip fails and whenever a reset strikes: a
store that is opened then has the established image, or that of the commit that a reset has cut
short. A flush that succeeds establishes the copy, and one that fails leaves the store to be
flushed again, with the established image where it was, until the next commit begins. -/
theorem crash_safe (inside : FlashStore.fits size offset = true) (ops : List FlashOp) :
    let r := after size offset ops
    (∃ image, r.finds? size offset = some image ∧
      (image = r.established ∨ r.cutShort = some image)) ∧
    ∀ store, r.device = .opened store →
      (∀ flushed, ByteStore.flush store = (.ok (), flushed) →
        flushed.image = store.image ∧ ∀ rest, (∀ op ∈ rest, op.commits = false) →
          (after size offset (ops ++ .flush :: rest)).finds? size offset = some store.image) ∧
      (∀ e flushed, ByteStore.flush store = (.error e, flushed) →
        flushed.image = store.image ∧ flushed.dirty = true ∧
          ∀ rest, (∀ op ∈ rest, op.commits = false) →
            (after size offset (ops ++ .flush :: rest)).finds? size offset =
              some r.established) := by
  intro r
  have faithful : Faithful size offset r := Faithful.begin.foldl inside ops
  refine ⟨⟨_, finds?_eq inside, faithful.found⟩, ?_⟩
  intro store opened
  obtain ⟨-, ready, whole, -⟩ := faithful.opened store opened
  have later (rest : List FlashOp) (quiet : ∀ op ∈ rest, op.commits = false)
      (still : r.flush.cutShort = none) :
      (after size offset (ops ++ .flush :: rest)).finds? size offset =
        some r.flush.established := by
    rw [after_append, List.foldl_cons]
    obtain ⟨same, last⟩ := faithful.flush.foldl_quiet inside still rest quiet
    rw [← same]
    exact (faithful.flush.foldl inside rest).finds?_of_whole inside last
  refine ⟨?_, ?_⟩
  · intro flushed done
    have now : r.flush = { device := .opened flushed, established := store.image } := by
      simp only [FlashRun.flush, opened, done]
    refine ⟨?_, ?_⟩
    · rcases ready.flush_cases with ⟨-, ok⟩ | ⟨-, chip, -, ok⟩ | ⟨-, chip, -, failed⟩
      · rw [ok] at done
        cases done
        rfl
      · rw [ok] at done
        cases done
        rfl
      · rw [failed] at done
        cases done
    · intro rest quiet
      rw [later rest quiet (by rw [now]), now]
  · intro e flushed done
    have now : r.flush = { r with device := .opened flushed } := by
      simp only [FlashRun.flush, opened, done]
    have kept : flushed.image = store.image ∧ flushed.dirty = true := by
      rcases ready.flush_cases with ⟨-, ok⟩ | ⟨-, chip, -, ok⟩ | ⟨dirty, chip, -, failed⟩
      · rw [ok] at done
        cases done
      · rw [ok] at done
        cases done
      · rw [failed] at done
        cases done
        exact ⟨rfl, dirty⟩
    refine ⟨kept.1, kept.2, ?_⟩
    intro rest quiet
    rw [later rest quiet (by rw [now]; exact whole), now]

/-- A reset strikes while the seal of the first commit is written. -/
theorem crash_safe_torn_seal :
    let page := List.replicate pageSize 0x5A
    let r := after pageSize 0 [.reopen, .write 0 page, .cut 2 (some 5)]
    FlashStore.fits pageSize 0 = true ∧ r.established = Image.erased pageSize ∧
      ∃ image, r.finds? pageSize 0 = some image ∧ (image = r.established ∨ r.cutShort = some image) := by
  intro page r
  exact ⟨by decide, by decide, (crash_safe (by decide) _).1⟩

end FlashRun

end RelayTimer
