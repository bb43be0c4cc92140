import RelayTimer.Proofs.FlashFollows

set_option autoImplicit false

/-!
The stored programs on the chip are changed in full or not at all: wherever a reset strikes while
something is done with them, they are found as they were before, or as they are when it is done.
-/
namespace RelayTimer

/-- What a user sees of the stored programs. -/
structure Sight where
  occupied : Nat → Bool
  texts : Nat → Option String
  autostart : Option Nat
  lastUsed : Option Nat

namespace Catalog

/-- What is seen through a catalog. -/
def sight {σ : Type} [ByteStore σ] (c : Catalog σ) : Sight :=
  { occupied := c.isOccupied
    texts := fun slot => (programText slot c).1
    autostart := c.autostart
    lastUsed := c.lastUsed }

end Catalog

/-- What is seen of a shelf. -/
def Shelf.sight (h : Shelf) : Sight :=
  { occupied := fun slot => (h.texts slot).isSome
    texts := h.texts
    autostart := h.autostart
    lastUsed := h.lastUsed }

/-- What is seen once the power is back: the store is opened, and a catalog is set up on it. -/
def Cells.sight? (cells : Cells) (offset : Nat) : Option Sight :=
  match FlashStore.load imageSize offset { cells } with
  | (.ok store, _) => some (Catalog.ofStore store).sight
  | (.error _, _) => none

namespace Catalog

theorem Holds.sight {σ : Type} [ByteStore σ] [Faultless σ] {c : Catalog σ} {h : Shelf}
    (holds : c.Holds h) : c.sight = h.sight := by
  have texts (slot : Nat) : (programText slot c).1 = h.texts slot := by
    obtain ⟨after, read, -⟩ := leaves_programText holds.sized holds.agrees.toCoherent slot
    rw [read, ← holds.shelf]
  simp only [Catalog.sight, Shelf.sight, Sight.mk.injEq]
  exact ⟨funext holds.isOccupied, funext texts, holds.designated .autostart,
    holds.designated .lastUsed⟩

theorem Like.sight {σ τ : Type} [ByteStore σ] [ByteStore τ] {R : σ → τ → Prop} {c : Catalog σ}
    {k : Catalog τ} (like : Like R c k) (alike : ReadsAlike R) : c.sight = k.sight := by
  have texts (slot : Nat) : (programText slot c).1 = (programText slot k).1 :=
    (tracks_programText alike slot c k like).1
  obtain ⟨t, -, rfl⟩ := like.cases
  simp only [Catalog.sight, Sight.mk.injEq]
  exact ⟨rfl, funext texts, rfl, rfl⟩

end Catalog

theorem Engine.catalog_ofStore {σ : Type} [ByteStore σ] (store : σ) (relay : RelayOutput) :
    (Engine.ofStore store relay).catalog = Catalog.ofStore store := rfl

namespace FlashStore

variable {offset : Nat}

theorem tidy_opened (inside : fits imageSize offset = true) (chip : FlashChip) :
    (opened imageSize offset chip).Tidy offset :=
  ⟨FlashRun.ready_opened inside chip, rfl, fun _ => rfl⟩

/-- On a chip that does not fail the store is opened on the image that is found. -/
theorem load_calm (inside : fits imageSize offset = true) (chip : FlashChip)
    (calm : chip.faults = []) : ∃ s, load imageSize offset chip = (.ok s, chip) ∧
      s.Tidy s.offset ∧ s.chip.faults = [] ∧ s.image = chip.cells.image offset :=
  ⟨opened imageSize offset chip, (load_cases inside chip).2.2 calm, tidy_opened inside chip, calm,
    rfl⟩

theorem sight_ofStore {s : FlashStore} (tidy : s.Tidy s.offset) (calm : s.chip.faults = []) :
    (Catalog.ofStore s).sight = (Image.shelf s.image).sight := by
  have alike := follows_alike s
  have like := Catalog.like_ofStore alike (tidy.follows calm)
  have holds := Catalog.Holds.ofStore ({ image := s.image } : CommitStore) tidy.ready.length
  exact (like.sight alike.toReadsAlike).trans holds.sight

/-- An engine that is set up does not make the chip fail. -/
theorem calm_ofStore {s : FlashStore} (tidy : s.Tidy s.offset) (calm : s.chip.faults = [])
    (relay : RelayOutput) : (Engine.ofStore s relay).catalog.store.chip.faults = [] := by
  have like := Catalog.like_ofStore (follows_alike s) (tidy.follows calm)
  rw [Engine.catalog_ofStore]
  exact like.1.calm

end FlashStore

/-- What is seen once the power is back is what the image says that is found. -/
theorem Cells.sight?_eq {offset : Nat} (inside : FlashStore.fits imageSize offset = true)
    (cells : Cells) : cells.sight? offset = some (Image.shelf (cells.image offset)).sight := by
  obtain ⟨store, loaded, tidy, calm, image⟩ := FlashStore.load_calm inside { cells } rfl
  unfold Cells.sight?
  rw [loaded, ← image]
  exact congrArg some (FlashStore.sight_ofStore tidy calm)

namespace FlashStore

/-- The store when some of the calls on its chip are to fail. -/
def failing (s : FlashStore) (faults : List Fault) : FlashStore :=
  { s with chip := { s.chip with faults } }

theorem Tidy.failing {offset : Nat} {s : FlashStore} (tidy : s.Tidy offset) (faults : List Fault) :
    (s.failing faults).Tidy offset := by
  obtain ⟨⟨inside, length, bank, generation⟩, place, clean⟩ := tidy
  exact ⟨⟨inside, length, bank, generation⟩, place, clean⟩

/-- A store that has been opened is in order. -/
theorem tidy_of_load {offset : Nat} {chip after : FlashChip} {s : FlashStore}
    (opened : load imageSize offset chip = (.ok s, after)) : s.Tidy offset := by
  cases inside : fits imageSize offset with
  | false =>
      have refused : load imageSize offset chip = (.error .outOfRange, chip) := by
        unfold load find
        simp only [inside, Bool.false_eq_true, ↓reduceIte]
        rfl
      rw [refused] at opened
      cases opened
  | true =>
      have loaded := (load_cases inside chip).2.1
      rw [opened] at loaded
      rcases loaded with ok | failed
      · have same : s = FlashStore.opened imageSize offset after := Except.ok.inj ok
        rw [same]
        exact tidy_opened inside after
      · cases failed

end FlashStore

/-- The engines that there can be on the chip: one is set up on the store that is opened, and
errands are run, while the chip may fail. What is remembered and what is played may change in any way. -/
inductive Running (offset : Nat) : Engine FlashStore → Prop
  | start {chip after : FlashChip} {store : FlashStore} (relay : RelayOutput)
      (opened : FlashStore.load imageSize offset chip = (.ok store, after)) :
      Running offset (Engine.ofStore store relay)
  | errand {e : Engine FlashStore} (running : Running offset e) (errand : Errand) :
      Running offset (errand.perform e).2
  | aside {e other : Engine FlashStore} (running : Running offset e) (faults : List Fault)
      (same : other.catalog.store = e.catalog.store.failing faults) : Running offset other

namespace Running

variable {offset : Nat} {e : Engine FlashStore}

theorem tidy (running : Running offset e) : e.catalog.store.Tidy offset := by
  have alike := FlashStore.tidy_alike offset
  induction running with
  | start relay opened =>
      exact (Catalog.like_ofStore alike ⟨rfl, FlashStore.tidy_of_load opened⟩).1.2
  | errand _ errand ih =>
      exact (errand.tracks_perform alike _ _ ⟨⟨⟨rfl, ih⟩, rfl⟩, rfl⟩).2.1.1.2
  | aside _ faults same ih =>
      rw [same]
      exact ih.failing faults

/-- Whatever is done with the stored programs makes some calls on the chip. Wherever a reset cuts
these calls short, be it between two of them or after some bytes of one, what is seen afterwards is
what would have been seen before it was done, or what is seen when it is done. -/
theorem all_or_nothing (running : Running offset e) (calm : e.catalog.store.chip.faults = [])
    (errand : Errand) :
    let before := e.catalog.store.chip
    let after := (errand.perform e).2.catalog.store.chip
    ∃ calls, after.journal = before.journal ++ calls ∧
      after.cells = calls.foldl FlashCall.apply before.cells ∧
      ∀ done inside, ∃ sight,
        ((FlashCall.cut calls done inside).foldl FlashCall.apply before.cells).sight? offset =
          some sight ∧
        (before.cells.sight? offset = some sight ∨ after.cells.sight? offset = some sight) := by
  intro before after
  have tidy := running.tidy
  have inside := tidy.ready.inside
  obtain rfl := tidy.place
  let memory : Engine CommitStore :=
    { catalog := e.catalog.over { image := e.catalog.store.image }, board := e.board }
  obtain ⟨-, ⟨follows, -⟩, -⟩ := errand.tracks_perform (FlashStore.follows_alike e.catalog.store) e
    memory ⟨.of_store (tidy.follows calm), rfl⟩
  have sized : memory.catalog.Sized := tidy.ready.length
  obtain ⟨images, commits, shown⟩ := Errand.perform_commits sized errand
  have flushed : (errand.perform memory).2.catalog.store.commits = images := commits
  obtain ⟨calls, made⟩ := follows.made
  have last := follows.last
  rw [flushed] at made last
  refine ⟨calls, made.journal, made.cells, fun done cutAt => ⟨_, Cells.sight?_eq inside _, ?_⟩⟩
  rw [Cells.sight?_eq inside, Cells.sight?_eq inside]
  rcases List.mem_cons.mp (made.cut done cutAt) with old | new
  · exact .inl (by rw [old])
  · -- All that has been flushed shows the same, and what is found in the end is one of it.
    have final : after.cells.image e.catalog.store.offset ∈ images := by
      rw [List.getLast?_cons_of_ne_nil (List.ne_nil_of_mem new)] at last
      exact List.mem_of_getLast? last
    exact .inr (by rw [shown _ final, shown _ new])

/-- A reset strikes while the manual program is written that takes the place of the erased one. -/
theorem all_or_nothing_manual_erased :
    ∃ store, FlashStore.load imageSize 0 {} = (.ok store, {}) ∧
      let e : Engine FlashStore := Engine.ofStore store (.resting false)
      let before := e.catalog.store.chip
      let after := (Errand.perform (.shelf (.erase manualSlot)) e).2.catalog.store.chip
      Running 0 e ∧ before.faults = [] ∧
        ∃ calls, after.journal = before.journal ++ calls ∧ ∀ inside, ∃ sight,
          ((FlashCall.cut calls 4 (some inside)).foldl FlashCall.apply before.cells).sight? 0 =
            some sight ∧
          (before.cells.sight? 0 = some sight ∨ after.cells.sight? 0 = some sight) := by
  have fits : FlashStore.fits imageSize 0 = true := by decide
  obtain ⟨store, opened, tidy, calm, -⟩ := FlashStore.load_calm fits {} rfl
  have still := FlashStore.calm_ofStore tidy calm (.resting false)
  have running : Running 0 (Engine.ofStore store (.resting false)) := .start _ opened
  obtain ⟨calls, journal, -, cut⟩ := all_or_nothing running still (.shelf (.erase manualSlot))
  exact ⟨store, opened, running, still, calls, journal, fun inside => cut 4 (some inside)⟩

end Running

end RelayTimer
