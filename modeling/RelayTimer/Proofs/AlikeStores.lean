import RelayTimer.Proofs.CatalogFaults

set_option autoImplicit false

/-!
Stores that answer alike: whatever is done with the programs in one of them is answered as it would
be with those in the other one.
-/
namespace RelayTimer

/-- Two calls that give the same answer on related states and leave them related. -/
def Tracks {S T α : Type} (R : S → T → Prop) (call : S → α × S) (other : T → α × T) : Prop :=
  ∀ s t, R s t → (call s).1 = (other t).1 ∧ R (call s).2 (other t).2

namespace Tracks

variable {S T α β : Type} {R : S → T → Prop}

/-- The related states that two calls leave, next to their answer. -/
theorem apply {call : S → α × S} {other : T → α × T} (tracks : Tracks R call other) {s : S} {t : T}
    (related : R s t) : ∃ a s' t', call s = (a, s') ∧ other t = (a, t') ∧ R s' t' := by
  obtain ⟨same, kept⟩ := tracks s t related
  exact ⟨(call s).1, (call s).2, (other t).2, rfl, by rw [same], kept⟩

theorem of_apply {call : S → α × S} {other : T → α × T}
    (does : ∀ s t, R s t → ∃ a s' t', call s = (a, s') ∧ other t = (a, t') ∧ R s' t') :
    Tracks R call other := by
  intro s t related
  obtain ⟨a, s', t', left, right, kept⟩ := does s t related
  rw [left, right]
  exact ⟨rfl, kept⟩

theorem pure (a : α) : Tracks R (Pure.pure a : StoreCall S α) (Pure.pure a : StoreCall T α) :=
  fun _ _ related => ⟨rfl, related⟩

theorem throw (error : StoreError) :
    Tracks R (throw error : StoreCall S α) (throw error : StoreCall T α) :=
  fun _ _ related => ⟨rfl, related⟩

theorem modify {change : S → S} {other : T → T} (keeps : ∀ s t, R s t → R (change s) (other t)) :
    Tracks R (modify change : StoreCall S Unit) (modify other : StoreCall T Unit) :=
  fun s t related => ⟨rfl, keeps s t related⟩

theorem bind {call : StoreCall S α} {other : StoreCall T α} {next : α → StoreCall S β}
    {later : α → StoreCall T β} (first : Tracks R call other)
    (second : ∀ a, Tracks R (next a) (later a)) :
    Tracks R (call >>= next) (other >>= later) := by
  intro s t related
  obtain ⟨answer, s', t', left, right, kept⟩ := first.apply related
  rw [StoreCall.bind_apply, StoreCall.bind_apply, left, right]
  cases answer with
  | error error => exact ⟨rfl, kept⟩
  | ok a => exact second a s' t' kept

/-- What comes after a look at the states may depend on what is seen of them. -/
theorem get_bind {next : S → StoreCall S α} {later : T → StoreCall T α}
    (second : ∀ s t, R s t → Tracks R (next s) (later t)) :
    Tracks R (get >>= next) (get >>= later) :=
  fun s t related => second s t related s t related

theorem always {step : StateM S α} {other : StateM T α} (tracks : Tracks R step other) :
    Tracks R (StoreCall.always step) (StoreCall.always other) := by
  intro s t related
  obtain ⟨same, kept⟩ := tracks s t related
  exact ⟨congrArg Except.ok same, kept⟩

section steps

variable {step : StateM S α} {other : StateM T α} {next : α → StateM S β} {later : α → StateM T β}

theorem done (a : α) : Tracks R (Pure.pure a : StateM S α) (Pure.pure a : StateM T α) :=
  fun _ _ related => ⟨rfl, related⟩

/-- A step after another one, where neither can fail. -/
theorem «then» (first : Tracks R step other) (second : ∀ a, Tracks R (next a) (later a)) :
    Tracks R (step >>= next) (other >>= later) := by
  intro s t related
  obtain ⟨same, kept⟩ := first s t related
  have followed := second (step s).1 _ _ kept
  rw [same] at followed
  change (next (step s).1 (step s).2).1 = (later (other t).1 (other t).2).1 ∧
    R (next (step s).1 (step s).2).2 (later (other t).1 (other t).2).2
  rw [same]
  exact followed

theorem get_then {next : S → StateM S α} {later : T → StateM T α}
    (second : ∀ s t, R s t → Tracks R (next s) (later t)) :
    Tracks R (get >>= next) (get >>= later) :=
  fun s t related => second s t related s t related

end steps

end Tracks

variable {σ τ : Type}

/-- The catalog with another store in the place of its own. -/
def Catalog.over (c : Catalog σ) (store : τ) : Catalog τ :=
  { store
    occupied := c.occupied
    autostart := c.autostart
    lastUsed := c.lastUsed
    selected := c.selected }

/-- Two catalogs that remember the same and whose stores are related. -/
def Catalog.Like (R : σ → τ → Prop) (c : Catalog σ) (k : Catalog τ) : Prop :=
  R c.store k.store ∧ k = c.over k.store

/-- What is read from two related stores is the same. -/
structure ReadsAlike [ByteStore σ] [ByteStore τ] (R : σ → τ → Prop) : Prop where
  readAt (offset length : Nat) :
    Tracks R (ByteStore.readAt offset length : StoreCall σ (List UInt8))
      (ByteStore.readAt offset length : StoreCall τ (List UInt8))

/-- Two related stores give the same answers until they are flushed. -/
structure PagesAlike [ByteStore σ] [ByteStore τ] (R : σ → τ → Prop) : Prop
    extends ReadsAlike R where
  writePage (page : Nat) (data : List UInt8) :
    Tracks R (ByteStore.writePage page data : StoreCall σ Unit)
      (ByteStore.writePage page data : StoreCall τ Unit)
  erasePage (page : Nat) :
    Tracks R (ByteStore.erasePage page : StoreCall σ Unit)
      (ByteStore.erasePage page : StoreCall τ Unit)

/-- Two related stores give the same answers whatever is done with them. -/
structure Alike [ByteStore σ] [ByteStore τ] (R : σ → τ → Prop) : Prop extends PagesAlike R where
  flush : Tracks R (ByteStore.flush : StoreCall σ Unit) (ByteStore.flush : StoreCall τ Unit)

namespace FaultyStore

/-- A device that fails so, and the store behind it. -/
def Behind (faults : List Fault) (f : FaultyStore σ) (s : σ) : Prop := f = { store := s, faults }

variable {faults : List Fault}

/-- A call that no fault is for. -/
theorem tracks_guarded {α : Type} {kind : CallKind}
    (free : Fault.consult kind faults = (false, faults)) (call : StoreCall σ α) :
    Tracks (Behind faults) (guarded kind call) call := by
  rintro _ s rfl
  simp only [guarded, free]
  exact ⟨rfl, rfl⟩

variable [ByteStore σ]

theorem readsAlike (read : Fault.consult .read faults = (false, faults)) :
    ReadsAlike (Behind (σ := σ) faults) where
  readAt _ _ := tracks_guarded read _

theorem pagesAlike (read : Fault.consult .read faults = (false, faults))
    (write : Fault.consult .write faults = (false, faults))
    (erase : Fault.consult .erase faults = (false, faults)) :
    PagesAlike (Behind (σ := σ) faults) where
  toReadsAlike := readsAlike read
  writePage _ _ := tracks_guarded write _
  erasePage _ := tracks_guarded erase _

/-- A device that refuses no call any more. -/
theorem alike (free : ∀ kind, Fault.consult kind faults = (false, faults)) :
    Alike (Behind (σ := σ) faults) where
  toPagesAlike := pagesAlike (free _) (free _) (free _)
  flush := tracks_guarded (free _) _

end FaultyStore

namespace Catalog

variable {R : σ → τ → Prop}

theorem Like.of_store {c : Catalog σ} {t : τ} (related : R c.store t) : Like R c (c.over t) :=
  ⟨related, rfl⟩

theorem Like.cases {c : Catalog σ} {k : Catalog τ} (like : Like R c k) :
    ∃ t, R c.store t ∧ k = c.over t := ⟨k.store, like⟩

/-- What goes with a device as without it. -/
theorem behind_of_tracks {α : Type} {faults : List Fault}
    {call : Catalog (FaultyStore σ) → α × Catalog (FaultyStore σ)}
    {direct : Catalog σ → α × Catalog σ}
    (tracks : Tracks (Like (FaultyStore.Behind faults)) call direct) (c : Catalog σ) :
    call (c.behind faults) = ((direct c).1, (direct c).2.behind faults) := by
  obtain ⟨answer, after, mid, left, right, like⟩ :=
    tracks.apply (Like.of_store (c := c.behind faults) (t := c.store) rfl)
  have same : (c.behind faults).over c.store = c := rfl
  rw [same] at right
  obtain ⟨store, related, rfl⟩ := like.cases
  rw [left, right]
  obtain ⟨faulty⟩ := after
  cases related
  rfl

theorem tracks_onStore {α : Type} {call : StoreCall σ α} {other : StoreCall τ α}
    (tracks : Tracks R call other) : Tracks (Like R) (onStore call) (onStore other) := by
  intro c k like
  obtain ⟨t, related, rfl⟩ := like.cases
  obtain ⟨same, kept⟩ := tracks c.store t related
  exact ⟨same, kept, rfl⟩

variable [ByteStore σ] [ByteStore τ]

section reads

variable (alike : ReadsAlike R)

include alike

theorem tracks_readRecord (slot : Nat) :
    Tracks (Like R) (readRecord (σ := σ) slot) (readRecord (σ := τ) slot) := by
  apply Tracks.of_apply
  intro c k like
  unfold readRecord
  split
  · exact ⟨none, c, k, rfl, rfl, like⟩
  · obtain ⟨answer, c', k', left, right, kept⟩ :=
      (tracks_onStore (alike.readAt (slotOffset slot) recordSize)).apply like
    rw [left, right]
    cases answer with
    | error error => exact ⟨none, c', k', rfl, rfl, kept⟩
    | ok bytes => exact ⟨_, c', k', rfl, rfl, kept⟩

theorem tracks_readAll (slots : List Nat) :
    Tracks (Like R) (readAll (σ := σ) slots) (readAll (σ := τ) slots) := by
  induction slots with
  | nil => exact .done []
  | cons slot rest ih =>
      exact (tracks_readRecord alike slot).then fun _ => ih.then fun _ => .done _

theorem tracks_programText (slot : Nat) :
    Tracks (Like R) (programText (σ := σ) slot) (programText (σ := τ) slot) := by
  unfold programText
  apply Tracks.get_then
  intro c k like
  obtain ⟨t, -, rfl⟩ := like.cases
  have occupied : (c.over t).isOccupied slot = c.isOccupied slot := rfl
  rw [occupied]
  split
  · exact (tracks_readRecord alike slot).then fun _ => .done _
  · exact .done none

theorem tracks_program? (slot : Nat) :
    Tracks (Like R) (program? (σ := σ) slot) (program? (σ := τ) slot) := by
  unfold program?
  refine (tracks_programText alike slot).then fun text => ?_
  split <;> exact .done _

end reads

section pages

variable (alike : PagesAlike R)

include alike

theorem tracks_writeRecord (slot : Nat) (r : Record) :
    Tracks (Like R) (writeRecord (σ := σ) slot r) (writeRecord (σ := τ) slot r) :=
  tracks_onStore ((alike.writePage _ _).bind fun _ => alike.writePage _ _)

theorem tracks_refreshFlags (slot : Nat) :
    Tracks (Like R) (refreshFlags (σ := σ) slot) (refreshFlags (σ := τ) slot) := by
  unfold refreshFlags
  refine (tracks_readRecord alike.toReadsAlike slot).always.bind fun found => ?_
  cases found with
  | none => exact .pure ()
  | some r =>
      apply Tracks.get_bind
      intro c k like
      obtain ⟨t, -, rfl⟩ := like.cases
      have flags : (c.over t).flagsOf slot = c.flagsOf slot := rfl
      simp only [flags]
      split
      · exact .pure ()
      · exact tracks_writeRecord alike slot _

end pages

variable (alike : Alike R)

include alike

theorem tracks_flush : Tracks (Like R) (flush (σ := σ)) (flush (σ := τ)) :=
  tracks_onStore alike.flush

theorem tracks_write (slot : Nat) (text : String) :
    Tracks (Like R) (write (σ := σ) slot text) (write (σ := τ) slot text) := by
  unfold write
  by_cases beyond : slotCount ≤ slot
  · simp only [beyond, ↓reduceIte]
    exact .throw _
  · simp only [beyond, ↓reduceIte]
    apply Tracks.get_bind
    intro c k like
    obtain ⟨t, -, rfl⟩ := like.cases
    have written := tracks_writeRecord alike.toPagesAlike slot
    refine (written _).bind fun _ => (tracks_flush alike).bind fun _ => ?_
    apply Tracks.modify
    intro c k like
    obtain ⟨t, related, rfl⟩ := like.cases
    exact ⟨related, rfl⟩

theorem tracks_restoreManual :
    Tracks (Like R) (restoreManual (σ := σ)) (restoreManual (σ := τ)) := by
  apply Tracks.of_apply
  intro c k like
  obtain ⟨answer, c', k', left, right, kept⟩ :=
    (tracks_write alike manualSlot defaultManualText).apply like
  unfold restoreManual
  rw [left, right]
  cases answer with
  | ok => exact ⟨(), c', k', rfl, rfl, kept⟩
  | error error =>
      obtain ⟨t, related, rfl⟩ := kept.cases
      exact ⟨(), _, _, rfl, rfl, related, rfl⟩

theorem tracks_erase (slot : Nat) :
    Tracks (Like R) (erase (σ := σ) slot) (erase (σ := τ) slot) := by
  unfold erase
  by_cases beyond : slotCount ≤ slot
  · simp only [beyond, ↓reduceIte]
    exact .throw _
  · simp only [beyond, ↓reduceIte]
    have pages := (alike.erasePage (slotPage slot)).bind fun _ =>
      (alike.erasePage (slotPage slot + 1)).bind fun _ => alike.flush
    refine (tracks_onStore pages).bind fun _ => Tracks.bind (.modify ?_) fun _ => ?_
    · intro c k like
      obtain ⟨t, related, rfl⟩ := like.cases
      exact ⟨related, rfl⟩
    · split
      · exact (tracks_restoreManual alike).always
      · exact .pure ()

theorem tracks_refreshAll (slots : List Nat) :
    Tracks (Like R) (refreshAll (σ := σ) slots) (refreshAll (σ := τ) slots) := by
  induction slots with
  | nil => exact tracks_flush alike
  | cons slot rest ih => exact (tracks_refreshFlags alike.toPagesAlike slot).bind fun _ => ih

/-- The slot that takes a mark has its flags brought up to date last. -/
theorem tracks_refreshNew (slot : Option Nat) : Tracks (Like R)
    (match slot with
      | some new => do
        refreshFlags new
        flush
      | none => flush : StoreCall (Catalog σ) Unit)
    (match slot with
      | some new => do
        refreshFlags new
        flush
      | none => flush : StoreCall (Catalog τ) Unit) := by
  cases slot with
  | none => exact tracks_flush alike
  | some new => exact (tracks_refreshFlags alike.toPagesAlike new).bind fun _ => tracks_flush alike

theorem tracks_reassign (d : Designation) (slot : Option Nat) :
    Tracks (Like R) (reassign (σ := σ) d slot) (reassign (σ := τ) d slot) := by
  unfold reassign
  by_cases beyond : slot.any (slotCount ≤ ·)
  · simp only [beyond]
    exact .throw _
  · simp only [beyond]
    apply Tracks.get_bind
    intro c k like
    obtain ⟨t, -, rfl⟩ := like.cases
    have previous : (c.over t).designated d = c.designated d := by
      cases d <;> rfl
    rw [previous]
    refine Tracks.bind (.modify ?_) fun _ => ?_
    · intro c k like
      obtain ⟨t, related, rfl⟩ := like.cases
      cases d <;> exact ⟨related, rfl⟩
    · split
      · exact .pure ()
      · have last := tracks_refreshNew alike slot
        cases c.designated d with
        | none => exact last
        | some old => exact (tracks_refreshFlags alike.toPagesAlike old).bind fun _ => last

theorem tracks_scan : Tracks (Like R) (scan (σ := σ)) (scan (σ := τ)) := by
  unfold scan
  refine (tracks_readAll alike.toReadsAlike _).then fun records => ?_
  dsimp only
  refine Tracks.then ?_ fun _ => (tracks_refreshAll alike _).then fun _ => ?_
  · intro c k like
    obtain ⟨t, related, rfl⟩ := like.cases
    exact ⟨rfl, related, rfl⟩
  · split
    · exact tracks_restoreManual alike
    · exact .done ()

/-- Catalogs that are set up on stores that answer alike. -/
theorem like_ofStore {s : σ} {t : τ} (related : R s t) : Like R (ofStore s) (ofStore t) :=
  (tracks_scan alike { store := s } { store := t } ⟨related, rfl⟩).2

end Catalog

namespace Engine

variable {R : σ → τ → Prop}

/-- Two engines on related stores that remember the same and play the same. -/
def Like (R : σ → τ → Prop) (e : Engine σ) (f : Engine τ) : Prop :=
  e.catalog.Like R f.catalog ∧ f.board = e.board

theorem tracks_onCatalog {α : Type} {call : StateM (Catalog σ) α} {other : StateM (Catalog τ) α}
    (tracks : Tracks (Catalog.Like R) call other) :
    Tracks (Like R) (onCatalog call) (onCatalog other) := by
  rintro e f ⟨like, board⟩
  obtain ⟨same, kept⟩ := tracks e.catalog f.catalog like
  exact ⟨same, kept, board⟩

theorem tracks_onBoard (change : Board → Board) :
    Tracks (Like R) (modify (·.onBoard change) : StateM (Engine σ) Unit)
      (modify (·.onBoard change) : StateM (Engine τ) Unit) :=
  fun _ _ like => ⟨rfl, like.1, congrArg change like.2⟩

variable [ByteStore σ] [ByteStore τ]

theorem tracks_load (alike : ReadsAlike R) (slot : Nat) :
    Tracks (Like R) (load (σ := σ) slot) (load (σ := τ) slot) :=
  (tracks_onCatalog (Catalog.tracks_program? alike slot)).then fun _ => tracks_onBoard _

variable (alike : Alike R)

include alike

theorem tracks_perform (op : ShelfOp) :
    Tracks (Like R) (perform (σ := σ) op) (perform (σ := τ) op) := by
  cases op with
  | scan => exact (tracks_onCatalog (Catalog.tracks_scan alike)).then fun _ => .done _
  | write slot text => exact tracks_onCatalog (Catalog.tracks_write alike slot text)
  | erase slot => exact tracks_onCatalog (Catalog.tracks_erase alike slot)
  | designate d slot => exact tracks_onCatalog (Catalog.tracks_reassign alike d slot)
  | select slot =>
      rintro e f ⟨like, board⟩
      obtain ⟨t, related, same⟩ := like.cases
      refine ⟨rfl, ⟨like.1, ?_⟩, board⟩
      change f.catalog.select slot = (e.catalog.select slot).over f.catalog.store
      rw [same]
      rfl
  | load slot => exact (tracks_load alike.toReadsAlike slot).then fun _ => .done _

theorem tracks_storeManual (times : ManualTimes) :
    Tracks (Like R) (storeManual (σ := σ) times) (storeManual (σ := τ) times) :=
  Tracks.bind (tracks_onCatalog (Catalog.tracks_write alike manualSlot times.text)) fun _ =>
    (tracks_load alike.toReadsAlike manualSlot).always

end Engine

end RelayTimer
