import RelayTimer.Proofs.CatalogCalls

set_option autoImplicit false

/-!
An engine on a store that never fails does with the stored programs what is to be done on the
shelf, and a reset is not noticed there.
-/
namespace RelayTimer

variable {σ : Type}

namespace Engine

theorem onStorage_apply {α : Type} {e : Engine σ} {call : StoreCall (Catalog σ) α}
    {answer : Except StoreError α} {after : Catalog σ} (done : call e.catalog = (answer, after)) :
    (onStorage call).run e = (answer, { e with catalog := after }) := by
  change (match call e.catalog with | (answer, catalog) => (answer, { e with catalog })) = _
  rw [done]

variable [ByteStore σ]

/-- Does something with the stored programs. -/
def perform (op : ShelfOp) : StateM (Engine σ) (Except StoreError Unit) :=
  match op with
  | .scan => do
    onCatalog Catalog.scan
    return .ok ()
  | .write slot text => (onStorage (Catalog.write slot text)).run
  | .erase slot => (onStorage (Catalog.erase slot)).run
  | .designate d slot => (onStorage (Catalog.reassign d slot)).run
  | .select slot => do
    modify fun e => { e with catalog := e.catalog.select slot }
    return .ok ()
  | .load slot => do
    load slot
    return .ok ()

/-- Does one thing after another, and gathers the answers. -/
def performAll : List ShelfOp → Engine σ → List (Except StoreError Unit) × Engine σ
  | [], e => ([], e)
  | op :: rest, e =>
    let (answer, e) := perform op e
    let (answers, e) := performAll rest e
    (answer :: answers, e)

end Engine

variable [ByteStore σ] [Faultless σ]

/-- The stored programs are those on a shelf, and what is remembered of them agrees with the
records. -/
structure Catalog.Holds (c : Catalog σ) (h : Shelf) : Prop where
  sized : c.Sized
  agrees : c.ledger.Agrees
  shelf : c.ledger.shelf = h

namespace Catalog.Holds

variable {c : Catalog σ} {h : Shelf}

/-- Where there is a text there is a record. -/
theorem isSome_records (holds : c.Holds h) (slot : Nat) :
    (c.ledger.records slot).isSome = (h.texts slot).isSome := by
  rw [← holds.shelf, Ledger.isSome_texts]

theorem isOccupied (holds : c.Holds h) (slot : Nat) :
    c.isOccupied slot = (h.texts slot).isSome :=
  (holds.agrees.occupied slot).trans (holds.isSome_records slot)

theorem designated (holds : c.Holds h) (d : Designation) : c.designated d = h.designated d := by
  rw [← holds.shelf]
  cases d <;> rfl

theorem selected (holds : c.Holds h) : c.selected = h.selected := by
  rw [← holds.shelf]
  rfl

/-- A catalog whose ledger has been written to. -/
theorem write (holds : c.Holds h) {slot : Nat} (isSlot : slot < slotCount) (text : String)
    {after : Catalog σ} (sized : after.Sized) (ledger : after.ledger = c.ledger.write slot text) :
    after.Holds (h.step (.write slot text)) := by
  refine ⟨sized, ?_, ?_⟩
  · rw [ledger]
    exact holds.agrees.write isSlot text
  · rw [ledger, Ledger.shelf_write, holds.shelf]
    simp only [Shelf.step, isSlot, ↓reduceIte]

theorem erase (holds : c.Holds h) {slot : Nat} (isSlot : slot < slotCount) {after : Catalog σ}
    (sized : after.Sized) (ledger : after.ledger = c.ledger.erase slot) :
    after.Holds (h.step (.erase slot)) := by
  refine ⟨sized, ?_, ?_⟩
  · rw [ledger]
    exact holds.agrees.erase slot
  · rw [ledger, Ledger.shelf_erase, holds.shelf]
    simp only [Shelf.step, isSlot, ↓reduceIte]

theorem reassign (holds : c.Holds h) {d : Designation} {slot : Option Nat}
    (admitted : h.Admits (.designate d slot)) {after : Catalog σ} (sized : after.Sized)
    (ledger : after.ledger = c.ledger.reassign d slot) :
    after.Holds (h.step (.designate d slot)) := by
  refine ⟨sized, ?_, ?_⟩
  · rw [ledger]
    apply holds.agrees.reassign
    intro s marked
    rw [holds.isSome_records]
    exact admitted s marked
  · rw [ledger, Ledger.shelf_reassign, holds.shelf]
    rfl

theorem select (holds : c.Holds h) {slot : Option Nat} (admitted : h.Admits (.select slot)) :
    (c.select slot).Holds (h.step (.select slot)) := by
  refine ⟨holds.sized, ⟨?_, holds.agrees.manual, ?_⟩, ?_⟩
  · obtain ⟨slots, occupied, flag, designated⟩ := holds.agrees.toCoherent
    refine ⟨slots, occupied, ?_, ?_⟩
    · intro d
      cases d
      · exact flag .autostart
      · exact flag .lastUsed
    · intro d
      cases d
      · exact designated .autostart
      · exact designated .lastUsed
  · intro s selected
    exact (holds.isSome_records s).trans (admitted s selected)
  · rw [← holds.shelf]
    rfl

theorem scan (holds : c.Holds h) {after : Catalog σ} (sized : after.Sized)
    (ledger : after.ledger = c.ledger.scan) : after.Holds h := by
  refine ⟨sized, ?_, ?_⟩
  · rw [ledger]
    exact .scan holds.agrees.slots holds.agrees.selected
  · rw [ledger, Ledger.shelf_scan, holds.agrees.ofRecords, ← holds.shelf]
    rfl

/-- The catalog of a store: its shelf is what the records say. -/
theorem ofStore (store : σ) (sized : (Faultless.image store).length = imageSize) :
    (Catalog.ofStore store).Holds (Shelf.ofRecords (Image.record? (Faultless.image store))) := by
  obtain ⟨after, done, sizedAfter, ledger⟩ := leaves_scan (c := { store }) sized
  have found : Catalog.ofStore store = after := congrArg Prod.snd done
  rw [found]
  refine ⟨sizedAfter, ?_, ?_⟩
  · rw [ledger]
    apply Ledger.Agrees.scan
    · exact lt_of_record { store }
    · intro s selected
      cases selected
  · rw [ledger, Ledger.shelf_scan]
    rfl

/-- A catalog that is set up anew on the same store finds all but the selection. -/
theorem reset (holds : c.Holds h) :
    (Catalog.ofStore c.store).Holds { h with selected := none } := by
  have found := ofStore c.store holds.sized
  rw [← holds.shelf, ← holds.agrees.ofRecords]
  exact found

end Catalog.Holds

namespace Engine

open Catalog (Holds)

variable {e : Engine σ} {h : Shelf}

/-- To load a program plays it, or the fail-safe one, and leaves the stored programs. -/
theorem load_apply (holds : e.catalog.Holds h) (slot : Nat) :
    ∃ after, load slot e = ((), after) ∧ after.catalog.Holds h ∧
      after.board = e.board.play ((h.program? slot).getD Program.failSafe) := by
  obtain ⟨catalog, done, sized, ledger⟩ :=
    Catalog.leaves_program? holds.sized holds.agrees.toCoherent slot
  have found : onCatalog (Catalog.program? slot) e = (h.program? slot, { e with catalog }) := by
    rw [← holds.shelf]
    simp only [onCatalog, StateT.run, done]
  refine ⟨{ catalog, board := e.board.play ((h.program? slot).getD Program.failSafe) }, ?_, ?_, rfl⟩
  · change (match onCatalog (Catalog.program? slot) e with
      | (program, e) => ((), e.onBoard (·.play (program.getD Program.failSafe)))) = _
    rw [found]
    rfl
  · refine ⟨sized, ?_, ?_⟩
    · rw [ledger]
      exact holds.agrees
    · rw [ledger]
      exact holds.shelf

/-- What is done leads to the shelf that it should, with the answer that it should. -/
theorem perform_apply (holds : e.catalog.Holds h) {op : ShelfOp} (admitted : h.Admits op) :
    ∃ after, perform op e = (op.answer, after) ∧ after.catalog.Holds (h.step op) := by
  cases op with
  | scan =>
      obtain ⟨after, done, sized, ledger⟩ := Catalog.leaves_scan holds.sized
      refine ⟨{ e with catalog := after }, ?_, holds.scan sized ledger⟩
      change (match Catalog.scan e.catalog with
        | ((), catalog) => (Except.ok (), { e with catalog })) = _
      rw [done]
      rfl
  | write slot text =>
      rcases Nat.lt_or_ge slot slotCount with isSlot | beyond
      · obtain ⟨after, done, sized, ledger⟩ := Catalog.leaves_write holds.sized isSlot text
        have answer : (ShelfOp.write slot text).answer = .ok () := if_pos isSlot
        refine ⟨{ e with catalog := after }, ?_, holds.write isSlot text sized ledger⟩
        rw [answer]
        exact onStorage_apply done
      · have noSlot : ¬ slot < slotCount := by omega
        have answer : (ShelfOp.write slot text).answer = .error .outOfRange := if_neg noSlot
        have same : h.step (.write slot text) = h := if_neg noSlot
        refine ⟨e, ?_, by rw [same]; exact holds⟩
        rw [answer]
        exact onStorage_apply (Catalog.write_beyond e.catalog beyond text)
  | erase slot =>
      rcases Nat.lt_or_ge slot slotCount with isSlot | beyond
      · obtain ⟨after, done, sized, ledger⟩ := Catalog.leaves_erase holds.sized isSlot
        have answer : (ShelfOp.erase slot).answer = .ok () := if_pos isSlot
        refine ⟨{ e with catalog := after }, ?_, holds.erase isSlot sized ledger⟩
        rw [answer]
        exact onStorage_apply done
      · have noSlot : ¬ slot < slotCount := by omega
        have answer : (ShelfOp.erase slot).answer = .error .outOfRange := if_neg noSlot
        have same : h.step (.erase slot) = h := if_neg noSlot
        refine ⟨e, ?_, by rw [same]; exact holds⟩
        rw [answer]
        exact onStorage_apply (Catalog.erase_beyond e.catalog beyond)
  | designate d slot =>
      have inside : ∀ s ∈ slot, s < slotCount := by
        intro s marked
        apply Catalog.lt_of_record e.catalog
        rw [holds.isSome_records]
        exact admitted s marked
      obtain ⟨after, done, sized, ledger⟩ := Catalog.leaves_reassign holds.sized d slot inside
      exact ⟨{ e with catalog := after }, onStorage_apply done,
        holds.reassign admitted sized ledger⟩
  | select slot =>
      exact ⟨{ e with catalog := e.catalog.select slot }, rfl, holds.select admitted⟩
  | load slot =>
      obtain ⟨after, done, kept, -⟩ := load_apply holds slot
      refine ⟨after, ?_, kept⟩
      change (match load slot e with | ((), after) => (Except.ok (), after)) = _
      rw [done]
      rfl

theorem performAll_apply {ops : List ShelfOp} (holds : e.catalog.Holds h)
    (admitted : h.AdmitsAll ops) :
    ∃ after, performAll ops e = (ops.map ShelfOp.answer, after) ∧
      after.catalog.Holds (ops.foldl Shelf.step h) := by
  induction ops generalizing e h with
  | nil => exact ⟨e, rfl, holds⟩
  | cons op rest ih =>
      obtain ⟨mid, done, held⟩ := perform_apply holds admitted.1
      obtain ⟨after, doneLater, heldLater⟩ := ih held admitted.2
      refine ⟨after, ?_, heldLater⟩
      simp only [performAll, done, doneLater, List.map_cons]

/-- Whatever is in the store at first, and whatever is done then: there are the texts, the marks and
the selection that are to be on the shelf, all answers are as they should be, and what is remembered
agrees with the records in the store. A slot has the program that its text is, and plays it. An
engine that is set up anew on the same store finds the same, but for the selection. -/
theorem refines_shelf {store : σ} (sized : (Faultless.image store).length = imageSize)
    (relay : RelayOutput) {ops : List ShelfOp}
    (admitted : (Shelf.ofRecords (Image.record? (Faultless.image store))).AdmitsAll ops) :
    let start := Shelf.ofRecords (Image.record? (Faultless.image store))
    let h := ops.foldl Shelf.step start
    (ofStore store relay).catalog.Holds start ∧
    ∃ e, performAll ops (ofStore store relay) = (ops.map ShelfOp.answer, e) ∧
      e.catalog.Holds h ∧
      (∀ slot, e.catalog.isOccupied slot = (h.texts slot).isSome ∧
        (Catalog.programText slot e.catalog).1 = h.texts slot ∧
        ∃ after, load slot e = ((), after) ∧ after.catalog.Holds h ∧
          after.board = e.board.play ((h.program? slot).getD Program.failSafe)) ∧
      ∀ other, (ofStore e.catalog.store other).catalog.Holds { h with selected := none } ∧
        ∀ slot, (ofStore e.catalog.store other).catalog.isOccupied slot =
          e.catalog.isOccupied slot := by
  intro start h
  have begun : (ofStore store relay).catalog.Holds start := Holds.ofStore store sized
  obtain ⟨e, done, holds⟩ := performAll_apply begun admitted
  refine ⟨begun, e, done, holds, ?_, ?_⟩
  · intro slot
    refine ⟨holds.isOccupied slot, ?_, load_apply holds slot⟩
    obtain ⟨after, read, -⟩ :=
      Catalog.leaves_programText holds.sized holds.agrees.toCoherent slot
    rw [read]
    exact congrArg (Shelf.texts · slot) holds.shelf
  · intro other
    refine ⟨holds.reset, ?_⟩
    intro slot
    exact (holds.reset.isOccupied slot).trans (holds.isOccupied slot).symm

/-- The mark to play at the start goes from a program that is erased then to another one. -/
theorem refines_shelf_mark_moves :
    let store : RamStore := { image := Image.erased imageSize }
    let ops := [.write 3 "o 1s", .write 4 "c 2s", .designate .autostart (some 3),
      .designate .autostart (some 4), .select (some 3), .erase 3, .load 4]
    (Faultless.image store).length = imageSize ∧
    (Shelf.ofRecords (Image.record? (Faultless.image store))).AdmitsAll ops ∧
    ∀ relay, ∃ e, performAll ops (ofStore store relay) = (ops.map ShelfOp.answer, e) ∧
      e.catalog.designated .autostart = some 4 ∧ e.catalog.selected = some manualSlot ∧
      e.catalog.isOccupied 3 = false ∧
      (ofStore e.catalog.store relay).catalog.designated .autostart = some 4 := by
  intro store ops
  have sized : (Faultless.image store).length = imageSize := List.length_replicate
  have admitted : (Shelf.ofRecords (Image.record? (Faultless.image store))).AdmitsAll ops := by
    simp [ops, Shelf.AdmitsAll, Shelf.Admits, Shelf.step, Shelf.put, Shelf.designate, slotCount]
  refine ⟨sized, admitted, ?_⟩
  intro relay
  obtain ⟨-, e, done, holds, slots, again⟩ := refines_shelf sized relay admitted
  refine ⟨e, done, ?_, ?_, ?_, ?_⟩
  · exact holds.designated .autostart
  · exact holds.selected
  · rw [(slots 3).1]
    simp [ops, Shelf.step, Shelf.erase, slotCount, manualSlot]
  · exact (again relay).1.designated .autostart

end Engine

end RelayTimer
