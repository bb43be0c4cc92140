import RelayTimer.Proofs.AlikeStores

set_option autoImplicit false

/-!
What is left when something that was done with the stored programs ends in an error. Pages are
written one by one and none is taken back, so the record at hand may be lost or be there already;
all else is as before.
-/
namespace RelayTimer

open Fallible (image Reads)

namespace Catalog

variable {σ : Type} [ByteStore σ] [Fallible σ] {c after : Catalog σ} {slot : Nat}
  {error : StoreError}

/-- The catalog once its store works again: what can be read is in memory. -/
def inMemory (c : Catalog σ) : Catalog RamStore :=
  { store := { image := image c.store }
    occupied := c.occupied
    autostart := c.autostart
    lastUsed := c.lastUsed
    selected := c.selected }

/-- The text of a slot, as it is read once the store works again. -/
def savedText (c : Catalog σ) (slot : Nat) : Option String := (programText slot c.inMemory).1

theorem savedText_eq (c : Catalog σ) (slot : Nat) :
    c.savedText slot = if c.isOccupied slot then c.readable.shelf.texts slot else none := by
  have done : readRecord slot c.inMemory = (_, _) := rfl
  have read := (readRecord_cases done).2.2.2 trivial
  have same : c.inMemory.isOccupied slot = c.isOccupied slot := rfl
  unfold savedText programText
  change ((if c.inMemory.isOccupied slot then _ else _ :
    StateM (Catalog RamStore) (Option String)) c.inMemory).1 = _
  rw [same]
  split
  · exact congrArg (Option.map Record.text) read
  · rfl

/-- What may become of the text of a slot when something is done that fails. -/
inductive Harm (c : Catalog σ) (slot : Nat) : ShelfOp → Option String → Prop
  | erased : c.Harm slot (.erase slot) none
  | written (text : String) : c.Harm slot (.write slot text) (some (storedText text))
  /-- The first page is that of the new record, the second one that of the old one. -/
  | halfWritten (text : String) (old : List UInt8)
      (was : Image.slot? (image c.store) slot = some old) :
      c.Harm slot (.write slot text)
        ((Record.decode? ((Record.ofText text (c.flagsOf slot).1 (c.flagsOf slot).2).encode.take
          pageSize ++ old.drop pageSize)).map Record.text)
  /-- Nothing is said of the text of a record whose flag was being changed. -/
  | unmarked (d : Designation) (next : Option Nat) (had : c.designated d = some slot)
      (saved : Option String) : c.Harm slot (.designate d next) saved
  | marked (d : Designation) (saved : Option String) : c.Harm slot (.designate d (some slot)) saved

/-- All texts are as before, or all but that of one slot which held a program. -/
def Spared (c after : Catalog σ) (op : ShelfOp) : Prop :=
  (∀ s, after.savedText s = c.savedText s) ∨
  ∃ slot < slotCount, c.isOccupied slot ∧ c.Harm slot op (after.savedText slot) ∧
    ∀ other, other ≠ slot → after.savedText other = c.savedText other

theorem Spared.of_others {op : ShelfOp} (occupied : after.occupied = c.occupied)
    (others : ∀ other, other ≠ slot →
      after.readable.shelf.texts other = c.readable.shelf.texts other)
    (here : after.readable.shelf.texts slot = c.readable.shelf.texts slot ∨
      c.Harm slot op (after.readable.shelf.texts slot)) : c.Spared after op := by
  have same (s : Nat) : after.isOccupied s = c.isOccupied s := by
    simp only [isOccupied, occupied]
  have kept (s : Nat) (text : after.readable.shelf.texts s = c.readable.shelf.texts s) :
      after.savedText s = c.savedText s := by
    rw [savedText_eq, savedText_eq, same, text]
  by_cases unharmed : after.savedText slot = c.savedText slot
  · left
    intro s
    by_cases this : s = slot
    · rw [this]
      exact unharmed
    · exact kept s (others s this)
  · -- Only a text of an occupied slot can be seen to change: none is read anywhere else.
    have harm : c.Harm slot op (after.readable.shelf.texts slot) :=
      here.resolve_left fun text => unharmed (kept slot text)
    rw [savedText_eq, savedText_eq, same] at unharmed
    have there : c.isOccupied slot = true := by
      cases held : c.isOccupied slot with
      | true => rfl
      | false =>
          rw [held] at unharmed
          exact absurd rfl unharmed
    have isSlot : slot < slotCount := by
      rcases Nat.lt_or_ge slot slotCount with isSlot | beyond
      · exact isSlot
      · have absent (c : Catalog σ) : c.readable.records slot = none := if_neg (by omega)
        simp only [Ledger.shelf, absent] at unharmed
        exact absurd trivial unharmed
    refine .inr ⟨slot, isSlot, there, ?_, fun other apart => kept other (others other apart)⟩
    rw [savedText_eq, same, if_pos there]
    exact harm

/-- The texts that can be read, be their slots occupied or not. -/
theorem readable_texts (c : Catalog σ) (s : Nat) :
    c.readable.shelf.texts s = (Image.record? (image c.store) s).map Record.text := rfl

theorem texts_other {bytes : List UInt8} {answer : Except StoreError Unit}
    (rewritten : Image.Rewritten slot bytes (image c.store) (image after.store) answer)
    {other : Nat} (apart : other ≠ slot) :
    after.readable.shelf.texts other = c.readable.shelf.texts other := by
  rw [readable_texts, readable_texts, rewritten.record?_other apart]

theorem Quiet.spared {bytes : List UInt8} {op : ShelfOp} (quiet : Quiet c after)
    (whole : bytes.length = recordSize)
    (rewritten : Image.Rewritten slot bytes (image c.store) (image after.store) (.error error))
    (new : c.Harm slot op ((Record.decode? bytes).map Record.text))
    (half : ∀ old, Image.slot? (image c.store) slot = some old → c.Harm slot op
      ((Record.decode? (bytes.take pageSize ++ old.drop pageSize)).map Record.text)) :
    c.Spared after op := by
  refine Spared.of_others (by rw [quiet.same]) (fun _ => texts_other rewritten) ?_
  rw [readable_texts]
  rcases rewritten.record?_here whole with same | ⟨old, read, written | ⟨-, mixed⟩⟩
  · rw [same]
    exact .inl rfl
  · rw [written]
    exact .inr new
  · rw [mixed]
    exact .inr (half old read)

/-- A record whose flags are written anew keeps its text, or is none if that fails. -/
theorem text_reflagged {r : Record} (there : c.readable.records slot = some r)
    {answer : Except StoreError Unit}
    (rewritten : Image.Rewritten slot (c.readable.reflag slot r).encode (image c.store)
      (image after.store) answer) :
    after.readable.shelf.texts slot = c.readable.shelf.texts slot ∨
      (∃ failure, answer = .error failure) ∧ after.readable.shelf.texts slot = none := by
  have before : c.readable.shelf.texts slot = some r.text := congrArg (Option.map Record.text) there
  rw [readable_texts]
  rcases rewritten.record?_here (Record.length_encode _) with same | ⟨old, read, written | mixed⟩
  · rw [same]
    exact .inl rfl
  · rw [written, Record.decode?_encode, before]
    exact .inl rfl
  · obtain ⟨failed, mixed⟩ := mixed
    obtain ⟨-, bytes, was, decoded⟩ := Image.of_record? there
    rw [read] at was
    cases was
    rw [mixed]
    -- The text is the same on both sides of the page boundary, so the two pages make a record with
    -- that text if the old checksum fits the new flags, and none otherwise.
    cases half : Record.decode? ((c.readable.reflag slot r).encode.take pageSize ++
        old.drop pageSize) with
    | none => exact .inr ⟨failed, rfl⟩
    | some both =>
        left
        rw [before, Option.map_some,
          Record.text_of_half decoded (c.readable.reflag slot r) rfl half]

/-- To bring flags up to date leaves all texts, but for that of the slot if it fails. -/
theorem texts_refreshFlags {answer : Except StoreError Unit}
    (done : refreshFlags slot c = (answer, after)) :
    (∀ s, after.readable.shelf.texts s = c.readable.shelf.texts s) ∨
      (∃ failure, answer = .error failure) ∧ after.readable.shelf.texts slot = none ∧
        ∀ other, other ≠ slot →
          after.readable.shelf.texts other = c.readable.shelf.texts other := by
  obtain ⟨-, ⟨-, kept, -⟩ | ⟨r, there, -, rewritten⟩⟩ := refreshFlags_cases done
  · left
    intro s
    rw [readable_texts, readable_texts, kept]
  · rcases text_reflagged there rewritten with here | ⟨failed, lost⟩
    · left
      intro s
      by_cases this : s = slot
      · rw [this]
        exact here
      · exact texts_other rewritten this
    · exact .inr ⟨failed, lost, fun _ => texts_other rewritten⟩

theorem texts_refreshAll {slots : List Nat} {answer : Except StoreError Unit}
    (done : refreshAll slots c = (answer, after)) :
    (∀ s, after.readable.shelf.texts s = c.readable.shelf.texts s) ∨
      ∃ slot ∈ slots, after.readable.shelf.texts slot = none ∧
        ∀ other, other ≠ slot →
          after.readable.shelf.texts other = c.readable.shelf.texts other := by
  induction slots generalizing c with
  | nil =>
      obtain ⟨quiet, kept, -⟩ := flush_cases done
      left
      intro s
      rw [quiet.readable, kept]
      rfl
  | cons slot rest ih =>
      rcases StoreCall.bind_cases done with ⟨_, failed, -⟩ | ⟨_, mid, refreshed, later⟩
      · rcases texts_refreshFlags failed with same | ⟨-, lost, others⟩
        · exact .inl same
        · exact .inr ⟨slot, List.mem_cons_self, lost, others⟩
      · rcases texts_refreshFlags refreshed with same | ⟨⟨_, impossible⟩, -⟩
        · have back : mid.readable.shelf.texts = c.readable.shelf.texts := funext same
          rcases ih later with kept | ⟨other, member, lost, others⟩
          · exact .inl fun s => (kept s).trans (same s)
          · rw [back] at others
            exact .inr ⟨other, List.mem_cons_of_mem _ member, lost, others⟩
        · cases impossible

section unflushed

variable {τ : Type} [ByteStore τ] {k : Catalog τ}

variable [Faultless τ] (sized : k.Sized)

include sized

end unflushed

end Catalog

namespace Engine

variable {σ : Type}

variable [ByteStore σ] {e after : Engine σ} {op : ShelfOp}

variable [Fallible σ]

end Engine

namespace Catalog

end Catalog

end RelayTimer
