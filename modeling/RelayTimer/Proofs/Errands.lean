import RelayTimer.Proofs.AlikeStores
import RelayTimer.Proofs.MarksFound

set_option autoImplicit false

/-!
What can be done with the stored programs, and which images are flushed on the way. Most of it
flushes once and at the end. Two things flush twice: to erase the manual program, and to look
through a store in which it is missing. The image in between then shows what the last one shows.
-/
namespace RelayTimer

/-- What is done with the stored programs: by hand, or with the manual program as times. -/
inductive Errand
  | shelf (op : ShelfOp)
  | storeManual (times : ManualTimes)
  deriving Repr, DecidableEq

namespace Errand

variable {σ τ : Type} [ByteStore σ] [ByteStore τ]

def perform : Errand → StateM (Engine σ) (Except StoreError Unit)
  | shelf op => Engine.perform op
  | storeManual times => (Engine.storeManual times).run

theorem catalog_scan (e : Engine σ) :
    (Engine.perform .scan e).2.catalog = (Catalog.scan e.catalog).2 := rfl

theorem tracks_perform {R : σ → τ → Prop} (alike : Alike R) (errand : Errand) :
    Tracks (Engine.Like R) (perform (σ := σ) errand) (perform (σ := τ) errand) := by
  cases errand with
  | shelf op => exact Engine.tracks_perform alike op
  | storeManual times => exact Engine.tracks_storeManual alike times

end Errand

/-- A store in memory that keeps the images it is flushed with, the first one first. -/
structure CommitStore where
  image : List UInt8
  commits : List (List UInt8) := []

namespace CommitStore

/-- The store after an access to a page, if the page can be had. -/
def keep (s : CommitStore) : Option (List UInt8) → Except StoreError Unit × CommitStore
  | some image => (.ok (), { s with image })
  | none => (.error .outOfRange, s)

instance : ByteStore CommitStore where
  capacity s := s.image.length
  readAt offset length := fun s =>
    match Image.read? s.image offset length with
    | some bytes => (.ok bytes, s)
    | none => (.error .outOfRange, s)
  writePage page data := fun s => s.keep (Image.writePage? s.image page data)
  erasePage page := fun s => s.keep (Image.erasePage? s.image page)
  flush := fun s => (.ok (), { s with commits := s.commits ++ [s.image] })

instance : Faultless CommitStore where
  image := CommitStore.image
  readAt s offset length bytes inside := by
    refine ⟨s, ?_, rfl⟩
    simp only [ByteStore.readAt, inside]
  writePage s page data written inside := by
    refine ⟨{ s with image := written }, ?_, rfl⟩
    simp only [ByteStore.writePage, inside, keep]
  erasePage s page written inside := by
    refine ⟨{ s with image := written }, ?_, rfl⟩
    simp only [ByteStore.erasePage, inside, keep]
  flush s := ⟨_, rfl, rfl⟩

theorem commits_keep (s : CommitStore) (written : Option (List UInt8)) :
    (s.keep written).2.commits = s.commits := by
  cases written <;> rfl

/-- To read from the store leaves it as it is. -/
theorem readsAlike {R : CommitStore → CommitStore → Prop} (same : ∀ s t, R s t → s = t) :
    ReadsAlike R := by
  constructor
  intro offset length s t related
  obtain rfl := same s t related
  have still : (ByteStore.readAt offset length s).2 = s := by
    simp only [ByteStore.readAt]
    split <;> rfl
  refine ⟨rfl, ?_⟩
  rw [still]
  exact related

/-- Nothing but a flush adds to the images that have been flushed. -/
theorem pagesAlike (commits : List (List UInt8)) :
    PagesAlike fun (s t : CommitStore) => s = t ∧ s.commits = commits := by
  have kept (written : CommitStore → Option (List UInt8)) :
      Tracks (fun (s t : CommitStore) => s = t ∧ s.commits = commits)
        (fun s => s.keep (written s)) (fun s => s.keep (written s)) := by
    rintro s _ ⟨rfl, rfl⟩
    exact ⟨rfl, rfl, s.commits_keep (written s)⟩
  exact
    { toReadsAlike := readsAlike fun _ _ related => related.1
      writePage := fun page data => kept _
      erasePage := fun page => kept _ }

end CommitStore

/-- What is on the shelf when all that there is is an image. -/
def Image.shelf (bytes : List UInt8) : Shelf := Shelf.ofRecords (Image.record? bytes)

/-- It is all the same whether the manual program is missing or is there as nobody has set it. -/
theorem Shelf.ofRecords_default {records : Nat → Option Record}
    (missing : records manualSlot = none) :
    Shelf.ofRecords (fun s =>
      if s = manualSlot then some (Record.ofText defaultManualText false false) else records s) =
        Shelf.ofRecords records := by
  have flags (d : Designation) (s : Nat) :
      (if s = manualSlot then some (Record.ofText defaultManualText false false)
        else records s).any (·.flag d) = (records s).any (·.flag d) := by
    split
    · rename_i manual
      rw [manual, missing]
      cases d <;> rfl
    · rfl
  simp only [Shelf.ofRecords, flags, Shelf.mk.injEq, and_true]
  funext s
  by_cases manual : s = manualSlot
  · simp [manual, missing, Ledger.storedText_default]
  · simp [manual]

namespace Catalog

variable {c mid after : Catalog CommitStore} {slot : Nat}

/-- Whatever has been flushed between two moments shows what the store shows in the end. -/
def Commits (c after : Catalog CommitStore) : Prop :=
  ∃ images, after.store.commits = c.store.commits ++ images ∧
    ∀ bytes ∈ images, Image.shelf bytes = Image.shelf after.store.image

theorem Commits.of_none (same : after.store.commits = c.store.commits) : c.Commits after :=
  ⟨[], by rw [same, List.append_nil], by simp⟩

/-- What is flushed last is what the store shows. -/
theorem Commits.of_last (last : after.store.commits = c.store.commits ++ [after.store.image]) :
    c.Commits after :=
  ⟨[after.store.image], last, by simp⟩

theorem Commits.trans (first : c.Commits mid) (second : mid.Commits after)
    (same : Image.shelf mid.store.image = Image.shelf after.store.image) : c.Commits after := by
  obtain ⟨early, split, shown⟩ := first
  obtain ⟨late, splitLate, shownLate⟩ := second
  refine ⟨early ++ late, by rw [splitLate, split, List.append_assoc], ?_⟩
  intro bytes member
  rcases List.mem_append.mp member with before | behind
  · exact (shown bytes before).trans same
  · exact shownLate bytes behind

/-- What goes on between two flushes. -/
theorem commits_of_pages {α : Type} {call : Catalog CommitStore → α × Catalog CommitStore}
    (tracks : ∀ commits, Tracks (Like fun (s t : CommitStore) => s = t ∧ s.commits = commits)
      call call) (c : Catalog CommitStore) : (call c).2.store.commits = c.store.commits :=
  (tracks c.store.commits c c ⟨⟨rfl, rfl⟩, rfl⟩).2.1.2

theorem commits_writeRecord (c : Catalog CommitStore) (slot : Nat) (r : Record) :
    (writeRecord slot r c).2.store.commits = c.store.commits :=
  commits_of_pages (fun commits => tracks_writeRecord (CommitStore.pagesAlike commits) slot r) c

theorem commits_refreshFlags (c : Catalog CommitStore) (slot : Nat) :
    (refreshFlags slot c).2.store.commits = c.store.commits :=
  commits_of_pages (fun commits => tracks_refreshFlags (CommitStore.pagesAlike commits) slot) c

theorem commits_readAll (c : Catalog CommitStore) (slots : List Nat) :
    (readAll slots c).2.store.commits = c.store.commits :=
  commits_of_pages
    (fun commits => tracks_readAll (CommitStore.pagesAlike commits).toReadsAlike slots) c

theorem write_commits (sized : c.Sized) (isSlot : slot < slotCount) (text : String) :
    c.Commits (write slot text c).2 := by
  have noEnd : ¬ slotCount ≤ slot := by omega
  let r := Record.ofText text (c.flagsOf slot).1 (c.flagsOf slot).2
  obtain ⟨mid, done, -⟩ := leaves_writeRecord sized isSlot r
  have kept := commits_writeRecord c slot r
  rw [done] at kept
  have written : write slot text c = (.ok (), { mid with
      store := { mid.store with commits := mid.store.commits ++ [mid.store.image] }
      occupied := mid.occupied.insert slot }) := by
    unfold write
    simp only [noEnd, ↓reduceIte]
    rw [StoreCall.get_bind, StoreCall.bind_apply, done]
    rfl
  rw [written]
  exact .of_last (by rw [← kept])

/-- The flags of some slots are brought up to date, and the end of it is flushed. -/
theorem refreshAll_commits (sized : c.Sized) (slots : List Nat) :
    c.Commits (refreshAll slots c).2 := by
  apply Commits.of_last
  induction slots generalizing c with
  | nil => rfl
  | cons slot rest ih =>
      obtain ⟨mid, done, sizedMid, -⟩ := leaves_refreshFlags sized slot
      have kept := commits_refreshFlags c slot
      have later : refreshAll (slot :: rest) c = refreshAll rest mid := by
        change (refreshFlags slot >>= fun _ => refreshAll rest) c = _
        rw [StoreCall.bind_apply, done]
      rw [done] at kept
      rw [later, ih sizedMid, kept]

/-- The manual program is written where it is missing and nothing is marked for it. -/
theorem restoreManual_commits (sized : c.Sized) (missing : c.ledger.records manualSlot = none)
    (unmarked : ∀ d, c.ledger.designated d ≠ some manualSlot) :
    c.Commits (restoreManual c).2 ∧
      Image.shelf (restoreManual c).2.store.image = Image.shelf c.store.image := by
  obtain ⟨after, done, -, ledger⟩ :=
    leaves_write sized (by decide : manualSlot < slotCount) defaultManualText
  have commits := write_commits sized (by decide : manualSlot < slotCount) defaultManualText
  have restored : restoreManual c = ((), after) := by
    simp only [restoreManual, done]
  rw [done] at commits
  rw [restored]
  refine ⟨commits, ?_⟩
  have flag (d : Designation) : (c.ledger.designated d == some manualSlot) = false :=
    beq_eq_false_iff_ne.mpr (unmarked d)
  have records : Image.record? after.store.image = fun s =>
      if s = manualSlot then some (Record.ofText defaultManualText false false)
      else c.ledger.records s := by
    have written := congrArg Ledger.records ledger
    have auto : (c.ledger.autostart == some manualSlot) = false := flag .autostart
    have last : (c.ledger.lastUsed == some manualSlot) = false := flag .lastUsed
    simp only [Ledger.write, Ledger.put, auto, last] at written
    exact written
  unfold Image.shelf
  rw [records, Shelf.ofRecords_default missing]
  rfl

theorem erasePages_commits (done : onStore (do
      ByteStore.erasePage (slotPage slot)
      ByteStore.erasePage (slotPage slot + 1)
      ByteStore.flush) c = (.ok (), after)) : c.Commits after := by
  obtain ⟨made, -⟩ := onStore_cases done
  rcases StoreCall.bind_cases made with ⟨_, -, failed⟩ | ⟨_, first, one, made⟩
  · cases failed
  rcases StoreCall.bind_cases made with ⟨_, -, failed⟩ | ⟨_, second, two, flushed⟩
  · cases failed
  have keptFirst : first.commits = c.store.commits := by
    rw [← c.store.commits_keep]
    exact congrArg (·.2.commits) one.symm
  have keptSecond : second.commits = first.commits := by
    rw [← first.commits_keep]
    exact congrArg (·.2.commits) two.symm
  have store : after.store = { second with commits := second.commits ++ [second.image] } :=
    (congrArg Prod.snd flushed).symm
  exact .of_last (by rw [store, keptSecond, keptFirst])

/-- A slot is erased; the manual program is then flushed once more as nobody has set it. -/
theorem erase_commits (sized : c.Sized) (isSlot : slot < slotCount) :
    c.Commits (erase slot c).2 := by
  have noEnd : ¬ slotCount ≤ slot := by omega
  obtain ⟨erased, done, sizedErased, ledger⟩ := leaves_erasePages sized isSlot
  have pages : c.Commits erased := erasePages_commits done
  have commits : c.Commits (erased.forget slot) := pages
  have rest : erase slot c = if slot = manualSlot
      then (.ok (), (restoreManual (erased.forget slot)).2) else (.ok (), erased.forget slot) := by
    unfold erase
    simp only [noEnd, ↓reduceIte]
    rw [StoreCall.bind_apply, done]
    dsimp only
    by_cases manual : slot = manualSlot
    · simp only [manual, ↓reduceIte]
      rfl
    · simp only [manual, ↓reduceIte]
      rfl
  rw [rest]
  split
  · rename_i manual
    have cleared : (erased.forget slot).ledger = c.ledger.clear slot := by
      rw [ledger_forget, ledger]
      rfl
    have missing : (erased.forget slot).ledger.records manualSlot = none := by
      rw [cleared, manual]
      simp only [Ledger.clear, Ledger.put, ↓reduceIte]
    have unmarked (d : Designation) :
        (erased.forget slot).ledger.designated d ≠ some manualSlot := by
      rw [cleared, Ledger.designated_clear, manual]
      split
      · simp
      · assumption
    have sizedCleared : (erased.forget slot).Sized := sizedErased
    obtain ⟨later, same⟩ := restoreManual_commits sizedCleared missing unmarked
    exact commits.trans later same.symm
  · exact commits

/-- A look through the store: the flags are settled, and then the manual program is flushed once
more where it is missing. -/
theorem scan_commits (sized : c.Sized) : c.Commits (scan c).2 := by
  obtain ⟨read, looked, sizedRead, ledger⟩ := leaves_readAll sized (List.range slotCount)
  generalize listed : (List.range slotCount).filterMap (fun s =>
    (c.ledger.records s).map fun r => (s, r)) = found at looked
  have commits : c.Commits (refreshAll (flaggedSlots found) (read.noting found)).2 := by
    have kept := commits_readAll c (List.range slotCount)
    rw [looked] at kept
    have refreshed := refreshAll_commits (c := read.noting found) sizedRead (flaggedSlots found)
    unfold Commits at refreshed ⊢
    rw [← kept]
    exact refreshed
  rw [scan_apply, looked]
  dsimp only
  split
  · exact commits
  · rename_i absent
    have missing : c.ledger.records manualSlot = none := by
      rw [← listed, slots_of_all, contains_slots _ (by decide)] at absent
      simpa using absent
    obtain ⟨settled, refreshed, sizedSettled, ledgerSettled⟩ :=
      leaves_refreshAll (c := read.noting found) sizedRead (flaggedSlots found)
    have before : read.ledger.records = c.ledger.records := congrArg Ledger.records ledger
    have records : (read.noting found).ledger.records = c.ledger.records := before
    rw [Ledger.refreshAll_eq] at ledgerSettled
    rw [refreshed] at commits ⊢
    have still : settled.ledger.records manualSlot = none := by
      rw [ledgerSettled]
      simp [records, missing]
    have unmarked (d : Designation) : settled.ledger.designated d ≠ some manualSlot := by
      have marked : settled.ledger.designated d = (read.noting found).designated d := by
        rw [ledgerSettled]
        cases d <;> rfl
      rw [marked, designated_noting]
      intro last
      obtain ⟨one, member, manual⟩ := List.mem_map.mp (List.mem_of_getLast? last)
      apply absent
      rw [List.contains_iff_mem]
      exact List.mem_map.mpr ⟨one, (List.mem_filter.mp member).1, manual⟩
    obtain ⟨later, same⟩ := restoreManual_commits sizedSettled still unmarked
    exact commits.trans later same.symm

theorem reassign_commits (sized : c.Sized) (d : Designation) (next : Option Nat) :
    c.Commits (reassign d next c).2 := by
  cases done : reassign d next c with
  | mk answer after =>
    rcases reassign_cases done with ⟨-, -, rfl⟩ | ⟨-, -, rfl⟩ | ⟨-, refreshed⟩
    · exact .of_none rfl
    · exact .of_none rfl
    · have marked : (c.designate d next).Sized := by
        unfold Sized
        rw [store_designate]
        exact sized
      have commits := refreshAll_commits marked ((c.designated d).toList ++ next.toList)
      rw [refreshed] at commits
      unfold Commits at commits ⊢
      rw [store_designate] at commits
      exact commits

end Catalog

namespace Errand

open Catalog (Commits)

variable {e : Engine CommitStore}

/-- To play a program leaves the store. -/
theorem store_load (e : Engine CommitStore) (slot : Nat) :
    (Engine.load slot e).2.catalog.store = e.catalog.store := by
  have alike : ReadsAlike fun (s t : CommitStore) => s = t ∧ s = e.catalog.store :=
    CommitStore.readsAlike fun _ _ related => related.1
  exact (Engine.tracks_load alike slot e e ⟨⟨⟨rfl, rfl⟩, rfl⟩, rfl⟩).2.1.1.2

theorem shelf_commits (sized : e.catalog.Sized) (op : ShelfOp) :
    e.catalog.Commits (Engine.perform op e).2.catalog := by
  cases op with
  | scan =>
      rw [catalog_scan]
      exact Catalog.scan_commits sized
  | write slot text =>
      change e.catalog.Commits (Catalog.write slot text e.catalog).2
      rcases Nat.lt_or_ge slot slotCount with isSlot | beyond
      · exact Catalog.write_commits sized isSlot text
      · rw [Catalog.write_beyond e.catalog beyond text]
        exact .of_none rfl
  | erase slot =>
      change e.catalog.Commits (Catalog.erase slot e.catalog).2
      rcases Nat.lt_or_ge slot slotCount with isSlot | beyond
      · exact Catalog.erase_commits sized isSlot
      · rw [Catalog.erase_beyond e.catalog beyond]
        exact .of_none rfl
  | designate d slot => exact Catalog.reassign_commits sized d slot
  | select slot => exact .of_none rfl
  | load slot => exact .of_none (congrArg CommitStore.commits (store_load e slot))

/-- Whatever is done with the stored programs, what is flushed on the way shows what the store shows
in the end. -/
theorem perform_commits (sized : e.catalog.Sized) (errand : Errand) :
    e.catalog.Commits (errand.perform e).2.catalog := by
  cases errand with
  | shelf op => exact shelf_commits sized op
  | storeManual times =>
      have isSlot : manualSlot < slotCount := by decide
      obtain ⟨after, done, -⟩ := Catalog.leaves_write sized isSlot times.text
      have commits := Catalog.write_commits sized isSlot times.text
      rw [done] at commits
      have played : (storeManual times).perform e =
          StoreCall.always (Engine.load manualSlot) { e with catalog := after } := by
        change Engine.storeManual times e = _
        have written : Engine.onStorage (Catalog.write manualSlot times.text) e =
            (.ok (), { e with catalog := after }) := Engine.onStorage_apply done
        unfold Engine.storeManual
        rw [StoreCall.bind_apply, written]
      have same : ((storeManual times).perform e).2.catalog.store = after.store := by
        rw [played]
        exact store_load _ manualSlot
      unfold Commits at commits ⊢
      rw [same]
      exact commits

end Errand

end RelayTimer
