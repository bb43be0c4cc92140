import Mathlib.Data.List.Iterate
import RelayTimer.Proofs.CatalogUse
import RelayTimer.Proofs.MarksFound

set_option autoImplicit false

/-!
The manual program always exists, whatever the store answers. So there is always a slot to show, and
from slot to slot one comes past every program and back again.
-/
namespace RelayTimer

open scoped Function

namespace Occupancy

/-- There is a manual program, and what holds a program is a slot. -/
structure Manned (o : Occupancy) : Prop where
  manual : o.contains manualSlot = true
  slots : ∀ s, o.contains s = true → s < slotCount

/-- A set that was put together from slots, the manual one among them. -/
theorem manned_ofPred {p : Nat → Bool} (there : p manualSlot = true) : (ofPred p).Manned := by
  refine ⟨?_, fun s member => ?_⟩
  · rw [contains_ofPred, there]
    rfl
  · rw [contains_ofPred, Bool.and_eq_true] at member
    exact of_decide_eq_true member.1

theorem manned_insert (o : Occupancy) : (o.insert manualSlot).Manned := manned_ofPred rfl

theorem Manned.insert {o : Occupancy} (manned : o.Manned) (slot : Nat) : (o.insert slot).Manned :=
  manned_ofPred (by rw [manned.manual, Bool.or_true])

theorem Manned.remove {o : Occupancy} (manned : o.Manned) {slot : Nat} (apart : slot ≠ manualSlot) :
    (o.remove slot).Manned :=
  manned_ofPred (by rw [manned.manual, Bool.and_true, bne_iff_ne]; exact apart.symm)

end Occupancy

namespace Catalog

variable {σ : Type}

theorem occupied_onStore {α : Type} {call : StoreCall σ α} {c after : Catalog σ}
    {answer : Except StoreError α} (done : onStore call c = (answer, after)) :
    after.occupied = c.occupied := by
  rw [(onStore_cases done).2]

theorem remembers_onStore {α : Type} (call : StoreCall σ α) :
    Leads (Eq on Catalog.occupied) (onStore call) := fun _ => rfl

variable [ByteStore σ]

theorem remembers_readRecord (slot : Nat) :
    Leads (Eq on Catalog.occupied (σ := σ)) (readRecord slot) := by
  intro c
  unfold readRecord
  split
  · rfl
  · have kept : (onStore (ByteStore.readAt (slotOffset slot) recordSize) c).2.occupied =
      c.occupied := rfl
    generalize onStore (ByteStore.readAt (slotOffset slot) recordSize) c = read at kept
    obtain ⟨_ | _, after⟩ := read <;> exact kept.symm

theorem remembers_refreshFlags (slot : Nat) :
    Leads (Eq on Catalog.occupied (σ := σ)) (refreshFlags slot) := by
  refine Leads.except_bind (remembers_readRecord slot) fun record => ?_
  cases record with
  | none => exact fun _ => rfl
  | some r =>
    intro c
    dsimp only
    rw [StoreCall.get_bind]
    exact Leads.ite (R := Eq on Catalog.occupied) (fun _ => rfl) (remembers_onStore _) c

theorem remembers_refreshAll (slots : List Nat) :
    Leads (Eq on Catalog.occupied (σ := σ)) (refreshAll slots) := by
  induction slots with
  | nil => exact remembers_onStore _
  | cons slot rest ih => exact Leads.except_bind (remembers_refreshFlags slot) fun _ => ih

/-- A mark makes no program come or go. -/
theorem remembers_reassign (d : Designation) (slot : Option Nat) :
    Leads (Eq on Catalog.occupied (σ := σ)) (reassign d slot) := by
  intro c
  cases done : reassign d slot c with
  | mk answer after =>
    rcases reassign_cases done with ⟨-, -, rfl⟩ | ⟨-, -, rfl⟩ | ⟨-, refreshed⟩
    · rfl
    · rfl
    · have kept := remembers_refreshAll ((c.designated d).toList ++ slot.toList)
        (c.designate d slot)
      rw [refreshed] at kept
      exact (occupied_designate c d slot).symm.trans kept

/-- A text that is written is there afterwards, unless that failed. -/
theorem occupied_write {slot : Nat} {text : String} {c after : Catalog σ}
    {answer : Except StoreError Unit} (done : write slot text c = (answer, after)) :
    (∃ error, answer = .error error) ∧ after.occupied = c.occupied ∨
      answer = .ok () ∧ after.occupied = c.occupied.insert slot := by
  unfold write at done
  split at done
  · cases done
    exact .inl ⟨⟨_, rfl⟩, rfl⟩
  · rcases StoreCall.bind_cases done with ⟨_, failed, -⟩ | ⟨start, _, got, rest⟩
    · cases failed
    · cases got
      rcases StoreCall.bind_cases rest with ⟨error, failed, same⟩ | ⟨_, written, recorded, rest⟩
      · exact .inl ⟨⟨error, same⟩, occupied_onStore failed⟩
      · rcases StoreCall.bind_cases rest with ⟨error, failed, same⟩ | ⟨_, flushed, durable, rest⟩
        · exact .inl ⟨⟨error, same⟩, (occupied_onStore failed).trans (occupied_onStore recorded)⟩
        · have kept := (occupied_onStore durable).trans (occupied_onStore recorded)
          cases rest
          exact .inr ⟨rfl, congrArg (·.insert slot) kept⟩

theorem occupied_restoreManual (c : Catalog σ) :
    (restoreManual c).2.occupied = c.occupied.insert manualSlot := by
  unfold restoreManual
  cases done : write manualSlot defaultManualText c with
  | mk answer after =>
    rcases occupied_write done with ⟨⟨error, rfl⟩, same⟩ | ⟨rfl, inserted⟩
    · exact congrArg (·.insert manualSlot) same
    · exact inserted

theorem manned_restoreManual (c : Catalog σ) : (restoreManual c).2.occupied.Manned := by
  rw [occupied_restoreManual]
  exact Occupancy.manned_insert _

/-- What a look through the store finds is put together from slots, and the manual one is there in
the end. -/
theorem occupied_scan (c : Catalog σ) :
    ∃ p : Nat → Bool, p manualSlot = true ∧ (scan c).2.occupied = Occupancy.ofPred p := by
  rw [scan_apply]
  cases readAll (List.range slotCount) c with
  | mk found read =>
    have kept : (refreshAll (flaggedSlots found) (read.noting found)).2.occupied =
        Occupancy.ofPred (found.map (·.1)).contains :=
      (remembers_refreshAll (flaggedSlots found) (read.noting found)).symm
    dsimp only
    split
    · rename_i there
      exact ⟨_, there, kept⟩
    · exact ⟨fun s => s == manualSlot || _, rfl, occupied_restoreManual _⟩

theorem manned_scan (c : Catalog σ) : (scan c).2.occupied.Manned := by
  obtain ⟨p, there, found⟩ := occupied_scan c
  rw [found]
  exact Occupancy.manned_ofPred there

theorem manned_write {c : Catalog σ} (manned : c.occupied.Manned) (slot : Nat) (text : String) :
    (write slot text c).2.occupied.Manned := by
  cases done : write slot text c with
  | mk answer after =>
    rcases occupied_write done with ⟨-, same⟩ | ⟨-, inserted⟩
    · rw [same]
      exact manned
    · rw [inserted]
      exact manned.insert slot

/-- To erase the manual program forgets it for a moment only. -/
theorem manned_erase {c : Catalog σ} (manned : c.occupied.Manned) (slot : Nat) :
    (erase slot c).2.occupied.Manned := by
  cases done : erase slot c with
  | mk answer after =>
    unfold erase at done
    split at done
    · cases done
      exact manned
    · rcases StoreCall.bind_cases done with ⟨error, failed, -⟩ | ⟨_, erased, cleared, rest⟩
      · rw [occupied_onStore failed]
        exact manned
      · have still := occupied_onStore cleared
        have forgets : (erased.forget slot).occupied = c.occupied.remove slot :=
          congrArg (·.remove slot) still
        rcases StoreCall.bind_cases rest with ⟨_, failed, -⟩ | ⟨_, forgotten, forgot, rest⟩
        · cases failed
        · cases forgot
          split at rest
          · obtain ⟨_, -, restored⟩ := StoreCall.always_cases rest
            have there := manned_restoreManual (erased.forget slot)
            rw [restored] at there
            exact there
          · rename_i apart
            cases rest
            rw [forgets]
            exact manned.remove apart

/-- Whatever the store answers to a call, the manual program is there. -/
theorem Call.manned {free : Nat → Prop} {c after : Catalog σ} (call : Call free c after)
    (manned : c.occupied.Manned) : after.occupied.Manned := by
  cases call with
  | read slot => exact remembers_readRecord slot c ▸ manned
  | scan => exact manned_scan c
  | select slot => exact manned
  | reassign d slot => exact remembers_reassign d slot c ▸ manned
  | write isFree text => exact manned_write manned _ text
  | erase isFree => exact manned_erase manned _

section navigation

variable {σ : Type} {c : Catalog σ} {s t : Nat}

/-- The slots that hold a program, in ascending order. -/
def held (c : Catalog σ) : List Nat := (List.range slotCount).filter c.isOccupied

theorem mem_held (manned : c.occupied.Manned) : s ∈ c.held ↔ c.isOccupied s = true := by
  rw [held, List.mem_filter, List.mem_range]
  exact ⟨And.right, fun there => ⟨manned.slots s there, there⟩⟩

theorem held_ascends (c : Catalog σ) : c.held.Pairwise (· < ·) := List.pairwise_lt_range.filter _

/-- The manual program is the first one. -/
theorem held_manual (manned : c.occupied.Manned) : ∃ rest, c.held = manualSlot :: rest :=
  ⟨_, List.filter_cons_of_pos manned.manual⟩

theorem nextSlot_eq (c : Catalog σ) (s : Nat) :
    c.nextSlot s = (c.held.find? (s < ·)).getD s := by
  rw [held, List.find?_filter, nextSlot]
  simp only [Bool.decide_and, Bool.and_comm, Bool.decide_eq_true]

theorem previousSlot_eq (c : Catalog σ) (s : Nat) :
    c.previousSlot s = (c.held.reverse.find? (· < s)).getD manualSlot := by
  rw [held, ← List.filter_reverse, List.find?_filter, previousSlot]
  simp only [Bool.decide_and, Bool.and_comm, Bool.decide_eq_true]

/-- The next slot is the one behind in the list of all. -/
theorem nextSlot_of_held {front rest : List Nat} (here : c.held = front ++ s :: rest) :
    c.nextSlot s = rest.head?.getD s := by
  have ascends := c.held_ascends
  rw [here, List.pairwise_append] at ascends
  obtain ⟨-, behind, before⟩ := ascends
  have passed : front.find? (s < ·) = none := by
    rw [List.find?_eq_none]
    intro other member later
    have := before other member s List.mem_cons_self
    have := of_decide_eq_true later
    omega
  rw [nextSlot_eq, here, List.find?_append, passed]
  cases rest with
  | nil => simp
  | cons u rest =>
    have after : s < u := (List.pairwise_cons.mp behind).1 u List.mem_cons_self
    simp [after]

theorem previousSlot_of_held {front rest : List Nat} (here : c.held = front ++ s :: rest) :
    c.previousSlot s = front.getLast?.getD manualSlot := by
  have ascends := c.held_ascends
  rw [here, List.pairwise_append] at ascends
  obtain ⟨-, behind, before⟩ := ascends
  have passed : (s :: rest).reverse.find? (· < s) = none := by
    rw [List.find?_eq_none]
    intro other member earlier
    have := of_decide_eq_true earlier
    rcases List.mem_cons.mp (List.mem_reverse.mp member) with rfl | member
    · omega
    · have := (List.pairwise_cons.mp behind).1 other member
      omega
  rw [previousSlot_eq, here, List.reverse_append, List.find?_append, passed, Option.none_or,
    ← List.head?_reverse]
  cases reversed : front.reverse with
  | nil => rfl
  | cons u others =>
    have earlier : u < s := before u (List.mem_reverse.mp (reversed ▸ List.mem_cons_self)) s
      List.mem_cons_self
    simp [earlier]

theorem isOccupied_nextSlot (manned : c.occupied.Manned) (there : c.isOccupied s = true) :
    c.isOccupied (c.nextSlot s) = true := by
  rw [nextSlot_eq]
  cases found : c.held.find? (s < ·) with
  | none => exact there
  | some t => exact (mem_held manned).mp (List.mem_of_find?_eq_some found)

theorem isOccupied_previousSlot (manned : c.occupied.Manned) (s : Nat) :
    c.isOccupied (c.previousSlot s) = true := by
  rw [previousSlot_eq]
  cases found : c.held.reverse.find? (· < s) with
  | none => exact manned.manual
  | some t =>
    exact (mem_held manned).mp (List.mem_reverse.mp (List.mem_of_find?_eq_some found))

/-- Back again from the next slot, if there is a further one. -/
theorem previousSlot_nextSlot (manned : c.occupied.Manned) (here : c.isOccupied s = true)
    (there : c.isOccupied t = true) (later : s < t) : c.previousSlot (c.nextSlot s) = s := by
  obtain ⟨front, rest, split⟩ := List.append_of_mem ((mem_held manned).mpr here)
  cases rest with
  | nil =>
    -- All other slots are before this one.
    have ascends := c.held_ascends
    rw [split, List.pairwise_append] at ascends
    have member := (mem_held manned).mpr there
    rw [split, List.mem_append, List.mem_singleton] at member
    rcases member with before | rfl
    · have := ascends.2.2 t before s List.mem_cons_self
      omega
    · omega
  | cons u rest =>
    have next : c.nextSlot s = u := nextSlot_of_held split
    have again : c.held = (front ++ [s]) ++ u :: rest := by rw [split, List.append_assoc]; rfl
    rw [next, previousSlot_of_held again, List.getLast?_concat]
    rfl

/-- From a slot that holds a program one comes past all behind it, and stays at the last one. -/
theorem iterate_nextSlot (front rest : List Nat) (here : c.held = front ++ s :: rest) (n : Nat) :
    List.iterate c.nextSlot s (rest.length + n + 1) =
      s :: (rest ++ List.replicate n (rest.getLastD s)) := by
  have next : c.nextSlot s = rest.head?.getD s := nextSlot_of_held here
  induction rest generalizing front s with
  | nil =>
    have stays : List.iterate c.nextSlot s (n + 1) = List.replicate (n + 1) s :=
      List.eq_replicate_iff.mpr ⟨List.length_iterate .., fun other member => by
        obtain ⟨m, -, rfl⟩ := List.mem_iterate.mp member
        exact Function.iterate_fixed next m⟩
    rw [List.length_nil, Nat.zero_add, stays]
    rfl
  | cons u rest ih =>
    have again : c.held = (front ++ [s]) ++ u :: rest := by rw [here, List.append_assoc]; rfl
    have length : (u :: rest).length + n = rest.length + n + 1 := by
      rw [List.length_cons, Nat.add_right_comm]
    calc List.iterate c.nextSlot s ((u :: rest).length + n + 1)
      _ = s :: List.iterate c.nextSlot u (rest.length + n + 1) := by
        rw [length, List.iterate, next]; rfl
      _ = s :: u :: (rest ++ List.replicate n (rest.getLastD u)) := by
        rw [ih (front ++ [s]) again (nextSlot_of_held again)]
      _ = s :: (u :: rest ++ List.replicate n ((u :: rest).getLastD s)) := by
        rw [List.getLastD_cons, List.cons_append]

/-- Going on from the manual program one comes past every slot that holds a program, once each and
in ascending order, and then stays at the last one. -/
theorem iterate_nextSlot_manual (manned : c.occupied.Manned) (n : Nat) :
    List.iterate c.nextSlot manualSlot (c.held.length + n) =
      c.held ++ List.replicate n (c.held.getLastD manualSlot) := by
  obtain ⟨rest, split⟩ := held_manual manned
  have walk := iterate_nextSlot [] rest split n
  have length : (manualSlot :: rest).length + n = rest.length + n + 1 := by
    rw [List.length_cons, Nat.add_right_comm]
  rw [split, length, List.getLastD_cons]
  exact walk

end navigation

end Catalog

namespace Engine

variable {σ : Type} [ByteStore σ]

/-- Whatever a store answers, from the first look through it on the manual program is there. -/
theorem manned_use (store : σ) (relay : RelayOutput) (uses : List Use) :
    (uses.foldl use (ofStore store relay)).catalog.occupied.Manned := by
  have calls := (ofStore store relay).calls_foldl_use fun u (_ : u ∈ uses) => u.within_anywhere
  exact calls.keep
    (fun call manned => call.manned manned) (Catalog.manned_scan { store })

/-- Whatever an engine is asked for and whatever its store answers, there is a manual program, and
no program is in what is no slot. To the next slot and to the previous one there is always a way:
going on from the manual program one comes past every program, once each and in ascending order,
and one step back leads to where the step came from. -/
theorem manual_always_there (store : σ) (relay : RelayOutput) (uses : List Use) :
    let c := (uses.foldl use (ofStore store relay)).catalog
    c.isOccupied manualSlot = true ∧
      (∀ s, c.isOccupied s = true → s ≤ 9) ∧
      (∀ s, c.isOccupied s = true → c.isOccupied (c.nextSlot s) = true) ∧
      (∀ s, c.isOccupied (c.previousSlot s) = true) ∧
      (∃ slots : List Nat, slots.Pairwise (· < ·) ∧ (∀ s, s ∈ slots ↔ c.isOccupied s = true) ∧
        ∀ n, List.iterate c.nextSlot manualSlot (slots.length + n) =
          slots ++ List.replicate n (slots.getLastD manualSlot)) ∧
      ∀ s t, c.isOccupied s = true → c.isOccupied t = true → s < t →
        c.previousSlot (c.nextSlot s) = s := by
  intro c
  have manned : c.occupied.Manned := manned_use store relay uses
  refine ⟨manned.manual, fun s there => ?_, fun s => Catalog.isOccupied_nextSlot manned,
    Catalog.isOccupied_previousSlot manned,
    ⟨c.held, c.held_ascends, fun s => Catalog.mem_held manned,
      Catalog.iterate_nextSlot_manual manned⟩,
    fun s t => Catalog.previousSlot_nextSlot manned⟩
  exact Nat.le_of_lt_succ (manned.slots s there)

end Engine

end RelayTimer
