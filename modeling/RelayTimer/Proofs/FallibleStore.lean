import RelayTimer.Proofs.StoreCall
import RelayTimer.Store.Fault
import RelayTimer.Store.Ram

set_option autoImplicit false

/-!
Stores that may fail. Which of the calls fail is not known beforehand; a call that does reports it,
and what is read afterwards is what was read before.
-/
namespace RelayTimer

/-- What a call does that changes a store: all that it should, or nothing where it fails. What is
read is an image, and `Reads` says that reads do not fail from now on. A call that is `InRange` is
not said to be out of range. -/
structure Attempt {σ : Type} (image : σ → List UInt8) (Reads : σ → Prop) (s : σ)
    (answer : Except StoreError Unit) (after : σ) (Does InRange : Prop) : Prop where
  does : answer = .ok () → Does
  fails : ∀ error, answer = .error error → image after = image s
  reads : Reads s → Reads after
  inRange : InRange → answer ≠ .error .outOfRange

/-- A store that may fail. Nothing is said of what a loss of power leaves, but that a flush which
succeeded made all of the image durable. -/
class Fallible (σ : Type) [ByteStore σ] where
  /-- What is read, be it durable or not. -/
  image : σ → List UInt8
  /-- What is there after a loss of power. -/
  durable : σ → List UInt8
  /-- Reads do not fail from now on. -/
  Reads : σ → Prop
  readAt {s after : σ} {offset length : Nat} {answer : Except StoreError (List UInt8)}
    (done : ByteStore.readAt offset length s = (answer, after)) :
    image after = image s ∧
      (∀ bytes, answer = .ok bytes → Image.read? (image s) offset length = some bytes) ∧
      (Reads s → Reads after ∧
        ∀ bytes, Image.read? (image s) offset length = some bytes → answer = .ok bytes)
  writePage {s after : σ} {page : Nat} {data : List UInt8} {answer : Except StoreError Unit}
    (done : ByteStore.writePage page data s = (answer, after)) :
    Attempt image Reads s answer after
      (Image.writePage? (image s) page data = some (image after))
      (Image.writePage? (image s) page data).isSome
  erasePage {s after : σ} {page : Nat} {answer : Except StoreError Unit}
    (done : ByteStore.erasePage page s = (answer, after)) :
    Attempt image Reads s answer after (Image.erasePage? (image s) page = some (image after))
      (Image.erasePage? (image s) page).isSome
  flush {s after : σ} {answer : Except StoreError Unit}
    (done : ByteStore.flush s = (answer, after)) :
    Attempt image Reads s answer after (image after = image s ∧ durable after = image s) True

namespace RamStore

theorem keep_attempt {s after : RamStore} {written : Option (List UInt8)}
    {answer : Except StoreError Unit} (done : s.keep written = (answer, after)) :
    Attempt RamStore.image (fun _ => True) s answer after (written = some after.image)
      written.isSome := by
  cases written with
  | none =>
      cases done
      exact ⟨fun ok => (nomatch ok), fun _ _ => rfl, id, fun there => (nomatch there)⟩
  | some image =>
      cases done
      exact ⟨fun _ => rfl, fun _ failed => (nomatch failed), id, fun _ refused => (nomatch refused)⟩

instance : Fallible RamStore where
  image := RamStore.image
  durable := RamStore.image
  Reads _ := True
  readAt {s after offset length answer} done := by
    simp only [ByteStore.readAt] at done
    cases read : Image.read? s.image offset length with
    | none =>
        rw [read] at done
        cases done
        exact ⟨rfl, fun _ ok => (nomatch ok), fun _ => ⟨trivial, fun _ there => (nomatch there)⟩⟩
    | some found =>
        rw [read] at done
        cases done
        refine ⟨rfl, ?_, fun _ => ⟨trivial, ?_⟩⟩
        · intro bytes ok
          cases ok
          rfl
        · intro bytes there
          cases there
          rfl
  writePage done := keep_attempt done
  erasePage done := keep_attempt done
  flush done := by
    cases done
    exact ⟨fun _ => ⟨rfl, rfl⟩, fun _ _ => rfl, id, fun _ refused => (nomatch refused)⟩

end RamStore

namespace Fault

/-- No call of a kind will be refused. -/
def Spent (kind : CallKind) (faults : List Fault) : Prop :=
  ∀ fault ∈ faults, fault.kind = kind → fault.count = 0

theorem Spent.passes {kind : CallKind} {faults : List Fault} (spent : Spent kind faults) :
    (consult kind faults).1 = false := by
  induction faults with
  | nil => rfl
  | cons fault rest ih =>
      have later := ih fun other member => spent other (List.mem_cons_of_mem _ member)
      unfold consult
      dsimp only
      split
      · exact later
      · rename_i same
        have count := spent fault List.mem_cons_self (by simpa using same)
        split
        · exact later
        · rw [if_neg (by omega)]
          exact later

/-- Whatever is asked for, a fault refuses no more calls than before. -/
theorem Spent.consult {kind : CallKind} {faults : List Fault} (spent : Spent kind faults)
    (asked : CallKind) : Spent kind (consult asked faults).2 := by
  induction faults with
  | nil => exact spent
  | cons fault rest ih =>
      have here := spent fault List.mem_cons_self
      have tail : Spent kind rest := fun other member => spent other (List.mem_cons_of_mem _ member)
      have pass (first : Fault) (same : first.kind = fault.kind) (count : first.count = fault.count) :
          Spent kind (first :: (Fault.consult asked rest).2) := by
        intro other member
        rcases List.mem_cons.mp member with rfl | member
        · rw [same, count]
          exact here
        · exact ih tail other member
      unfold Fault.consult
      dsimp only
      -- A fault that refuses the call had calls left to refuse, so it is not of the spent kind; all
      -- others keep their count.
      split
      · exact pass fault rfl rfl
      · split
        · exact pass _ rfl rfl
        · split
          · rename_i left
            intro other member
            rcases List.mem_cons.mp member with rfl | member
            · intro same
              exact absurd (here same) (by omega)
            · exact tail other member
          · exact pass fault rfl rfl

end Fault

namespace FaultyStore

variable {σ α : Type}

/-- A call on the store behind, or one that is refused and changes nothing there. -/
theorem guarded_cases {kind : CallKind} {call : StoreCall σ α} {f after : FaultyStore σ}
    {answer : Except StoreError α} (done : guarded kind call f = (answer, after)) :
    after.faults = (Fault.consult kind f.faults).2 ∧
      ((answer = .error .io ∧ after.store = f.store ∧ ¬ Fault.Spent kind f.faults) ∨
        call f.store = (answer, after.store)) := by
  unfold guarded at done
  cases consulted : Fault.consult kind f.faults with
  | mk refused faults =>
      rw [consulted] at done
      cases refused with
      | true =>
          cases done
          refine ⟨rfl, .inl ⟨rfl, rfl, ?_⟩⟩
          intro spent
          have passes := spent.passes
          rw [consulted] at passes
          cases passes
      | false =>
          cases done
          exact ⟨rfl, .inr rfl⟩

/-- A call that may fail behind may also be refused. -/
theorem guarded_attempt {kind : CallKind} {call : StoreCall σ Unit} {f after : FaultyStore σ}
    {answer : Except StoreError Unit} (done : guarded kind call f = (answer, after))
    {image : σ → List UInt8} {Reads : σ → Prop} {Does InRange : Prop}
    (behind : call f.store = (answer, after.store) →
      Attempt image Reads f.store answer after.store Does InRange) :
    Attempt (fun f => image f.store) (fun f => Reads f.store ∧ Fault.Spent .read f.faults) f answer
      after Does InRange := by
  obtain ⟨faults, ⟨rfl, same, -⟩ | passed⟩ := guarded_cases done
  · refine ⟨fun ok => (nomatch ok), fun _ _ => by rw [same], ?_, fun _ refused => (nomatch refused)⟩
    rintro ⟨reads, spent⟩
    rw [faults, same]
    exact ⟨reads, spent.consult _⟩
  · refine ⟨(behind passed).does, (behind passed).fails, ?_, (behind passed).inRange⟩
    rintro ⟨reads, spent⟩
    rw [faults]
    exact ⟨(behind passed).reads reads, spent.consult _⟩

variable [ByteStore σ] [Fallible σ]

instance : Fallible (FaultyStore σ) where
  image f := Fallible.image f.store
  durable f := Fallible.durable f.store
  Reads f := Fallible.Reads f.store ∧ Fault.Spent .read f.faults
  readAt {f after offset length answer} done := by
    obtain ⟨faults, ⟨rfl, same, refused⟩ | passed⟩ := guarded_cases done
    · refine ⟨by rw [same], fun _ ok => (nomatch ok), ?_⟩
      rintro ⟨-, spent⟩
      exact absurd spent refused
    · obtain ⟨kept, sound, reads⟩ := Fallible.readAt passed
      refine ⟨kept, sound, ?_⟩
      rintro ⟨behind, spent⟩
      refine ⟨⟨(reads behind).1, ?_⟩, (reads behind).2⟩
      rw [faults]
      exact spent.consult _
  writePage done := guarded_attempt done Fallible.writePage
  erasePage done := guarded_attempt done Fallible.erasePage
  flush done := guarded_attempt done Fallible.flush

end FaultyStore

end RelayTimer
