import RelayTimer.Proofs.Errands
import RelayTimer.Proofs.FlashRun

set_option autoImplicit false

/-!
A store on a chip that does not fail, next to a store in memory with which the same is done.
Wherever a reset cuts the calls on the chip short, what is found is the image from before all of
them, or one of those that have been flushed since.
-/
namespace RelayTimer

namespace FlashCall

/-- What is made of some calls when a reset cuts them short: some of them, and maybe some bytes of
the next one. -/
def cut (calls : List FlashCall) (done : Nat) (inside : Option Nat) : List FlashCall :=
  calls.take done ++ (inside.bind fun length => calls[done]?.map (·.torn length)).toList

theorem cut_of_lt {calls : List FlashCall} (more : List FlashCall) {done : Nat}
    (before : done < calls.length) (inside : Option Nat) :
    cut (calls ++ more) done inside = cut calls done inside := by
  unfold cut
  rw [List.take_append_of_le_length (by omega), List.getElem?_append_left before]

theorem cut_of_le {calls : List FlashCall} (more : List FlashCall) {done : Nat}
    (behind : calls.length ≤ done) (inside : Option Nat) :
    cut (calls ++ more) done inside = calls ++ cut more (done - calls.length) inside := by
  unfold cut
  rw [List.take_append, List.take_of_length_le behind, List.getElem?_append_right behind,
    List.append_assoc]

theorem cut_nil (done : Nat) (inside : Option Nat) : cut [] done inside = [] := by
  cases inside <;> simp [cut]

end FlashCall

/-- The image that a store at an offset finds. -/
def Cells.image (cells : Cells) (offset : Nat) : List UInt8 := (cells.found imageSize offset).2.2

namespace FlashStore

/-- On a chip that does not fail all calls are made. -/
theorem performAll_calm (calls : List FlashCall) (inRange : ∀ call ∈ calls, call.inRange = true)
    (chip : FlashChip) (calm : chip.faults = []) :
    performAll calls chip = (.ok (),
      { cells := calls.foldl FlashCall.apply chip.cells
        journal := chip.journal ++ calls
        faults := [] }) := by
  induction calls generalizing chip with
  | nil =>
      obtain ⟨cells, journal, faults⟩ := chip
      obtain rfl : faults = [] := calm
      simp only [List.foldl_nil, List.append_nil]
      rfl
  | cons call rest ih =>
      have first : FlashChip.perform call chip = (.ok (),
          { cells := call.apply chip.cells, journal := chip.journal ++ [call], faults := [] }) := by
        unfold FlashChip.perform
        rw [if_pos (inRange call List.mem_cons_self), calm]
        rfl
      unfold performAll
      rw [StoreCall.bind_apply, first]
      dsimp only
      rw [ih (fun later member => inRange later (List.mem_cons_of_mem _ member)) _ rfl]
      simp only [List.foldl_cons, List.append_assoc, List.singleton_append]

theorem flush_clean {s : FlashStore} (clean : s.dirty = false) : ByteStore.flush s = (.ok (), s) := by
  simp [ByteStore.flush, clean]

/-- A flush that has something to do makes all calls of its commit. -/
theorem flush_dirty {s : FlashStore} (calm : s.chip.faults = [])
    (inRange : ∀ call ∈ s.commit, call.inRange = true) (dirty : s.dirty = true) :
    ByteStore.flush s = (.ok (), { s with
      chip := {
        cells := s.commit.foldl FlashCall.apply s.chip.cells
        journal := s.chip.journal ++ s.commit
        faults := [] }
      bank := some s.target
      generation := s.generation + 1
      dirty := false }) := by
  simp only [ByteStore.flush, dirty, ↓reduceIte, performAll_calm s.commit inRange s.chip calm]

/-- The store is in order: it lies at its place, it knows which image is in use, and it takes a copy
that differs from it for changed. -/
structure Tidy (offset : Nat) (s : FlashStore) : Prop where
  ready : s.Ready imageSize
  place : s.offset = offset
  clean : s.dirty = false → s.chip.cells.image s.offset = s.image

variable {offset : Nat} {start s : FlashStore} {t : CommitStore}

/-- The calls that have been made between two moments. Wherever they are cut short, one of some
images is found. -/
structure Made (offset : Nat) (before after : FlashChip) (images : List (List UInt8))
    (calls : List FlashCall) : Prop where
  journal : after.journal = before.journal ++ calls
  cells : after.cells = calls.foldl FlashCall.apply before.cells
  cut : ∀ done inside,
    ((FlashCall.cut calls done inside).foldl FlashCall.apply before.cells).image offset ∈ images

theorem Made.more {before after : FlashChip} {images : List (List UInt8)} {calls : List FlashCall}
    (made : Made offset before after images calls) (others : List (List UInt8)) :
    Made offset before after (images ++ others) calls :=
  ⟨made.journal, made.cells, fun done inside => List.mem_append_left _ (made.cut done inside)⟩

/-- A store on a chip that does not fail, next to one in memory with which the same has been done
since some start. -/
structure Follows (start s : FlashStore) (t : CommitStore) : Prop extends s.Tidy start.offset where
  calm : s.chip.faults = []
  image : t.image = s.image
  /-- What is found is what was flushed last. -/
  last : (start.chip.cells.image start.offset :: t.commits).getLast? =
    some (s.chip.cells.image start.offset)
  made : ∃ calls, Made start.offset start.chip s.chip
    (start.chip.cells.image start.offset :: t.commits) calls

theorem Tidy.follows (tidy : s.Tidy s.offset) (calm : s.chip.faults = []) :
    s.Follows s { image := s.image } := by
  refine ⟨tidy, calm, rfl, rfl, [], (List.append_nil _).symm, rfl, ?_⟩
  intro done inside
  rw [FlashCall.cut_nil]
  exact List.mem_cons_self

/-- A copy in which a page has been written is taken for changed if it is. -/
theorem Tidy.keep (tidy : s.Tidy offset) (written : Option (List UInt8))
    (same : ∀ after ∈ written, after.length = s.image.length) : (s.keep written).2.Tidy offset := by
  cases written with
  | none => exact tidy
  | some after =>
      obtain ⟨⟨inside, length, bank, generation⟩, place, clean⟩ := tidy
      refine ⟨⟨inside, (same after rfl).trans length, bank, generation⟩, place, ?_⟩
      intro unchanged
      simp only [FlashStore.keep, Bool.or_eq_false_iff, bne_eq_false_iff_eq] at unchanged ⊢
      rw [unchanged.2]
      exact clean unchanged.1

theorem Follows.keep (follows : Follows start s t) (written : Option (List UInt8))
    (same : ∀ after ∈ written, after.length = s.image.length) :
    (s.keep written).1 = (t.keep written).1 ∧
      Follows start (s.keep written).2 (t.keep written).2 := by
  have tidy := follows.toTidy.keep written same
  cases written with
  | none => exact ⟨rfl, follows⟩
  | some after => exact ⟨rfl, tidy, follows.calm, rfl, follows.last, follows.made⟩

/-- A commit has been made in full. -/
theorem Tidy.committed (tidy : s.Tidy offset) (chip : FlashChip)
    (found : chip.cells.found imageSize s.offset = (some s.target, s.generation + 1, s.image)) :
    Tidy offset { s with
      chip, bank := some s.target, generation := s.generation + 1, dirty := false } := by
  refine ⟨⟨tidy.ready.inside, tidy.ready.length, ?_, ?_⟩, tidy.place, fun _ => ?_⟩
  · simp only [found]
  · simp only [found]
  · exact congrArg (·.2.2) found

/-- The calls of a commit come behind those that have been made before. -/
theorem Follows.made_commit (follows : Follows start s t) :
    ∃ calls, Made start.offset start.chip
      { cells := s.commit.foldl FlashCall.apply s.chip.cells
        journal := s.chip.journal ++ s.commit
        faults := [] }
      (start.chip.cells.image start.offset :: t.commits ++ [t.image]) calls := by
  obtain ⟨calls, made⟩ := follows.made
  refine ⟨calls ++ s.commit, ?_, ?_, ?_⟩
  · simp only [made.journal, List.append_assoc]
  · simp only [made.cells, List.foldl_append]
  · intro done inside
    rcases Nat.lt_or_ge done calls.length with before | behind
    · rw [FlashCall.cut_of_lt _ before]
      exact List.mem_append_left _ (made.cut done inside)
    · have either := follows.ready.found_image_of_cut (done - calls.length) inside
      rw [FlashCall.cut_of_le _ behind, List.foldl_append, ← made.cells]
      rcases either with old | new
      · -- Nothing of the commit is found yet, so it is what was flushed last.
        have same : ((FlashCall.cut s.commit (done - calls.length) inside).foldl FlashCall.apply
            s.chip.cells).image start.offset = s.chip.cells.image start.offset := by
          rw [← follows.place]
          exact old
        rw [same]
        exact List.mem_append_left _ (List.mem_of_getLast? follows.last)
      · have same : ((FlashCall.cut s.commit (done - calls.length) inside).foldl FlashCall.apply
            s.chip.cells).image start.offset = t.image := by
          rw [← follows.place, follows.image]
          exact new
        rw [same]
        exact List.mem_append_right _ List.mem_cons_self

/-- Whatever is done with a store keeps it in order, also where its chip fails. -/
theorem tidy_alike (offset : Nat) : Alike fun (s t : FlashStore) => s = t ∧ s.Tidy offset := by
  refine { readAt := ?_, writePage := ?_, erasePage := ?_, flush := ?_ }
  · rintro start length s _ ⟨rfl, tidy⟩
    have same : (ByteStore.readAt start length s).2 = s := by
      simp only [ByteStore.readAt]
      split <;> rfl
    refine ⟨rfl, rfl, ?_⟩
    rw [same]
    exact tidy
  · rintro page data s _ ⟨rfl, tidy⟩
    rw [writePage_eq_keep]
    exact ⟨rfl, rfl, tidy.keep _ fun after written => Image.length_of_writePage? written⟩
  · rintro page s _ ⟨rfl, tidy⟩
    rw [erasePage_eq_keep]
    exact ⟨rfl, rfl, tidy.keep _ fun after written => Image.length_of_writePage? written⟩
  · rintro s _ ⟨rfl, tidy⟩
    refine ⟨rfl, rfl, ?_⟩
    rcases tidy.ready.flush_cases with
      ⟨-, done⟩ | ⟨-, chip, found, done⟩ | ⟨dirty, chip, same, done⟩
    · rw [done]
      exact tidy
    · rw [done]
      exact tidy.committed chip found
    · rw [done]
      obtain ⟨⟨inside, length, bank, generation⟩, place, -⟩ := tidy
      refine ⟨⟨inside, length, ?_, ?_⟩, place, fun clean => ?_⟩
      · simp only [same, bank]
      · simp only [same, generation]
      · simp only [dirty, reduceCtorEq] at clean

theorem Follows.flush (follows : Follows start s t) :
    (ByteStore.flush s).1 = .ok () ∧
      Follows start (ByteStore.flush s).2 { t with commits := t.commits ++ [t.image] } := by
  have last {cells : Cells} (found : cells.image start.offset = s.image) :
      (start.chip.cells.image start.offset :: (t.commits ++ [t.image])).getLast? =
        some (cells.image start.offset) := by
    rw [← List.cons_append, List.getLast?_concat, follows.image, found]
  cases dirty : s.dirty with
  | false =>
      have found : s.chip.cells.image start.offset = s.image := by
        rw [← follows.place]
        exact follows.clean dirty
      obtain ⟨calls, made⟩ := follows.made
      rw [flush_clean dirty]
      exact ⟨rfl, follows.toTidy, follows.calm, follows.image, last found, calls, made.more _⟩
  | true =>
      let chip : FlashChip :=
        { cells := s.commit.foldl FlashCall.apply s.chip.cells
          journal := s.chip.journal ++ s.commit
          faults := [] }
      have found := follows.ready.found_of_commit
      have tidy := follows.toTidy.committed chip found
      have image : chip.cells.image start.offset = s.image := by
        rw [← follows.place]
        exact congrArg (·.2.2) found
      rw [flush_dirty follows.calm follows.ready.inRange dirty]
      exact ⟨rfl, tidy, rfl, follows.image, last image, follows.made_commit⟩

/-- Whatever is done with the store on the chip is answered as by the one in memory. -/
theorem follows_alike (start : FlashStore) : Alike (Follows start) := by
  have pages {written : List UInt8 → Option (List UInt8)}
      (same : ∀ image, ∀ after ∈ written image, after.length = image.length) :
      Tracks (Follows start) (fun s => s.keep (written s.image))
        (fun t => t.keep (written t.image)) := by
    intro s t follows
    dsimp only
    rw [follows.image]
    exact follows.keep (written s.image) (same s.image)
  refine { readAt := ?_, writePage := ?_, erasePage := ?_, flush := ?_ }
  · intro offset length s t follows
    simp only [ByteStore.readAt, follows.image]
    cases Image.read? s.image offset length with
    | none => exact ⟨rfl, follows⟩
    | some bytes => exact ⟨rfl, follows⟩
  · intro page data
    rw [funext (writePage_eq_keep page data)]
    exact pages fun image after written => Image.length_of_writePage? written
  · intro page
    rw [funext (erasePage_eq_keep page)]
    exact pages fun image after written => Image.length_of_writePage? written
  · exact fun s t follows => follows.flush

end FlashStore

end RelayTimer
