import RelayTimer.Proofs.CatalogUse
import RelayTimer.Proofs.TrimmedLine

set_option autoImplicit false

/-!
The text of a slot stays as it is, whatever else is done with the stored programs, until something
is written or erased there. So a program that is typed and saved is the one that is played from its
slot later on.
-/
namespace RelayTimer

namespace Ledger

/-- The slot counts as occupied, and its record has this text. -/
structure Keeps (l : Ledger) (slot : Nat) (text : String) : Prop where
  occupied : l.occupied.contains slot = true
  text : l.shelf.texts slot = some text

variable {l : Ledger} {slot : Nat} {text : String}

theorem keeps_write (l : Ledger) (isSlot : slot < slotCount) (text : String) :
    (l.write slot text).Keeps slot (storedText text) := by
  refine ⟨?_, ?_⟩
  · simp [Ledger.write, Occupancy.contains_insert, isSlot]
  · rw [shelf_write]
    simp [Shelf.put]

theorem Keeps.write (keeps : l.Keeps slot text) (isSlot : slot < slotCount) {other : Nat}
    (apart : other ≠ slot) (own : String) : (l.write other own).Keeps slot text := by
  refine ⟨?_, ?_⟩
  · have kept : l.occupied.contains slot = true := keeps.occupied
    simp [Ledger.write, Occupancy.contains_insert, isSlot, kept]
  · rw [shelf_write, ← keeps.text]
    simp [Shelf.put, apart.symm]

theorem Keeps.erase (keeps : l.Keeps slot text) (isSlot : slot < slotCount) {other : Nat}
    (apart : other ≠ slot) : (l.erase other).Keeps slot text := by
  have cleared : (l.clear other).occupied.contains slot = true := by
    have kept : l.occupied.contains slot = true := keeps.occupied
    simp [Ledger.clear, Occupancy.contains_remove, isSlot, kept, apart.symm]
  refine ⟨?_, ?_⟩
  · unfold Ledger.erase
    split
    · simp [Ledger.write, Occupancy.contains_insert, isSlot, cleared]
    · exact cleared
  · rw [shelf_erase, ← keeps.text]
    simp [Shelf.erase, apart.symm]

theorem Keeps.reassign (keeps : l.Keeps slot text) (d : Designation) (marked : Option Nat) :
    (l.reassign d marked).Keeps slot text := by
  have occupied : (l.reassign d marked).occupied = l.occupied := by
    unfold Ledger.reassign
    split
    · rfl
    · rw [refreshAll_eq]
      cases d <;> rfl
  refine ⟨?_, ?_⟩
  · rw [occupied]
    exact keeps.occupied
  · rw [shelf_reassign, ← keeps.text]
    cases d <;> rfl

/-- A look through the store finds the slot occupied, whatever was remembered of it. -/
theorem keeps_scan (inside : ∀ s, (l.records s).isSome → s < slotCount)
    (there : l.shelf.texts slot = some text) : l.scan.Keeps slot text := by
  have record : l.records slot ≠ none := by
    intro absent
    simp [shelf, absent] at there
  have found : l.scan.shelf.texts slot = some text := by
    rw [shelf_scan, ← there]
    simp only [Shelf.ofRecords, shelf, record, and_false, ↓reduceIte]
  refine ⟨?_, found⟩
  rw [(Coherent.scan inside).occupied, ← isSome_texts, found]
  rfl

end Ledger

namespace Catalog

variable {σ : Type} [ByteStore σ] [Faultless σ] {free : Nat → Prop} {c after : Catalog σ} {slot : Nat} {text : String}

theorem Leaves.snd {α : Type} {call : Catalog σ → α × Catalog σ} {answer : α} {l : Ledger}
    (leaves : Leaves call c answer l) : (call c).2.Sized ∧ (call c).2.ledger = l := by
  obtain ⟨after, done, kept⟩ := leaves
  rw [done]
  exact kept

theorem lt_of_keeps (keeps : c.ledger.Keeps slot text) : slot < slotCount := by
  apply lt_of_record c
  rw [← Ledger.isSome_texts, keeps.text]
  rfl

/-- A call leaves the texts of all slots that are not free. -/
theorem Call.keeps (call : Call free c after) (sized : c.Sized) :
    after.Sized ∧ ∀ slot text, ¬ free slot → c.ledger.Keeps slot text →
      after.ledger.Keeps slot text := by
  cases call with
  | read other =>
      obtain ⟨kept, ledger⟩ := (leaves_readRecord sized other).snd
      exact ⟨kept, fun _ _ _ keeps => ledger ▸ keeps⟩
  | scan =>
      obtain ⟨kept, ledger⟩ := (leaves_scan sized).snd
      refine ⟨kept, fun slot text _ keeps => ?_⟩
      rw [ledger]
      exact Ledger.keeps_scan (lt_of_record c) keeps.text
  | select other => exact ⟨sized, fun _ _ _ keeps => ⟨keeps.occupied, keeps.text⟩⟩
  | reassign d marked =>
      by_cases beyond : ∃ s ∈ marked, slotCount ≤ s
      · rw [reassign_beyond c d beyond]
        exact ⟨sized, fun _ _ _ keeps => keeps⟩
      · have inside : ∀ s ∈ marked, s < slotCount := by
          intro s member
          exact Nat.lt_of_not_le fun outside => beyond ⟨s, member, outside⟩
        obtain ⟨kept, ledger⟩ := (leaves_reassign sized d marked inside).snd
        refine ⟨kept, fun slot text _ keeps => ?_⟩
        rw [ledger]
        exact keeps.reassign d marked
  | @write other isFree own =>
      rcases Nat.lt_or_ge other slotCount with isSlot | beyond
      · obtain ⟨kept, ledger⟩ := (leaves_write sized isSlot own).snd
        refine ⟨kept, fun slot text spared keeps => ?_⟩
        have apart : other ≠ slot := by
          rintro rfl
          exact spared isFree
        rw [ledger]
        exact keeps.write (lt_of_keeps keeps) apart own
      · rw [write_beyond c beyond]
        exact ⟨sized, fun _ _ _ keeps => keeps⟩
  | @erase other isFree =>
      rcases Nat.lt_or_ge other slotCount with isSlot | beyond
      · obtain ⟨kept, ledger⟩ := (leaves_erase sized isSlot).snd
        refine ⟨kept, fun slot text spared keeps => ?_⟩
        have apart : other ≠ slot := by
          rintro rfl
          exact spared isFree
        rw [ledger]
        exact keeps.erase (lt_of_keeps keeps) apart
      · rw [erase_beyond c beyond]
        exact ⟨sized, fun _ _ _ keeps => keeps⟩

/-- The store has a record for the slot with this text, and the slot counts as occupied. -/
structure Bears (c : Catalog σ) (slot : Nat) (text : String) : Prop where
  sized : c.Sized
  keeps : c.ledger.Keeps slot text

theorem Calls.sized (calls : Calls free c after) (sized : c.Sized) : after.Sized :=
  calls.keep (fun call sized => (call.keeps sized).1) sized

theorem Calls.bears (calls : Calls (· ≠ slot) c after) (bears : c.Bears slot text) :
    after.Bears slot text := by
  have step {c after : Catalog σ} (call : Call (· ≠ slot) c after) (before : c.Bears slot text) :
      after.Bears slot text := by
    obtain ⟨sized, kept⟩ := call.keeps before.sized
    exact ⟨sized, kept slot text (by simp) before.keeps⟩
  exact calls.keep step bears

/-- A catalog that is set up anew on the same store. -/
theorem Bears.reset (bears : c.Bears slot text) : (ofStore c.store).Bears slot text := by
  obtain ⟨sized, ledger⟩ := (leaves_scan (c := { store := c.store }) bears.sized).snd
  refine ⟨sized, ?_⟩
  change (scan { store := c.store }).2.ledger.Keeps slot text
  rw [ledger]
  exact Ledger.keeps_scan (lt_of_record _) bears.keeps.text

theorem Bears.programText (bears : c.Bears slot text) :
    ∃ after, programText slot c = (some text, after) := by
  obtain ⟨after, read, -⟩ := leaves_readRecord bears.sized slot
  refine ⟨after, ?_⟩
  have occupied : c.isOccupied slot = true := bears.keeps.occupied
  unfold Catalog.programText
  change (ite (c.isOccupied slot = true) _ _ : StateM (Catalog σ) (Option String)) c = _
  rw [if_pos occupied]
  change ((readRecord slot c).1.map Record.text, (readRecord slot c).2) = _
  rw [read]
  exact congrArg (·, after) bears.keeps.text

theorem Bears.program? (bears : c.Bears slot text) {p : Program}
    (reads : Request.ofLine text = .ok (.program p)) : (program? slot c).1 = some p := by
  obtain ⟨after, read⟩ := bears.programText
  rw [program?_fst, read, Option.map_some, reads]

end Catalog

namespace Request

/-- The words that ask for something on a slot, with the space after them. -/
def slotWords : List (String × SlotVerb) :=
  [("save ", .save), ("delete ", .delete), ("run ", .run), ("auto ", .autostart)]

theorem tokens_slotWord : ∀ entry ∈ slotWords, ∀ slot < slotCount,
    Text.tokens (entry.1 ++ slot.repr).toList =
      [⟨0, entry.1.toList.dropLast⟩, ⟨entry.1.length, slot.repr.toList⟩] := by
  decide +kernel

/-- Such a word is read together with the number of a slot after it. -/
theorem ofLine_slotWord {word : String} {verb : SlotVerb} (known : (word, verb) ∈ slotWords)
    {slot : Nat} (isSlot : slot < slotCount) :
    ofLine (word ++ slot.repr) = .ok (.onSlot verb slot) := by
  have begins : Reading.start.take ⟨0, word.toList.dropLast⟩ = .ok (.awaitingSlot verb) := by
    simp only [slotWords, List.mem_cons, Prod.mk.injEq, List.not_mem_nil, or_false] at known
    rcases known with ⟨rfl, rfl⟩ | ⟨rfl, rfl⟩ | ⟨rfl, rfl⟩ | ⟨rfl, rfl⟩ <;> rfl
  have number : ∀ slot < slotCount, slotNumber? slot.repr.toList = some slot := by decide
  have ends : (Reading.awaitingSlot verb).take ⟨word.length, slot.repr.toList⟩ =
      .ok (.complete (.onSlot verb slot)) := by
    simp only [Reading.take, number slot isSlot]
  rw [ofLine_of_tokens _ (tokens_slotWord _ known slot isSlot), List.foldlM_cons, begins]
  change (Reading.take _ _ >>= fun r => _) >>= _ = _
  rw [ends]
  rfl

theorem isEmpty_of_program {line : String} {p : Program}
    (reads : ofLine line = .ok (.program p)) : line.isEmpty = false := by
  rw [← Bool.not_eq_true, String.isEmpty_iff]
  rintro rfl
  have blank : ofLine "" = .ok .nothing := ofLine_of_tokens [] (by decide +kernel)
  rw [blank] at reads
  cases reads

end Request

namespace Desk

variable {σ : Type} {d : Desk σ} {slot : Nat} {text : String}

theorem onStorage_apply {call : StoreCall (Catalog σ) Unit} {after : Catalog σ}
    (done : call d.engine.catalog = (.ok (), after)) :
    onStorage call d = (.ok (), { d with engine := { d.engine with catalog := after } }) := by
  have engine : onEngine (Engine.onStorage call) d =
      (.ok (.ok ()), { d with engine := { d.engine with catalog := after } }) := by
    change (Except.ok (call d.engine.catalog).1,
      { d with engine := { d.engine with catalog := (call d.engine.catalog).2 } }) = _
    rw [done]
  unfold onStorage
  rw [Reply.bind_apply, engine]
  rfl

theorem keepLine_apply {line : String}
    (fits : (String.ofList (Text.trim line.toList)).utf8ByteSize ≤ textRoom) :
    keepLine line d = (.ok (), { d with
      console := { d.console with lastProgram := String.ofList (Text.trim line.toList) } }) := by
  have short : (String.ofList (Text.trim line.toList)).utf8ByteSize ≤ Console.maxLineBytes :=
    Nat.le_trans fits (by decide)
  unfold keepLine
  rw [if_pos short]
  rfl

variable [ByteStore σ] [Faultless σ]

/-- The program typed last is saved if it fits a record. -/
theorem save_apply (sized : d.engine.catalog.Sized) (isSlot : slot < slotCount)
    (apart : slot ≠ manualSlot) (typed : d.console.lastProgram = text)
    (nonempty : text.isEmpty = false) (fits : text.utf8ByteSize ≤ textRoom) :
    ∃ after, save slot d = (.ok (), after) ∧ after.output = d.output ∧
      after.engine.catalog.Bears slot (storedText text) := by
  obtain ⟨after, written, kept, ledger⟩ := Catalog.leaves_write sized isSlot text
  have room : ¬ textRoom < text.utf8ByteSize := by omega
  refine ⟨{ d with engine := { d.engine with catalog := after } }, ?_, rfl, kept, ?_⟩
  · unfold save
    rw [Reply.get_bind, typed, if_neg apart, nonempty, if_neg (by decide), if_neg room]
    exact onStorage_apply written
  · rw [ledger]
    exact Ledger.keeps_write _ isSlot text

/-- A slot whose text is a program plays it. -/
theorem run_apply (bears : d.engine.catalog.Bears slot text) {p : Program}
    (reads : Request.ofLine text = .ok (.program p)) :
    ∃ after, run slot d = (.ok (), after) ∧ after.output = d.output ∧
      after.engine.board = d.engine.board.play p ∧
      after.engine.catalog.Bears slot text := by
  have isSlot := Catalog.lt_of_keeps bears.keeps
  let loaded := (Engine.load slot d.engine).2
  have board : loaded.board = d.engine.board.play p := by
    change d.engine.board.play ((Catalog.program? slot d.engine.catalog).1.getD _) = _
    rw [bears.program? reads]
    rfl
  let chosen := loaded.catalog.select (some slot)
  have calls : Catalog.Calls (· ≠ slot) d.engine.catalog chosen :=
    (Engine.leads_load slot d.engine).tail (.select (some slot))
  have played : chosen.Bears slot text := Catalog.Calls.bears calls bears
  have inside : ∀ s ∈ some slot, s < slotCount := by
    rintro s ⟨⟩
    exact isSlot
  obtain ⟨after, marked, kept, ledger⟩ := Catalog.leaves_reassign played.sized .lastUsed _ inside
  refine ⟨{ d with engine := { loaded with catalog := after } }, ?_, rfl, board, kept, ?_⟩
  · have occupied : d.engine.catalog.isOccupied slot = true := bears.keeps.occupied
    unfold run whenOccupied
    rw [Reply.get_bind, if_pos occupied]
    exact onStorage_apply (d := { d with engine := { loaded with catalog := chosen } }) marked
  · rw [ledger]
    exact played.keeps.reassign _ _

end Desk

namespace Session

/-- What can become of a session, a reset included. -/
inductive Usage
  | order (o : Order)
  | deliver
  | expire
  | wait (ms : UInt32)
  /-- The session is set up anew on the same store. -/
  | reboot (relay : RelayOutput)

/-- Texts are written and erased in free slots only. -/
def Usage.Within (free : Nat → Prop) : Usage → Prop
  | order o => o.Within free
  | deliver | expire | wait _ | reboot _ => True

variable {σ : Type}

theorem catalog_pump_one (s : Session σ) : (s.pump 1).engine.catalog = s.engine.catalog := by
  obtain ⟨engine, player, timer, console, queue, log⟩ := s
  cases queue <;> rfl

theorem catalog_fire (s : Session σ) : s.fire.2.engine.catalog = s.engine.catalog := by
  unfold fire
  dsimp only
  split <;> rfl

variable [ByteStore σ]

def use (s : Session σ) : Usage → Session σ
  | .order o => s.order o
  | .deliver => s.pump 1
  | .expire => s.fire.2
  | .wait ms => { s with timer := s.timer.advance ms }
  | .reboot relay => ofStore s.engine.catalog.store relay

/-- Console lines, one after another, each with the room there is for its answer. -/
def processLines (s : Session σ) (lines : List (String × Option Nat)) : Session σ :=
  lines.foldl (fun s l => (s.processLine l.1 l.2).2) s

/-- Lines that are no programs leave the program typed last. -/
theorem processLines_does {lines : List (String × Option Nat)}
    (commands : ∀ l ∈ lines, ∀ p, Request.ofLine l.1 ≠ .ok (.program p)) (s : Session σ) :
    Catalog.Calls (fun _ => True) s.engine.catalog (s.processLines lines).engine.catalog ∧
      (s.processLines lines).console.lastProgram = s.console.lastProgram := by
  induction lines generalizing s with
  | nil => exact ⟨.refl, rfl⟩
  | cons l rest ih =>
      obtain ⟨calls, lastProgram⟩ := Desk.leads_process (fun _ _ => trivial : Request.Within (fun _ => True) l.1)
        (commands l List.mem_cons_self) (s.deskFor l.2)
      obtain ⟨callsLater, same⟩ :=
        ih (fun other member => commands other (List.mem_cons_of_mem _ member))
          (s.processLine l.1 l.2).2
      exact ⟨Relation.ReflTransGen.trans calls callsLater, same.trans lastProgram⟩

/-- A program that is typed is remembered, but for the blanks at its ends. -/
theorem lastProgram_typed {line : String} {p : Program}
    (reads : Request.ofLine line = .ok (.program p))
    (fits : (String.ofList (Text.trim line.toList)).utf8ByteSize ≤ textRoom) (s : Session σ)
    (room : Option Nat) : (s.processLine line room).2.console.lastProgram =
      String.ofList (Text.trim line.toList) := by
  have typed : Desk.process line (s.deskFor room) = Desk.playTyped p line (s.deskFor room) := by
    unfold Desk.process
    rw [reads]
  rw [Desk.playTyped_apply, Desk.keepLine_apply fits] at typed
  rw [processLine_apply typed]
  rfl

variable [Faultless σ] {s : Session σ} {slot : Nat} {text : String}

theorem sized_ofStore {store : σ} (sized : (Faultless.image store).length = imageSize)
    (relay : RelayOutput) : (ofStore store relay).engine.catalog.Sized :=
  (Catalog.Holds.ofStore store sized).sized

/-- Whatever becomes of a session, the text of a slot stays until something is written or erased
there. -/
theorem bears_use (bears : s.engine.catalog.Bears slot text) {u : Usage}
    (within : u.Within (· ≠ slot)) : (s.use u).engine.catalog.Bears slot text := by
  cases u with
  | order o => exact Catalog.Calls.bears (s.calls_order within) bears
  | deliver =>
      have same : (s.use .deliver).engine.catalog = _ := s.catalog_pump_one
      rw [same]
      exact bears
  | expire =>
      have same : (s.use .expire).engine.catalog = _ := s.catalog_fire
      rw [same]
      exact bears
  | wait ms => exact bears
  | reboot relay => exact bears.reset

theorem bears_foldl_use (bears : s.engine.catalog.Bears slot text) {usages : List Usage}
    (within : ∀ u ∈ usages, u.Within (· ≠ slot)) :
    (usages.foldl use s).engine.catalog.Bears slot text := by
  induction usages generalizing s with
  | nil => exact bears
  | cons u rest ih =>
      exact ih (bears_use bears (within u List.mem_cons_self)) fun other member =>
        within other (List.mem_cons_of_mem _ member)

/-- A program is typed, some commands later it is saved, and whatever is done then, resets included,
if nothing is written or erased in its slot, the slot has the text that was typed but for the blanks
at its ends, and plays that program from its first step. -/
theorem plays_typed {s : Session σ} (sized : s.engine.catalog.Sized) {line : String} {p : Program}
    (reads : Request.ofLine line = .ok (.program p)) {text : String}
    (trimmed : text = String.ofList (Text.trim line.toList)) (fits : text.utf8ByteSize ≤ textRoom)
    {between : List (String × Option Nat)}
    (commands : ∀ l ∈ between, ∀ q, Request.ofLine l.1 ≠ .ok (.program q))
    {slot : Nat} (first : 1 ≤ slot) (last : slot ≤ 9) {usages : List Usage}
    (spared : ∀ u ∈ usages, u.Within (· ≠ slot)) (typing saving playing : Option Nat) :
    let ready := (s.processLine line typing).2.processLines between
    let saved := ready.processLine ("save " ++ slot.repr) saving
    let used := usages.foldl use saved.2
    let played := used.processLine ("run " ++ slot.repr) playing
    saved.1 = .ok "" ∧ played.1 = .ok "" ∧
      (Catalog.programText slot used.engine.catalog).1 = some text ∧
      (Catalog.programText slot played.2.engine.catalog).1 = some text ∧
      played.2.engine.board.program = p.rewind := by
  intro ready saved used played
  have stored : storedText text = text := by
    subst trimmed
    exact Request.storedText_trim reads fits
  have again : Request.ofLine text = .ok (.program p) := by
    subst trimmed
    unfold Request.ofLine
    rw [String.toList_ofList]
    exact Request.program_trim reads
  have isSlot : slot < slotCount := by
    unfold slotCount
    omega
  have typed : (s.processLine line typing).2.console.lastProgram = text :=
    (lastProgram_typed reads (by rw [← trimmed]; exact fits) s typing).trans trimmed.symm
  have anywhere : Order.Within (fun _ => True) (.line line typing) := fun _ _ => trivial
  have begun : (s.processLine line typing).2.engine.catalog.Sized :=
    Catalog.Calls.sized (s.calls_order anywhere) sized
  obtain ⟨calls, lastProgram⟩ := processLines_does commands (s.processLine line typing).2
  -- What is saved is what was typed, since no command in between is a program.
  obtain ⟨kept, done, answer, bears⟩ := Desk.save_apply (d := ready.deskFor saving)
    (Catalog.Calls.sized calls begun) isSlot (by unfold manualSlot; omega)
    (lastProgram.trans typed) (Request.isEmpty_of_program again) fits
  have saves : Desk.process ("save " ++ slot.repr) (ready.deskFor saving) = (.ok (), kept) := by
    unfold Desk.process
    rw [Request.ofLine_slotWord (by decide : ("save ", .save) ∈ Request.slotWords) isSlot]
    exact done
  have save : saved = _ := processLine_apply saves
  rw [stored] at bears
  have held : used.engine.catalog.Bears slot text :=
    bears_foldl_use (by rw [save]; exact bears) spared
  obtain ⟨after, ran, silent, board, still⟩ :=
    Desk.run_apply (d := used.deskFor playing) held again
  have runs : Desk.process ("run " ++ slot.repr) (used.deskFor playing) = (.ok (), after) := by
    unfold Desk.process
    rw [Request.ofLine_slotWord (by decide : ("run ", .run) ∈ Request.slotWords) isSlot]
    exact ran
  have run : played = _ := processLine_apply runs
  obtain ⟨_, here⟩ := held.programText
  obtain ⟨_, there⟩ := still.programText
  refine ⟨?_, ?_, ?_, ?_, ?_⟩
  · rw [save, answer]
    rfl
  · rw [run, silent]
    rfl
  · rw [here]
  · rw [run]
    exact congrArg Prod.fst there
  · rw [run]
    exact congrArg Board.program board

/-- A program is typed with blanks around it, saved after its slot was listed, marked to play at the
start, and played after a reset. -/
theorem plays_typed_after_reset :
    let s := Session.ofStore ({ image := Image.erased imageSize } : RamStore) (.resting false)
    let p : Program := { steps := [⟨.closes, 2000⟩, ⟨.opens, 1000⟩] }
    let ready := (s.processLine "  close 2s, O 1s " none).2.processLines [("list", some 4)]
    let saved := ready.processLine ("save " ++ Nat.repr 3) none
    let used := [Usage.order (.errand (.shelf (.designate .autostart (some 3)))),
      .order (.line "q" none), .reboot (.resting false), .order .boot, .deliver].foldl use saved.2
    let played := used.processLine ("run " ++ Nat.repr 3) none
    saved.1 = .ok "" ∧ played.1 = .ok "" ∧
      (Catalog.programText 3 used.engine.catalog).1 = some "close 2s, O 1s" ∧
      (Catalog.programText 3 played.2.engine.catalog).1 = some "close 2s, O 1s" ∧
      played.2.engine.board.program = p.rewind := by
  intro s p
  have sized : s.engine.catalog.Sized := sized_ofStore List.length_replicate (.resting false)
  have reads : Request.ofLine "  close 2s, O 1s " =
      .ok (.program p) :=
    Request.ofLine_of_tokens [⟨2, "close".toList⟩, ⟨8, "2s".toList⟩, ⟨12, "O".toList⟩,
      ⟨14, "1s".toList⟩] (by decide +kernel)
  have list : Request.ofLine "list" = .ok .list :=
    Request.ofLine_of_tokens [⟨0, "list".toList⟩] (by decide +kernel)
  have quit : Request.ofLine "q" = .ok .quit :=
    Request.ofLine_of_tokens [⟨0, "q".toList⟩] (by decide +kernel)
  have trimmed : "close 2s, O 1s" =
      String.ofList (Text.trim "  close 2s, O 1s ".toList) := by decide +kernel
  refine plays_typed sized reads trimmed (by decide) ?_ (by decide) (by decide) ?_ none none none
  · intro l member q program
    rw [List.mem_singleton.mp member, list] at program
    cases program
  · intro u member
    simp only [List.mem_cons, List.not_mem_nil, or_false] at member
    rcases member with rfl | rfl | rfl | rfl | rfl
    · trivial
    · intro slot asks
      rw [quit] at asks
      rcases asks with asks | asks <;> cases asks
    all_goals trivial

end Session

end RelayTimer
