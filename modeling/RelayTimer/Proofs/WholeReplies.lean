import RelayTimer.Proofs.HopelessWord
import RelayTimer.Proofs.RunRequests
import RelayTimer.Proofs.SlotWalk
import RelayTimer.Proofs.TaskTurns
import RelayTimer.Proofs.TrimmedLine

set_option autoImplicit false

/-!
How much the console answers. Whatever is stored and whatever fails meanwhile, no answer to a line is
longer than the help text, so none is cut off where the firmware has room for it.
-/
namespace RelayTimer

namespace Reading

/-- The program numbers that have been read are numbers of slots. -/
def SlotsOnly : Reading → Prop
  | steps d => ∀ slot ∈ d.slot, slot < slotCount
  | awaitingSlot _ => True
  | complete request => ∀ verb slot, request = .onSlot verb slot → slot < slotCount

theorem slotsOnly_of_keyword? {token : List Char} {next : Reading}
    (found : keyword? token = some next) : next.SlotsOnly := by
  obtain ⟨entry, first, rfl⟩ := Option.map_eq_some_iff.mp found
  have known := List.mem_of_find?_eq_some first
  simp only [keywords, List.mem_cons, List.not_mem_nil, or_false] at known
  have unnumbered {request : Request} (other : ∀ verb slot, request ≠ .onSlot verb slot) :
      (complete request).SlotsOnly := fun verb slot same => absurd same (other verb slot)
  rcases known with rfl | rfl | rfl | rfl | rfl | rfl | rfl
  · exact unnumbered fun _ _ => Request.noConfusion
  · exact unnumbered fun _ _ => Request.noConfusion
  · exact unnumbered fun _ _ => Request.noConfusion
  all_goals trivial

theorem SlotsOnly.take {r after : Reading} {t : Text.Token} (only : r.SlotsOnly)
    (taken : r.take t = .ok after) : after.SlotsOnly := by
  cases r with
  | complete request => cases taken
  | awaitingSlot verb =>
      simp only [Reading.take] at taken
      split at taken
      · rename_i slot digit
        cases taken
        rintro _ _ ⟨⟩
        exact ((slotNumber?_some_iff ..).mp digit).1
      · cases taken
  | steps d =>
      have small (slot : Nat) (found : (smallNumber? t <|> d.slot) = some slot) :
          slot < slotCount := by
        cases number : smallNumber? t with
        | none =>
            rw [number] at found
            exact only slot found
        | some n =>
            rw [number] at found
            cases found
            unfold smallNumber? at number
            split at number
            · rename_i below
              cases number
              rw [Bool.and_eq_true] at below
              exact of_decide_eq_true below.2
            · cases number
      cases (take_steps_iff ..).mp taken with
      | delay reads added =>
          intro slot found
          rw [Draft.addDelay_slot added] at found
          exact small slot found
      | step noDelay word added =>
          intro slot found
          rw [Draft.addStep_slot added] at found
          exact only slot found
      | keyword noDelay noStep found first => exact slotsOnly_of_keyword? found

theorem SlotsOnly.finish {r : Reading} {length : Nat} {verb : SlotVerb} {slot : Nat}
    (only : r.SlotsOnly) (finished : r.finish length = .ok (.onSlot verb slot)) :
    slot < slotCount := by
  cases r with
  | complete request =>
      cases finished
      exact only verb slot rfl
  | awaitingSlot _ => cases finished
  | steps d =>
      simp only [Reading.finish] at finished
      split at finished
      · cases finished
      · split at finished
        · cases finished
        · split at finished
          · rename_i number
            cases finished
            exact only slot number
          · cases finished

end Reading

namespace Request

/-- A request that names a slot names one that there is. -/
theorem slot_lt {line : String} {verb : SlotVerb} {slot : Nat}
    (read : ofLine line = .ok (.onSlot verb slot)) : slot < slotCount := by
  obtain ⟨r, taken, finished⟩ := (bind_eq_ok_iff ..).mp read
  have begun : Reading.start.SlotsOnly := nofun
  exact (Reading.foldlM_keeps Reading.SlotsOnly.take begun taken).finish finished

/-- An error is at a place in the line, or behind it. -/
theorem offset_le {line : String} {e : LineError} (fails : ofLine line = .error e) :
    e.offset ≤ line.toList.length := by
  rcases ofLine_eq_error fails with
    ⟨before, t, after, r, tokens, read, refused⟩ | ⟨r, read, unfinished⟩
  · obtain ⟨front, back, around, place, -⟩ := Text.around_of_tokensFrom tokens
    have inside := (Reading.pointsAt_of_take refused).offset_le
    have length := around.length
    omega
  · rcases Reading.finish_eq_error unfinished with rfl | ⟨d, rfl, alone, rfl⟩
    · exact Nat.le_refl _
    · obtain ⟨first, rest, tokens, place⟩ := Reading.delayOffset_of_reads
        (fun t member => Text.ne_nil_of_mem_tokensFrom member) read alone
      obtain ⟨front, back, around, there, -⟩ :=
        Text.around_of_tokensFrom (tokens.trans (List.nil_append _).symm)
      have length := around.length
      dsimp only
      omega

end Request

namespace Output

/-- How many bytes the pieces of a text take. -/
def size (pieces : List String) : Nat := (pieces.map String.utf8ByteSize).sum

theorem size_cons (piece : String) (rest : List String) :
    size (piece :: rest) = piece.utf8ByteSize + size rest := rfl

theorem size_append (first second : List String) :
    size (first ++ second) = size first + size second := by
  unfold size
  rw [List.map_append, List.sum_append]

/-- Pieces are written one after another where there is room for all of them. -/
theorem writeAll_of_room (pieces : List String) (o : Output)
    (roomy : ∀ bound ∈ o.room, o.text.utf8ByteSize + size pieces ≤ bound) :
    o.writeAll pieces = (.ok (), { o with text := pieces.foldl (· ++ ·) o.text }) := by
  induction pieces generalizing o with
  | nil => rfl
  | cons piece rest ih =>
      have fits : o.room.all (o.text.utf8ByteSize + piece.utf8ByteSize ≤ ·) = true := by
        cases room : o.room with
        | none => rfl
        | some bound =>
            have enough := roomy bound room
            rw [size_cons] at enough
            exact decide_eq_true (by omega)
      have written : o.write piece = .ok { o with text := o.text ++ piece } := if_pos fits
      have later := ih { o with text := o.text ++ piece } fun bound room => by
        have enough := roomy bound room
        rw [size_cons] at enough
        rw [String.utf8ByteSize_append]
        omega
      simp only [writeAll, written]
      exact later

theorem utf8ByteSize_foldl (pieces : List String) (text : String) :
    (pieces.foldl (· ++ ·) text).utf8ByteSize = text.utf8ByteSize + size pieces := by
  induction pieces generalizing text with
  | nil => rfl
  | cons piece rest ih =>
      rw [List.foldl_cons, ih, String.utf8ByteSize_append, size_cons, Nat.add_assoc]

end Output

namespace Catalog

variable {σ : Type}

theorem byteSize_recordText (r : Record) : r.text.utf8ByteSize ≤ textRoom := by
  unfold Record.text Text.ofUtf8? String.fromUTF8?
  split
  · rename_i valid
    have short : (r.field.takeWhile (· ≠ 0)).length ≤ r.field.length :=
      (List.takeWhile_prefix _).length_le
    rw [r.length_field] at short
    exact short
  · exact Nat.zero_le _

/-- Whatever a store holds, what is shown of a slot has room in a record. -/
theorem byteSize_programText [ByteStore σ] (slot : Nat) (c : Catalog σ) :
    ((programText slot c).1.getD "").utf8ByteSize ≤ textRoom := by
  have nothing : ("" : String).utf8ByteSize ≤ textRoom := Nat.zero_le _
  have looked : programText slot c =
      (if c.isOccupied slot then do return (← readRecord slot).map Record.text else return none :
        StateM (Catalog σ) (Option String)) c := rfl
  rw [looked]
  split
  · change ((readRecord slot c).1.map Record.text |>.getD "").utf8ByteSize ≤ textRoom
    cases (readRecord slot c).1 with
    | none => exact nothing
    | some r => exact byteSize_recordText r
  · exact nothing

end Catalog

/-- The desk with another bound on what is answered. -/
def Desk.withRoom {σ : Type} (d : Desk σ) (room : Option Nat) : Desk σ :=
  { d with output := { d.output with room } }

namespace Reply

variable {σ α β : Type} {P : α → Prop} {Q : β → Prop} {size more most : Nat}

/-- A reply with at most `size` bytes of text. Where there is room for as many it comes to a value
with the property, and it is all the same then what the bound is, or whether there is one. -/
def Takes (size : Nat) (P : α → Prop) (reply : Reply σ α) : Prop :=
  ∀ d : Desk σ, ∃ (a : α) (after : Desk σ), P a ∧
    after.output.text.utf8ByteSize ≤ d.output.text.utf8ByteSize + size ∧
    ∀ room : Option Nat, (∀ bound ∈ room, d.output.text.utf8ByteSize + size ≤ bound) →
      reply (d.withRoom room) = (.ok a, after.withRoom room)

theorem Takes.pure {a : α} (holds : P a) : Takes 0 P (Pure.pure a : Reply σ α) :=
  fun d => ⟨a, d, holds, Nat.le_refl _, fun _ _ => rfl⟩

theorem Takes.mono {reply : Reply σ α} (takes : Takes size P reply) (fewer : size ≤ most) :
    Takes most P reply := by
  intro d
  obtain ⟨a, after, holds, short, same⟩ := takes d
  refine ⟨a, after, holds, by omega, fun room roomy => same room fun bound isBound => ?_⟩
  have enough := roomy bound isBound
  omega

theorem Takes.bind {reply : Reply σ α} {next : α → Reply σ β} (first : Takes size P reply)
    (later : ∀ a, P a → Takes more Q (next a)) : Takes (size + more) Q (reply >>= next) := by
  intro d
  obtain ⟨a, mid, holds, short, same⟩ := first d
  obtain ⟨b, after, holdsLater, shortLater, sameLater⟩ := later a holds mid
  refine ⟨b, after, holdsLater, by omega, fun room roomy => ?_⟩
  have enough : ∀ bound ∈ room, d.output.text.utf8ByteSize + size ≤ bound := by
    intro bound isBound
    have := roomy bound isBound
    omega
  have left : ∀ bound ∈ room, mid.output.text.utf8ByteSize + more ≤ bound := by
    intro bound isBound
    have := roomy bound isBound
    omega
  rw [bind_apply, same room enough]
  exact sameLater room left

/-- A reply that begins with something that is no text, and that does not look at how much room
there is. -/
theorem Takes.after {reply : Reply σ α} (start : Desk σ → Desk σ) (rest : Desk σ → Reply σ α)
    (silent : ∀ d, (start d).output = d.output)
    (goes : ∀ d room, reply (d.withRoom room) = rest d ((start d).withRoom room))
    (takes : ∀ d, Takes size P (rest d)) : Takes size P reply := by
  intro d
  obtain ⟨a, last, holds, short, same⟩ := takes d (start d)
  rw [silent] at short same
  refine ⟨a, last, holds, short, fun room roomy => ?_⟩
  rw [goes]
  exact same room roomy

/-- Where there is room for as much, a reply is written whole. -/
theorem Takes.whole {reply : Reply σ α} (takes : Takes size P reply) (console : Console)
    (engine : Engine σ) {room : Nat} (enough : size ≤ room) :
    ∃ (a : α) (after : Desk σ), P a ∧ reply { console, engine } = (.ok a, after) ∧
      reply { console, engine, output := { room := some room } } =
        (.ok a, after.withRoom (some room)) ∧ after.output.text.utf8ByteSize ≤ size := by
  obtain ⟨a, after, holds, short, same⟩ := takes { console, engine }
  have begun : ("" : String).utf8ByteSize + size = size := Nat.zero_add size
  refine ⟨a, after.withRoom none, holds, same none nofun, same (some room) ?_, ?_⟩
  · intro bound isBound
    cases isBound
    exact (Nat.le_of_eq begun).trans enough
  · exact short.trans (Nat.le_of_eq begun)

theorem Takes.ite {p : Prop} [Decidable p] {yes no : Reply σ α} (first : Takes size P yes)
    (second : Takes size P no) : Takes size P (if p then yes else no) := by
  split
  · exact first
  · exact second

end Reply

namespace Desk

open Reply (Takes)
open Output (size)

variable {σ α : Type} {P : α → Prop}

theorem say_apply (pieces : List String) (d : Desk σ) : say pieces d =
    ((d.output.writeAll pieces).1, { d with output := (d.output.writeAll pieces).2 }) := rfl

theorem takes_say (pieces : List String) :
    Takes (size pieces) (fun _ => True) (say pieces : Reply σ Unit) := by
  intro d
  refine ⟨(), { d with output := { d.output with
    text := pieces.foldl (· ++ ·) d.output.text } }, trivial, ?_, fun room roomy => ?_⟩
  · exact Nat.le_of_eq (Output.utf8ByteSize_foldl pieces d.output.text)
  · have written := Output.writeAll_of_room pieces (d.withRoom room).output roomy
    rw [say_apply, written]
    rfl

theorem takes_onEngine {step : StateM (Engine σ) α} (value : ∀ e, P (step e).1) :
    Takes 0 P (onEngine step) :=
  fun d => ⟨(step d.engine).1, { d with engine := (step d.engine).2 }, value d.engine,
    Nat.le_refl _, fun _ _ => rfl⟩

theorem takes_onBoard (change : Board → Board) :
    Takes 0 (fun _ => True) (onBoard change : Reply σ Unit) := takes_onEngine fun _ => trivial

theorem takes_setConsole (change : Console → Console) :
    Takes 0 (fun _ => True) (setConsole change : Reply σ Unit) :=
  fun d => ⟨(), { d with console := change d.console }, trivial, Nat.le_refl _, fun _ _ => rfl⟩

/-! ## Answers -/

theorem size_remark (message : String) :
    size (Console.remark message) = message.utf8ByteSize + 4 := by
  have around : "# ".utf8ByteSize = 2 ∧ size ["\r\n"] = 2 := by decide
  rw [Console.remark, Output.size_cons, Output.size_cons, around.1, around.2]
  omega

theorem size_replicate (count : Nat) : size (List.replicate count " ") = count := by
  have blank : " ".utf8ByteSize = 1 := by decide
  simp [size, List.map_replicate, blank]

theorem size_errorReply (e : LineError) : size (Console.errorReply e) ≤ e.offset + 57 := by
  have message : e.fault.message.utf8ByteSize ≤ LineFault.maxMessageBytes := by
    unfold LineFault.message
    rw [Text.utf8ByteSize_ofList]
    exact Text.byteLength_cut_le _ _
  have begins : "#".utf8ByteSize = 1 ∧ "^\r\n".utf8ByteSize = 3 := by decide
  have most : LineFault.maxMessageBytes = 48 := rfl
  unfold Console.errorReply
  rw [Output.size_append, Output.size_cons, Output.size_cons, size_replicate, size_remark]
  omega

theorem size_noProgram : ∀ slot < slotCount, size (Console.noProgram slot) = 28 := by decide

theorem size_listEntry (autostart lastUsed : Bool) (text : String) : ∀ slot < slotCount,
    size (Console.listEntry slot autostart lastUsed text) = text.utf8ByteSize + 10 := by
  have digit : ∀ slot < slotCount, slot.repr.utf8ByteSize = 1 := by decide
  have flag (raised : Bool) : ∀ letter ∈ ["A", "L"],
      (if raised then letter else " ").utf8ByteSize = 1 := by
    cases raised <;> decide
  have around : "  ".utf8ByteSize = 2 ∧ ":".utf8ByteSize = 1 ∧ size ["\r\n"] = 2 := by decide
  intro slot isSlot
  unfold Console.listEntry
  simp only [Output.size_cons, around, digit slot isSlot, flag autostart "A" (by simp),
    flag lastUsed "L" (by simp)]
  omega

/-! ## Requests -/

/-- No remark on what became of a request takes more bytes. -/
def remarkSize : Nat := 42

theorem takes_remark {pieces : List String} (short : size pieces ≤ remarkSize) :
    Takes remarkSize (fun _ => True) (say pieces : Reply σ Unit) := (takes_say pieces).mono short

theorem takes_onStorage (call : StoreCall (Catalog σ) Unit) :
    Takes remarkSize (fun _ => True) (onStorage call) := by
  have tried : Takes 0 (fun _ => True) (onEngine (Engine.onStorage call)) :=
    takes_onEngine fun _ => trivial
  refine Takes.mono (?_ : Takes (0 + remarkSize) (fun _ => True) (onStorage call)) (by decide)
  refine tried.bind fun answer _ => ?_
  cases answer with
  | ok => exact (Takes.pure trivial).mono (Nat.zero_le _)
  | error e => exact takes_remark (by decide)

theorem takes_keepLine (line : String) :
    Takes remarkSize (fun _ => True) (keepLine line : Reply σ Unit) := by
  refine .ite ((takes_setConsole _).mono (Nat.zero_le _)) ?_
  exact (Takes.bind (takes_setConsole _) fun _ _ => takes_say _).mono (by decide)

theorem takes_playTyped (p : Program) (line : String) :
    Takes remarkSize (fun _ => True) (playTyped p line : Reply σ Unit) :=
  Takes.after
    (fun d => { d with
      console := { d.console with owning := true }
      engine := d.engine.onBoard fun b =>
        (if d.console.owning then b else b.publish .consoleTook).play p })
    (fun _ => keepLine line) (fun _ => rfl) (fun d room => playTyped_apply p line (d.withRoom room))
    fun _ => takes_keepLine line

theorem takes_quit : Takes 0 (fun _ => True) (quit : Reply σ Unit) := by
  let leave : Reply σ Unit := do
    setConsole fun c => { c with owning := false }
    onBoard (·.publish .consoleLeft)
  have leaves : Takes 0 (fun _ => True) leave :=
    (Takes.bind (takes_setConsole _) fun _ _ => takes_onBoard _).mono (Nat.le_refl 0)
  refine Takes.after id
    (fun d => if d.console.owning then onBoard (·.stop) >>= fun _ => leave else leave)
    (fun _ => rfl) (fun _ _ => rfl) fun d => .ite ?_ leaves
  exact (Takes.bind (takes_onBoard _) fun _ _ => leaves).mono (Nat.le_refl 0)

theorem takes_whenOccupied {act : Reply σ Unit} {slot : Nat} (isSlot : slot < slotCount)
    (takes : Takes remarkSize (fun _ => True) act) :
    Takes remarkSize (fun _ => True) (whenOccupied slot act) := by
  have short : size (Console.noProgram slot) ≤ remarkSize := by
    rw [size_noProgram slot isSlot]
    decide
  exact Takes.after id
    (fun d =>
      if d.engine.catalog.isOccupied slot then act else say (Console.noProgram slot))
    (fun _ => rfl) (fun _ _ => rfl) fun _ => .ite takes (takes_remark short)

section store

variable [ByteStore σ]

theorem takes_save (slot : Nat) : Takes remarkSize (fun _ => True) (save slot : Reply σ Unit) := by
  refine Takes.after id
    (fun d =>
      if slot = manualSlot then say (Console.remark "Program 0 is set from the front panel")
      else if d.console.lastProgram.isEmpty then say (Console.remark "No valid program to save")
      else if textRoom < d.console.lastProgram.utf8ByteSize then
        say (Console.remark "Program too long to save")
      else onStorage (Catalog.write slot d.console.lastProgram))
    (fun _ => rfl) (fun _ _ => rfl) fun d => ?_
  refine .ite (takes_remark (by decide)) (.ite (takes_remark (by decide)) ?_)
  exact .ite (takes_remark (by decide)) (takes_onStorage _)

theorem takes_delete (slot : Nat) :
    Takes remarkSize (fun _ => True) (delete slot : Reply σ Unit) :=
  .ite (takes_remark (by decide)) (takes_onStorage _)

theorem takes_run {slot : Nat} (isSlot : slot < slotCount) :
    Takes remarkSize (fun _ => True) (run slot : Reply σ Unit) := by
  have silent (step : StateM (Engine σ) Unit) : Takes 0 (fun _ => True) (onEngine step) :=
    takes_onEngine fun _ => trivial
  refine takes_whenOccupied isSlot (Takes.mono ?_ (by decide : 0 + (0 + remarkSize) ≤ remarkSize))
  exact Takes.bind (silent _) fun _ _ => Takes.bind (silent _) fun _ _ => takes_onStorage _

theorem takes_autostart {slot : Nat} (isSlot : slot < slotCount) :
    Takes remarkSize (fun _ => True) (autostart slot : Reply σ Unit) :=
  takes_whenOccupied isSlot (takes_onStorage _)

theorem takes_listSlots (autostart lastUsed : Option Nat) (slots : List Nat)
    (areSlots : ∀ slot ∈ slots, slot < slotCount) :
    Takes (slots.length * (textRoom + 10)) (fun _ => True)
      (listSlots autostart lastUsed slots : Reply σ Unit) := by
  induction slots with
  | nil => exact Takes.pure trivial
  | cons slot rest ih =>
      have later := ih fun other member => areSlots other (List.mem_cons_of_mem _ member)
      have entry (auto last : Bool) (text : String) (short : text.utf8ByteSize ≤ textRoom) :
          Takes (textRoom + 10) (fun _ => True)
            (say (Console.listEntry slot auto last text) : Reply σ Unit) := by
        refine (takes_say _).mono ?_
        rw [size_listEntry _ _ _ slot (areSlots slot List.mem_cons_self)]
        exact Nat.add_le_add_right short 10
      have whole : (slot :: rest).length * (textRoom + 10) =
          0 + (textRoom + 10 + rest.length * (textRoom + 10)) := by
        rw [List.length_cons, Nat.add_mul, Nat.one_mul, Nat.zero_add, Nat.add_comm]
      rw [whole]
      refine Takes.bind (P := fun text : Option String => (text.getD "").utf8ByteSize ≤ textRoom)
        (takes_onEngine fun e => Catalog.byteSize_programText slot e.catalog) fun text short => ?_
      exact Takes.bind (entry _ _ _ short) fun _ _ => later

/-- Ten slots are listed at most. -/
theorem takes_listPrograms :
    Takes (slotCount * (textRoom + 10)) (fun _ => True) (listPrograms : Reply σ Unit) := by
  let looked (d : Desk σ) : Desk σ :=
    { d with engine := { d.engine with catalog := (Catalog.scan d.engine.catalog).2 } }
  refine Takes.after looked
    (fun d => listSlots (looked d).engine.catalog.autostart
      (looked d).engine.catalog.lastUsed (looked d).engine.catalog.occupied.slots)
    (fun _ => rfl) (fun _ _ => rfl) fun d => ?_
  obtain ⟨p, -, found⟩ := Catalog.occupied_scan d.engine.catalog
  have slots : (looked d).engine.catalog.occupied.slots = (List.range slotCount).filter p :=
    congrArg Occupancy.slots found
  rw [slots]
  refine (takes_listSlots _ _ _ fun slot member => ?_).mono (Nat.mul_le_mul_right _ ?_)
  · exact List.mem_range.mp (List.mem_filter.mp member).1
  · exact (List.length_filter_le ..).trans (Nat.le_of_eq List.length_range)

/-- The help text is the longest answer. -/
theorem takes_process (line : String) (fits : line.utf8ByteSize ≤ Console.maxLineBytes) :
    Takes Console.helpText.utf8ByteSize (fun _ => True) (process line : Reply σ Unit) := by
  have most : Console.helpText.utf8ByteSize = 710 := by decide +kernel
  have room : Console.maxLineBytes = 80 := rfl
  unfold process
  rw [most]
  cases read : Request.ofLine line with
  | error e =>
      have inside := Request.offset_le read
      have narrow := Text.length_le_byteLength line.toList
      have sized := Text.utf8ByteSize_ofList line.toList
      rw [String.ofList_toList] at sized
      have short := size_errorReply e
      exact (takes_say _).mono (by omega)
  | ok request =>
      cases request with
      | nothing => exact (Takes.pure trivial).mono (Nat.zero_le _)
      | program p => exact (takes_playTyped p line).mono (by decide : remarkSize ≤ 710)
      | help =>
          refine (takes_say _).mono ?_
          rw [Output.size_cons, most]
          exact Nat.le_refl _
      | list => exact takes_listPrograms.mono (by decide)
      | quit => exact takes_quit.mono (by decide)
      | onSlot verb slot =>
          have isSlot := Request.slot_lt read
          have short : remarkSize ≤ 710 := by decide
          cases verb with
          | save => exact (takes_save slot).mono short
          | delete => exact (takes_delete slot).mono short
          | run => exact (takes_run isSlot).mono short
          | autostart => exact (takes_autostart isSlot).mono short

theorem room_for_helpText : Console.helpText.utf8ByteSize ≤ Firmware.replySize := by decide +kernel

/-- No answer is cut off. Whatever the console and the store hold and whatever fails meanwhile, a line
that is not too long is answered in the firmware's buffer just as where there is no bound, and no
answer is longer than the help text. -/
theorem process_whole (console : Console) (engine : Engine σ) (line : String)
    (fits : line.utf8ByteSize ≤ Console.maxLineBytes) :
    ∃ after : Desk σ,
      process line { console, engine } = (.ok (), after) ∧
      process line { console, engine, output := { room := some Firmware.replySize } } =
        (.ok (), after.withRoom (some Firmware.replySize)) ∧
      after.output.text.utf8ByteSize ≤ Console.helpText.utf8ByteSize := by
  obtain ⟨⟨⟩, after, -, whole⟩ := (takes_process line fits).whole console engine room_for_helpText
  exact ⟨after, whole⟩

/-- The mark is under the last place that a line can have, and under what is missed there. -/
theorem process_whole_slotMissing :
    let line := String.ofList (List.replicate 77 ' ' ++ "run".toList)
    let engine := Engine.ofStore ({ image := Image.erased imageSize } : RamStore) (.resting false)
    line.utf8ByteSize = Console.maxLineBytes ∧
    Request.ofLine line = .error ⟨.slotMissing, 80⟩ ∧ ∃ after : Desk RamStore,
      process line { console := {}, engine } = (.ok (), after) ∧
      process line { console := {}, engine, output := { room := some Firmware.replySize } } =
        (.ok (), after.withRoom (some Firmware.replySize)) ∧
      after.output.text.utf8ByteSize ≤ Console.helpText.utf8ByteSize := by
  intro line engine
  have full : line.utf8ByteSize = Console.maxLineBytes := by decide +kernel
  refine ⟨full, ?_, process_whole {} engine line (Nat.le_of_eq full)⟩
  have length : line.toList.length = 80 := by
    rw [String.toList_ofList]
    rfl
  rw [Request.ofLine_of_tokens [⟨77, ['r', 'u', 'n']⟩] (by decide +kernel), length]
  rfl

end store

end Desk

/-- All of the answer to a line is sent, and the prompt behind it. -/
theorem Firmware.submitLine_whole (f : Firmware)
    (fits : (String.ofList f.editor.line).utf8ByteSize ≤ Console.maxLineBytes) :
    ∃ after : Desk FlashStore,
      Desk.process (String.ofList f.editor.line) { f.desk with output := {} } = (.ok (), after) ∧
      f.submitLine = (f.leaveDesk after).deliver.answer (.ok ()) after.output.text := by
  obtain ⟨⟨⟩, after, -, whole, bounded, -⟩ :=
    (Desk.takes_process _ fits).whole f.console f.engine Desk.room_for_helpText
  refine ⟨after, whole, ?_⟩
  have answered : Desk.process (String.ofList f.editor.line) f.desk =
      (.ok (), after.withRoom (some replySize)) := bounded
  rw [submitLine_eq, answered]
  rfl

end RelayTimer
