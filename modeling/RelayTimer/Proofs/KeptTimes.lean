import RelayTimer.Proofs.KeptText
import RelayTimer.Proofs.PrintedProgram

set_option autoImplicit false

/-!
The manual program entered as times: written as text, stored, read as a program and taken apart into
minutes and seconds again, the times are what they were. Only a time of nothing is not: a step that
another one follows takes a second at least.
-/
namespace RelayTimer

open Text (IsWord)

namespace ManualTimes

section digits

variable {n : Nat}

theorem isDigit_of_mem_twoDigits {c : Char} (member : c ∈ twoDigits n) : c.isDigit = true := by
  unfold twoDigits at member
  split at member
  · rcases List.mem_cons.mp member with rfl | digit
    · rfl
    · exact isDigit_of_mem_decimal digit
  · exact isDigit_of_mem_decimal member

theorem twoDigits_ne_nil (n : Nat) : twoDigits n ≠ [] := by
  unfold twoDigits
  split
  · simp
  · exact Nat.toDigits_ne_nil

/-- A zero in front makes no difference. -/
theorem ofDigitChars_twoDigits (n : Nat) : Nat.ofDigitChars 10 (twoDigits n) 0 = n := by
  unfold twoDigits
  split
  · exact ofDigitChars_decimal n
  · exact ofDigitChars_decimal n

theorem byteLength_twoDigits (small : n < 100) : Text.byteLength (twoDigits n) ≤ 2 := by
  rw [Text.byteLength_digits fun c => isDigit_of_mem_twoDigits]
  unfold twoDigits
  split
  · rename_i single
    have one : (decimal n).length ≤ 1 :=
      (Nat.length_toDigits_le_iff (by decide) (by decide)).mpr single
    simpa using one
  · exact (Nat.length_toDigits_le_iff (by decide) (by decide)).mpr small

/-- A number with its unit. -/
theorem isWord_twoDigits (n : Nat) {unit : Char} (unbroken : Text.isSeparator unit = false) :
    IsWord (twoDigits n ++ [unit]) := by
  refine ⟨by simp, fun c member => ?_⟩
  rcases List.mem_append.mp member with digit | last
  · exact isSeparator_of_isDigit (isDigit_of_mem_twoDigits digit)
  · rw [List.mem_singleton.mp last]
    exact unbroken

theorem spells_twoDigits (n : Nat) {unit : List Char} {scale : Nat}
    (known : (unit, scale) ∈ timeUnits) : Spells (twoDigits n ++ unit) (.time (n * scale)) := by
  have spelled := Spells.time (twoDigits_ne_nil n) (fun c => isDigit_of_mem_twoDigits) known
  rwa [ofDigitChars_twoDigits] at spelled

end digits

/-- What the words of the text say. -/
def items (m : ManualTimes) : List Item :=
  [.action .closes, .time (m.onMinutes * msPerMinute), .time (m.onSeconds * msPerSecond),
    .action .opens, .time (m.offMinutes * msPerMinute), .time (m.offSeconds * msPerSecond),
    .action .loops]

/-- The words of the text. -/
def words (m : ManualTimes) : List (List Char) :=
  [['c'], twoDigits m.onMinutes ++ ['M'], twoDigits m.onSeconds ++ ['s'],
    ['o'], twoDigits m.offMinutes ++ ['M'], twoDigits m.offSeconds ++ ['s'], ['*']]

theorem words_chars (m : ManualTimes) : Text.words m.chars = m.words := by
  have joined : m.chars = [' '].intercalate m.words := by
    have letters : "c ".toList = ['c', ' '] ∧ "M ".toList = ['M', ' '] ∧
        "s o ".toList = ['s', ' ', 'o', ' '] ∧ "s *".toList = ['s', ' ', '*'] := by decide
    obtain ⟨closes, minutes, opens, loops⟩ := letters
    unfold chars words
    rw [closes, minutes, opens, loops]
    simp only [List.intercalate_cons_cons, List.intercalate_singleton, List.append_assoc,
      List.cons_append, List.nil_append]
  have letter (c : Char) (unbroken : Text.isSeparator c = false) : IsWord [c] :=
    ⟨by simp, by simpa using unbroken⟩
  rw [joined, Text.words_intercalate]
  simp only [words, List.forall_mem_cons]
  exact ⟨letter 'c' rfl, isWord_twoDigits _ rfl, isWord_twoDigits _ rfl, letter 'o' rfl,
    isWord_twoDigits _ rfl, isWord_twoDigits _ rfl, letter '*' rfl, nofun⟩

theorem spelled (m : ManualTimes) : List.Forall₂ Spells m.words m.items :=
  .cons (.closes (by simp) (by decide)) <| .cons (spells_twoDigits _ (by decide)) <|
    .cons (spells_twoDigits _ (by decide)) <| .cons (.opens (by simp) (by decide)) <|
    .cons (spells_twoDigits _ (by decide)) <| .cons (spells_twoDigits _ (by decide)) <|
    .cons .loops .nil

/-- Minutes and seconds in milliseconds. -/
def delayMs (minutes seconds : Nat) : Nat := minutes * msPerMinute + seconds * msPerSecond

/-- The seconds that are left of a time: a time of nothing becomes a second. -/
def lastingSeconds (minutes seconds : Nat) : Nat :=
  if minutes = 0 ∧ seconds = 0 then 1 else seconds

/-- The times that are left: what would take no time takes a second. -/
def lasting (m : ManualTimes) : ManualTimes :=
  { m with
    onSeconds := lastingSeconds m.onMinutes m.onSeconds
    offSeconds := lastingSeconds m.offMinutes m.offSeconds }

/-- The program that closes the contact for the one time, opens it for the other, and starts
over. -/
def program (m : ManualTimes) : Program :=
  { steps := [⟨.closes, .ofNat (delayMs m.onMinutes m.onSeconds)⟩,
      ⟨.opens, .ofNat (delayMs m.offMinutes m.offSeconds)⟩, ⟨.loops, 0⟩]
    length_le := (by decide : 3 ≤ maxSteps) }

/-- No number is larger than can be entered. -/
def InLimits (m : ManualTimes) : Prop := ∀ field, m.get field ≤ field.limit

variable {m : ManualTimes}

theorem delayMs_lt {minutes seconds : Nat} (few : minutes ≤ 99) (short : seconds ≤ 59) :
    delayMs minutes seconds < UInt32.size := by
  unfold delayMs msPerMinute msPerSecond UInt32.size
  omega

theorem minutesSeconds_delayMs {minutes seconds : Nat} (few : minutes ≤ 99)
    (short : seconds ≤ 59) : minutesSeconds (.ofNat (delayMs minutes seconds)) =
      (minutes, seconds) := by
  have value : (UInt32.ofNat (delayMs minutes seconds)).toNat = delayMs minutes seconds :=
    UInt32.toNat_ofNat_of_lt' (delayMs_lt few short)
  have whole : delayMs minutes seconds / msPerSecond = minutes * 60 + seconds := by
    unfold delayMs msPerMinute msPerSecond
    omega
  unfold minutesSeconds
  rw [value, whole]
  simp only [ManualField.limit, Prod.mk.injEq]
  omega

theorem ofProgram?_program (limits : m.InLimits) : ofProgram? m.program = some m := by
  have on := minutesSeconds_delayMs (limits .onMinutes) (limits .onSeconds)
  have off := minutesSeconds_delayMs (limits .offMinutes) (limits .offSeconds)
  simp only [get] at on off
  unfold ofProgram? program
  simp only [on, off]

theorem inLimits_lasting (limits : m.InLimits) : m.lasting.InLimits := by
  have short {minutes seconds : Nat} (short : seconds ≤ 59) :
      lastingSeconds minutes seconds ≤ 59 := by
    unfold lastingSeconds
    split
    · decide
    · exact short
  intro field
  cases field with
  | onMinutes => exact limits .onMinutes
  | onSeconds => exact short (limits .onSeconds)
  | offMinutes => exact limits .offMinutes
  | offSeconds => exact short (limits .offSeconds)

theorem timedSteps_items (m : ManualTimes) : Item.timedSteps m.items =
    [(.closes, delayMs m.onMinutes m.onSeconds), (.opens, delayMs m.offMinutes m.offSeconds),
      (.loops, 0)] := by
  simp only [items, Item.timedSteps, Item.timedActions, Item.leadingMs, Nat.add_zero, delayMs]

theorem sentence_items (limits : m.InLimits) : Item.Sentence m.items where
  notFirst := by simp [items]
  nothingBehind := by simp [items]
  sized := by
    rw [timedSteps_items]
    exact (by decide : 3 ≤ maxSteps)
  counted step member := by
    rw [timedSteps_items] at member
    simp only [List.mem_cons, List.not_mem_nil, or_false] at member
    rcases member with rfl | rfl | rfl
    · exact delayMs_lt (limits .onMinutes) (limits .onSeconds)
    · exact delayMs_lt (limits .offMinutes) (limits .offSeconds)
    · decide
  acts := ⟨.closes, by simp [items]⟩

/-- A step of no time takes a second as it is played, and so does the time that is left of it. -/
theorem ended_delayMs (kind : StepKind) (minutes seconds : Nat) :
    Item.ended (kind, delayMs minutes seconds) =
      ⟨kind, .ofNat (delayMs minutes (lastingSeconds minutes seconds))⟩ := by
  unfold Item.ended lastingSeconds
  have nothing : delayMs minutes seconds = 0 ↔ minutes = 0 ∧ seconds = 0 := by
    unfold delayMs msPerMinute msPerSecond
    omega
  simp only [nothing]
  split
  · rename_i zero
    rw [zero.1]
    rfl
  · rfl

/-- The text reads as the program of the times that are left. -/
theorem ofChars_chars (limits : m.InLimits) :
    Request.ofChars m.chars = .ok (.program m.lasting.program) := by
  have words : List.Forall₂ Spells (Text.words m.chars) m.items := by
    rw [words_chars]
    exact m.spelled
  refine (Request.program_iff_spelled _ _).mpr ⟨_, words, sentence_items limits, ?_, rfl⟩
  rw [timedSteps_items, Item.played, Item.played, ended_delayMs, ended_delayMs]
  rfl

theorem storedText_text (limits : m.InLimits) : storedText m.text = m.text := by
  refine Request.storedText_of_program (ofChars_chars limits) ?_
  have two (field : ManualField) : Text.byteLength (twoDigits (m.get field)) ≤ 2 := by
    refine byteLength_twoDigits (Nat.lt_of_le_of_lt (limits field) ?_)
    cases field <;> decide
  have onMinutes := two .onMinutes
  have onSeconds := two .onSeconds
  have offMinutes := two .offMinutes
  have offSeconds := two .offSeconds
  simp only [get] at onMinutes onSeconds offMinutes offSeconds
  rw [Text.utf8ByteSize_ofList]
  unfold chars
  simp only [Text.byteLength_append]
  have fixed : Text.byteLength "c ".toList = 2 ∧ Text.byteLength "M ".toList = 2 ∧
      Text.byteLength "s o ".toList = 4 ∧ Text.byteLength "s *".toList = 3 := by decide
  unfold textRoom
  omega

end ManualTimes

namespace Engine

/-- What can become of an engine, a reset included. -/
inductive Usage
  | use (u : Use)
  /-- The engine is set up anew on the same store. -/
  | reboot (relay : RelayOutput)

/-- Texts are written and erased in free slots only. -/
def Usage.Within (free : Nat → Prop) : Usage → Prop
  | use u => u.Within free
  | reboot _ => True

variable {σ : Type} [ByteStore σ]

def undergo (e : Engine σ) : Usage → Engine σ
  | .use u => e.use u
  | .reboot relay => ofStore e.catalog.store relay

variable [Faultless σ] {e : Engine σ} {m : ManualTimes} {slot : Nat} {text : String}

theorem sized_ofStore {store : σ} (sized : (Faultless.image store).length = imageSize)
    (relay : RelayOutput) : (ofStore store relay).catalog.Sized :=
  (Catalog.Holds.ofStore store sized).sized

theorem sized_undergo (sized : e.catalog.Sized) (usages : List Usage) :
    (usages.foldl undergo e).catalog.Sized := by
  induction usages generalizing e with
  | nil => exact sized
  | cons usage rest ih =>
    apply ih
    cases usage with
    | use u => exact Catalog.Calls.sized (e.calls_use u.within_anywhere) sized
    | reboot relay => exact sized_ofStore sized relay

/-- A text stays in its slot until something is written or erased there. -/
theorem bears_undergo (bears : e.catalog.Bears slot text) {usages : List Usage}
    (spared : ∀ u ∈ usages, u.Within (· ≠ slot)) :
    (usages.foldl undergo e).catalog.Bears slot text := by
  induction usages generalizing e with
  | nil => exact bears
  | cons usage rest ih =>
    obtain ⟨within, later⟩ := List.forall_mem_cons.mp spared
    refine ih ?_ later
    cases usage with
    | use u => exact Catalog.Calls.bears (e.calls_use within) bears
    | reboot relay => exact bears.reset

theorem program?_of_bears (bears : e.catalog.Bears manualSlot m.text) (limits : m.InLimits) :
    (Catalog.program? manualSlot e.catalog).1 = some m.lasting.program := by
  apply bears.program?
  unfold Request.ofLine ManualTimes.text
  rw [String.toList_ofList]
  exact m.ofChars_chars limits

theorem manualTimes_of_bears (bears : e.catalog.Bears manualSlot m.text) (limits : m.InLimits) :
    (manualTimes e).1 = m.lasting := by
  have found : (manualTimes e).1 =
    ((Catalog.program? manualSlot e.catalog).1.bind ManualTimes.ofProgram?).getD {} := rfl
  rw [found, program?_of_bears bears limits, Option.bind_some,
    ManualTimes.ofProgram?_program (ManualTimes.inLimits_lasting limits)]
  rfl

/-- Times are stored without fail, and are played from the first step. -/
theorem storeManual_apply (sized : e.catalog.Sized) (limits : m.InLimits) :
    ∃ after, storeManual m e = (.ok (), after) ∧ after.board = e.board.play m.lasting.program ∧
      after.catalog.Bears manualSlot m.text := by
  obtain ⟨written, done, sizedWritten, ledger⟩ :=
    Catalog.leaves_write sized (by decide : manualSlot < slotCount) m.text
  have bears : written.Bears manualSlot m.text := by
    refine ⟨sizedWritten, ?_⟩
    have keeps := e.catalog.ledger.keeps_write (by decide : manualSlot < slotCount) m.text
    rw [m.storedText_text limits] at keeps
    rw [ledger]
    exact keeps
  let mid : Engine σ := { e with catalog := written }
  have stored : onStorage (Catalog.write manualSlot m.text) e = (.ok (), mid) :=
    onStorage_apply done
  refine ⟨(load manualSlot mid).2, ?_, ?_, ?_⟩
  · unfold storeManual
    rw [StoreCall.bind_apply, stored]
    rfl
  · have board : (load manualSlot mid).2.board =
        e.board.play ((Catalog.program? manualSlot written).1.getD Program.failSafe) := rfl
    rw [board, program?_of_bears (e := mid) bears limits]
    rfl
  · exact Catalog.Calls.bears (leads_load manualSlot mid) bears

/-- Times within the limits are stored without fail, however the engine was used before. The program
that closes the contact for the one time, opens it for the other and starts over is the active one
then, before its first step. Whatever is done next, resets included, if nothing is written or erased
in the slot of the manual program, the times are read back. A time of nothing is stored as one of a
second. -/
theorem manual_times_survive {store : σ} (sized : (Faultless.image store).length = imageSize)
    (relay : RelayOutput) (before : List Usage) (limits : m.InLimits) :
    let e := before.foldl undergo (ofStore store relay)
    let stored := storeManual m e
    stored.1 = .ok () ∧ stored.2.board.program = m.lasting.program ∧
      ∀ later : List Usage, (∀ u ∈ later, u.Within (· ≠ manualSlot)) →
        (manualTimes (later.foldl undergo stored.2)).1 = m.lasting := by
  intro e stored
  obtain ⟨after, done, board, bears⟩ :=
    storeManual_apply (sized_undergo (sized_ofStore sized relay) before) limits
  have here : stored = (.ok (), after) := done
  rw [here]
  refine ⟨rfl, congrArg Board.program board, fun later spared => ?_⟩
  exact manualTimes_of_bears (bears_undergo bears spared) limits

/-- The longest time and one of nothing are stored on an inverted board after a reset, and are read
back after another program was erased and two more resets. -/
theorem manual_times_survive_resets :
    let before : List Usage := [.use (.errand (.shelf (.write 3 "o 1s"))),
      .use (.errand (.shelf (.designate .autostart (some 3)))), .reboot (.resting true), .use .boot]
    let later : List Usage := [.reboot (.resting true), .use .boot,
      .use (.errand (.shelf (.erase 3))), .reboot (.resting true)]
    let m : ManualTimes := { onMinutes := 99, onSeconds := 59, offMinutes := 0, offSeconds := 0 }
    let e := before.foldl undergo
      (ofStore ({ image := Image.erased imageSize } : RamStore) (.resting true))
    let stored := storeManual m e
    stored.1 = .ok () ∧
      stored.2.board.program.steps = [⟨.closes, 5999000⟩, ⟨.opens, 1000⟩, ⟨.loops, 0⟩] ∧
      (manualTimes (later.foldl undergo stored.2)).1 = { m with offSeconds := 1 } := by
  intro before later m
  have limits : m.InLimits := by
    intro field
    cases field <;> decide
  have spared : ∀ u ∈ later, u.Within (· ≠ manualSlot) := by
    intro u member
    simp only [later, List.mem_cons, List.not_mem_nil, or_false] at member
    rcases member with rfl | rfl | rfl | rfl
    · trivial
    · trivial
    · exact (by decide : 3 ≠ manualSlot)
    · trivial
  have times : m.lasting = { m with offSeconds := 1 } := by decide
  have steps : m.lasting.program.steps = [⟨.closes, 5999000⟩, ⟨.opens, 1000⟩, ⟨.loops, 0⟩] := by
    decide
  have sized : (Faultless.image ({ image := Image.erased imageSize } : RamStore)).length =
      imageSize := List.length_replicate
  obtain ⟨done, playing, kept⟩ := manual_times_survive sized (.resting true) before limits
  exact ⟨done, (congrArg Program.steps playing).trans steps, (kept later spared).trans times⟩

/-- On a time of nothing what is read back is not what was stored. -/
theorem manual_time_of_nothing_lost :
    let e := ofStore ({ image := Image.erased imageSize } : RamStore) (.resting false)
    let m : ManualTimes := { onMinutes := 0, onSeconds := 0, offMinutes := 0, offSeconds := 5 }
    m.InLimits ∧ (storeManual m e).1 = .ok () ∧ (manualTimes (storeManual m e).2).1 ≠ m ∧
      (storeManual m e).2.board.program.steps ≠ [⟨.closes, 0⟩, ⟨.opens, 5000⟩, ⟨.loops, 0⟩] := by
  intro e m
  have limits : m.InLimits := by
    intro field
    cases field <;> decide
  have lost {e : Engine RamStore} (sized : e.catalog.Sized) :
      (storeManual m e).1 = .ok () ∧ (manualTimes (storeManual m e).2).1 ≠ m ∧
        (storeManual m e).2.board.program.steps ≠ [⟨.closes, 0⟩, ⟨.opens, 5000⟩, ⟨.loops, 0⟩] := by
    obtain ⟨after, done, board, bears⟩ := storeManual_apply sized limits
    rw [done]
    refine ⟨rfl, ?_, ?_⟩
    · rw [manualTimes_of_bears bears limits]
      decide
    · have steps : after.board.program.steps = m.lasting.program.steps := by
        rw [board]
        rfl
      rw [steps]
      decide
  exact ⟨limits, lost (sized_ofStore List.length_replicate (.resting false))⟩

end Engine

end RelayTimer
