import RelayTimer.Proofs.CheckedConfig
import RelayTimer.Proofs.EditedConfig
import RelayTimer.Proofs.FlashCommit

set_option autoImplicit false

/-!
Power-up with a configuration that the check has nothing against: whether the firmware runs with
what the configuration stands for or with the default board, it gets its pins and its place for the
store, and nothing but the flash chip can stop it.
-/
namespace RelayTimer

open BoardCheck (faults)

namespace PinBank

/-- A pin that is there, is not the console's and has not been taken can be had. -/
theorem take_free {bank : PinBank} {gpio : Nat} (inside : gpio < pinCount)
    (free : gpio ∉ consolePins) (left : gpio ∉ bank.taken) :
    bank.take gpio = .ok { taken := gpio :: bank.taken } := by
  unfold take
  rw [if_neg (Nat.not_le.mpr inside), if_neg (by simpa using free), if_neg (by simpa using left)]

end PinBank

namespace BoardConfig

/-- Pins and a store that a board can be set up with. -/
structure Bootable (c : BoardConfig) : Prop where
  inside : ∀ gpio ∈ c.pins, gpio < pinCount
  free : ∀ gpio ∈ c.pins, gpio ∉ consolePins
  distinct : c.pins.Nodup
  aligned : c.storageOffset % sectorSize = 0
  onChip : c.storageOffset + 2 * sectorSize ≤ flashSize

variable {c : BoardConfig}

theorem bootable_default : Bootable {} := by
  constructor <;> decide

theorem Bootable.takePins (bootable : c.Bootable) :
    Firmware.takePins c = .ok { taken := [c.ncPin.gpio, c.noPin.gpio, c.relay.gpio] } := by
  obtain ⟨inside, free, distinct, -, -⟩ := bootable
  simp only [pins, List.forall_mem_cons] at inside free
  simp only [pins, List.nodup_cons, List.mem_cons, List.not_mem_nil, or_false, not_or] at distinct
  have relay : ({} : PinBank).take c.relay.gpio = .ok { taken := [c.relay.gpio] } :=
    PinBank.take_free inside.1 free.1 (by simp)
  have no : PinBank.take { taken := [c.relay.gpio] } c.noPin.gpio =
      .ok { taken := [c.noPin.gpio, c.relay.gpio] } :=
    PinBank.take_free inside.2.1 free.2.1 (by simpa using Ne.symm distinct.1.1)
  have nc : PinBank.take { taken := [c.noPin.gpio, c.relay.gpio] } c.ncPin.gpio =
      .ok { taken := [c.ncPin.gpio, c.noPin.gpio, c.relay.gpio] } :=
    PinBank.take_free inside.2.2.1 free.2.2.1
      (by simpa using ⟨Ne.symm distinct.2.1, Ne.symm distinct.1.2⟩)
  unfold Firmware.takePins
  rw [relay]
  change (do
    let bank ← PinBank.take { taken := [c.relay.gpio] } c.noPin.gpio
    bank.take c.ncPin.gpio) = _
  rw [no]
  exact nc

theorem Bootable.fits (bootable : c.Bootable) :
    FlashStore.fits Firmware.storeSize c.storageOffset = true :=
  (FlashStore.fits_iff ..).mpr ⟨bootable.aligned, by decide, bootable.onChip⟩

end BoardConfig

namespace BoardCheck

variable {config : ConfigValue}

/-- No pin that a configuration without faults stands for is the console's. -/
theorem board_pins_free (faultless : faults config = []) :
    ∀ gpio ∈ config.board.pins, gpio ∉ consolePins := by
  have pins := (List.append_eq_nil_iff.mp (List.append_eq_nil_iff.mp faultless).1).2
  have settings : ∀ pin ∈ defaultPins, pin.1 ∈ [Setting.relayPin, .noPin, .ncPin] := by decide
  have defaults : ∀ pin ∈ defaultPins, pin.2 ∉ consolePins := by decide
  rw [(board_pins faultless).1]
  intro gpio member
  obtain ⟨pin, isPin, rfl⟩ := List.mem_map.mp member
  rcases gpioOf_cases pins isPin with ⟨-, own⟩ | ⟨value, given, named⟩
  · rw [own]
    exact defaults pin isPin
  · obtain ⟨n, names, -, free, -⟩ :=
      pin_of_faultless pins pin.1 (settings pin isPin) value given
    rw [names] at named
    rwa [← Int.natCast_inj.mp (Option.some.inj named)]

/-- The board that a configuration without faults stands for can be set up if its pins differ. -/
theorem bootable_of_faultless (faultless : faults config = [])
    (distinct : config.board.pins.Nodup) : config.board.Bootable where
  inside := (board_pins faultless).2
  free := board_pins_free faultless
  distinct := distinct
  aligned := (board_store faultless).1
  onChip := (board_store faultless).2

end BoardCheck

namespace Firmware

variable {config : ConfigValue} {text : String} {board : BoardConfig}

theorem loadConfig_cases (text : String) :
    BoardConfig.ofText text = .ok (loadConfig text).1 ∨
      (∃ e, BoardConfig.ofText text = .error e) ∧ (loadConfig text).1 = {} := by
  unfold loadConfig
  cases BoardConfig.ofText text with
  | ok board => exact .inl rfl
  | error e => exact .inr ⟨⟨e, rfl⟩, rfl⟩

/-- A board that can be set up is stopped by the flash chip only, and only by a fault of it. -/
theorem setUp_cases (bootable : board.Bootable) (chip : FlashChip) (jumper : Jumper) :
    (∀ e, setUp board chip jumper = .error e → e = .store .io) ∧
      (chip.faults = [] → ∃ f, setUp board chip jumper = .ok f) := by
  obtain ⟨-, read, calm⟩ := FlashStore.load_cases bootable.fits chip
  unfold setUp
  rw [bootable.takePins]
  simp only
  constructor
  · intro e failed
    split at failed
    · rename_i reason after load
      rw [load] at read
      rcases read with ok | io
      · cases ok
      · obtain rfl := Except.error.inj io
        exact (Except.error.inj failed).symm
    · cases failed
  · intro quiet
    rw [calm quiet]
    exact ⟨_, rfl⟩

theorem powerUp_error_iff {chip : FlashChip} {jumper : Jumper} {e : BootError} :
    powerUp text chip jumper = .error e ↔ setUp (loadConfig text).1 chip jumper = .error e := by
  unfold powerUp
  cases done : setUp (loadConfig text).1 chip jumper with
  | error reason =>
    simp only [done]
    exact Iff.rfl
  | ok f =>
    simp only [done]
    exact ⟨nofun, nofun⟩

theorem exists_powerUp_iff {chip : FlashChip} {jumper : Jumper} :
    (∃ f, powerUp text chip jumper = .ok f) ↔
      ∃ f, setUp (loadConfig text).1 chip jumper = .ok f := by
  unfold powerUp
  cases done : setUp (loadConfig text).1 chip jumper with
  | error reason =>
    simp only [done]
    exact Iff.rfl
  | ok f =>
    simp only [done]
    exact ⟨fun _ => ⟨f, rfl⟩, fun _ => ⟨_, rfl⟩⟩

/-- The board that a checked configuration is run with, or the default one in its place, gets its
pins and its store, and only the flash chip can keep it from starting. -/
theorem checked_board_boots (checked : faults config = [])
    (reads : ∀ board, BoardConfig.ofText text = .ok board → board = config.board) :
    let board := (loadConfig text).1
    (board = config.board ∨ board = {}) ∧ (∃ bank, takePins board = .ok bank) ∧
      1 ≤ board.samplePeriodMs ∧
      ∀ chip jumper,
        (FlashStore.load storeSize board.storageOffset chip).1 ≠ .error .outOfRange ∧
        (∀ e, powerUp text chip jumper = .error e → e = .store .io) ∧
        (chip.faults = [] → ∃ f, powerUp text chip jumper = .ok f) := by
  intro board
  have started : (board = config.board ∨ board = {}) ∧ board.Bootable := by
    rcases loadConfig_cases text with read | ⟨-, default⟩
    · obtain ⟨p, -, -, valid⟩ := BoardConfig.ofText_eq_ok_iff.mp read
      have same : board = config.board := reads _ read
      refine ⟨.inl same, ?_⟩
      have distinct : board.pins.Nodup := (BoardConfig.pins_of_validate valid).2
      rw [same] at distinct ⊢
      exact BoardCheck.bootable_of_faultless checked distinct
    · have same : board = {} := default
      exact ⟨.inr same, same ▸ BoardConfig.bootable_default⟩
  obtain ⟨which, bootable⟩ := started
  refine ⟨which, ⟨_, bootable.takePins⟩, board.samplePeriodMs_pos, fun chip jumper => ?_⟩
  obtain ⟨-, read, -⟩ := FlashStore.load_cases bootable.fits chip
  obtain ⟨stops, starts⟩ := setUp_cases bootable chip jumper
  refine ⟨?_, fun e failed => ?_, fun quiet => ?_⟩
  · rcases read with ok | io
    · rw [ok]
      nofun
    · rw [io]
      nofun
  · exact stops e (powerUp_error_iff.mp failed)
  · exact exists_powerUp_iff.mpr (starts quiet)

/-- The relay is on the last pin there is, and the store is in the last two sectors. -/
def lastPlaces : ConfigValue :=
  .table [("relay", .table [("pin", .text "!gpio29")]),
    ("storage", .table [("offset", .integer 2088960)])]

theorem lastPlaces_checked : faults lastPlaces = [] := by
  have layout : BoardCheck.layoutFaults lastPlaces = [] := by
    refine BoardCheck.layoutFaults_table.mpr ?_
    simp only [List.forall_mem_cons, BoardCheck.sectionFaults_eq_nil_iff, List.not_mem_nil,
      false_implies, implies_true, and_true]
    refine ⟨⟨.relayPin, _, rfl, rfl, ?_⟩, ⟨.storageOffset, _, rfl, rfl, ?_⟩⟩
    · simpa using ⟨.relayPin, rfl, rfl⟩
    · simpa using ⟨.storageOffset, rfl, rfl⟩
  have rest : BoardCheck.pinFaults lastPlaces ++ BoardCheck.numberFaults lastPlaces = [] := by
    decide +kernel
  rw [faults, layout, List.nil_append, rest]

/-- A configuration that is read, and one that is refused after the check has passed it. -/
theorem checked_board_boots_either_way :
    (faults lastPlaces = [] ∧
      BoardConfig.ofText "[relay]\npin = \"!gpio29\"\n[storage]\noffset = 2_088_960\n" =
        .ok { relay := ⟨29, true⟩, storageOffset := 2088960 } ∧
      ∃ f, powerUp "[relay]\npin = \"!gpio29\"\n[storage]\noffset = 2_088_960\n" {} {} =
        .ok f) ∧
    (faults BoardCheck.crossed = [] ∧
      BoardConfig.ofText "[relay]\npin = \"gpio2\"\n" = .error .invalidPin ∧
      ∃ f, powerUp "[relay]\npin = \"gpio2\"\n" {} {} = .ok f) := by
  have read :
      BoardConfig.ofText "[relay]\npin = \"!gpio29\"\n[storage]\noffset = 2_088_960\n" =
        .ok lastPlaces.board := by
    decide +kernel
  have refused : BoardConfig.ofText "[relay]\npin = \"gpio2\"\n" = .error .invalidPin := by
    decide +kernel
  have passed : faults BoardCheck.crossed = [] := by decide +kernel
  refine ⟨⟨lastPlaces_checked, by decide +kernel, ?_⟩, passed, refused, ?_⟩
  · have boots := checked_board_boots lastPlaces_checked fun board done =>
      Except.ok.inj (done.symm.trans read)
    exact (boots.2.2.2 {} {}).2.2 rfl
  · have unread : ∀ board, BoardConfig.ofText "[relay]\npin = \"gpio2\"\n" = .ok board →
        board = BoardCheck.crossed.board := by
      rw [refused]
      nofun
    exact ((checked_board_boots passed unread).2.2.2 {} {}).2.2 rfl

end Firmware

end RelayTimer
