import RelayTimer.Config.Reader
import RelayTimer.Firmware.Task
import RelayTimer.Pin.Bank

set_option autoImplicit false

/-!
The firmware from power-up on, as it can be watched from outside.
-/
namespace RelayTimer

inductive BootError
  | pin (e : PinError)
  | store (e : StoreError)
  deriving Repr, DecidableEq

namespace Firmware

def storeSize : Nat := slotCount * recordSize

/-- The configuration that is built into the firmware. -/
def builtInConfig : String := String.intercalate "\n" [
  "# Board configuration",
  "#",
  "# Pins are written \"gpioN\"; prefix with \"!\" for an active-low signal.",
  "# GPIO0 and GPIO1 carry the console UART and cannot be used here.",
  "",
  "[relay]",
  "pin = \"gpio23\"          # relay drive output",
  "",
  "[nonc]",
  "no_pin = \"gpio2\"        # pulled low when the relay is wired NO",
  "nc_pin = \"gpio3\"        # pulled low when the relay is wired NC",
  "sample_hz = 50",
  "",
  "[console]",
  "baudrate = 115200",
  "banner = true",
  "",
  "[ui]",
  "splash_ms = 1500",
  "health_interval_ms = 5000",
  "",
  "[storage]",
  "offset = 2031616        # 0x1F0000, two sectors past the firmware image",
  ""]

/-- The configuration that a text describes, or the default one, and what is reported of that. -/
def loadConfig (text : String) : BoardConfig × List LogLine :=
  match BoardConfig.ofText text with
  | .ok config => (config, [⟨.info, "Parsed embedded configuration successfully"⟩])
  | .error e => ({}, [
      ⟨.error, "Failed to parse embedded config: " ++ Log.configError e⟩,
      ⟨.error, "Using default board configuration"⟩])

def takePins (config : BoardConfig) : Except PinError PinBank := do
  let bank ← ({} : PinBank).take config.relay.gpio
  let bank ← bank.take config.noPin.gpio
  bank.take config.ncPin.gpio

def bootReport (config : BoardConfig) (programs : Nat) : List LogLine :=
  let info (text : String) : LogLine := ⟨.info, text⟩
  [info ("Relay on GPIO" ++ config.relay.gpio.repr ++ ", NO sense on GPIO" ++
      config.noPin.gpio.repr ++ ", NC sense on GPIO" ++ config.ncPin.gpio.repr),
    info ("Program store at flash offset " ++ Log.hexadecimal config.storageOffset),
    info ("Program store scanned: " ++ programs.repr ++ " programs"),
    info ("Console UART initialized at " ++ config.baudrate.repr ++ " baud"),
    info "All tasks spawned, firmware running",
    info "Timer task started",
    info "Sequencer task started",
    info ("NO/NC sampler started, every " ++ config.samplePeriodMs.repr ++ " ms"),
    info "Wiring task started",
    info "Console task started",
    info ("Health task started, every " ++ config.healthIntervalMs.repr ++ " ms"),
    info "UI task started"]

def setUp (config : BoardConfig) (chip : FlashChip) (jumper : Jumper) : Except BootError Firmware :=
  match takePins config with
  | .error e => .error (.pin e)
  | .ok _ =>
    match FlashStore.load storeSize config.storageOffset chip with
    | (.error e, _) => .error (.store e)
    | (.ok store, _) =>
      let engine := Engine.ofStore store (RelayOutput.resting config.relay.inverted)
      .ok {
        config, jumper, engine
        sent := (if config.banner then Console.banner else "") ++ Console.prompt
        log := (bootReport config engine.catalog.occupied.slots.length).reverse
        sampler := { nextMs := 0, periodMs := config.samplePeriodMs }
        health := { nextMs := config.healthIntervalMs, periodMs := config.healthIntervalMs }
        display := .splash config.splashMs }

/-- Turns the power on: sets up the board that a text describes and runs its tasks. -/
def powerUp (text : String) (chip : FlashChip) (jumper : Jumper) : Except BootError Firmware := do
  let (config, configReport) := loadConfig text
  let f ← setUp config chip jumper
  let first : List LogLine :=
    [⟨.info, "Cyclo firmware starting..."⟩, ⟨.info, "Peripherals initialized"⟩]
  return settle passLimit { f with log := f.log ++ (first ++ configReport).reverse }

inductive Stimulus
  | receive (items : List Received)
  | wait (ms : Nat)
  | setJumper (jumper : Jumper)
  | fail (fault : Fault)
  | reset

def wait : Nat → Firmware → Firmware
  | 0, f => f
  | n + 1, f => wait n (settle passLimit { f with now := f.now + 1 })

def chip (f : Firmware) : FlashChip := f.engine.catalog.store.chip

def addFault (f : Firmware) (fault : Fault) : Firmware :=
  let catalog := f.engine.catalog
  let store := { catalog.store with chip := { f.chip with faults := f.chip.faults ++ [fault] } }
  { f with engine := { f.engine with catalog := { catalog with store } } }

/-- Does something to a board and lets its tasks run. A reset keeps what is in the flash chip and
on the pins. -/
def apply (text : String) (f : Firmware) : Stimulus → Except BootError Firmware
  | .receive items => .ok (settle passLimit { f with received := f.received ++ items })
  | .wait ms => .ok (f.wait ms)
  | .setJumper jumper => .ok (settle passLimit { f with jumper })
  | .fail fault => .ok (settle passLimit (f.addFault fault))
  | .reset => powerUp text { cells := f.chip.cells } f.jumper

def sortedLog (f : Firmware) : List String :=
  (f.log.map LogLine.line).mergeSort fun a b => a ≤ b

def quiet (f : Firmware) : Firmware := { f with sent := "", log := [] }

def sectorSum (f : Firmware) (bank : Bank) : UInt16 :=
  Checksum.ofBytes (f.chip.cells.read (FlashStore.sectorAt f.config.storageOffset bank)
    (storeSize + Seal.size))

end Firmware

end RelayTimer
