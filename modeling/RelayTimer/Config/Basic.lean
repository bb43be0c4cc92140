import RelayTimer.Flash.Chip
import RelayTimer.Pin.Bank

set_option autoImplicit false

/-!
The board: which pins drive the relay and sense its wiring, how the console and the display behave,
and where programs are stored.
-/
namespace RelayTimer

structure PinSetting where
  gpio : Nat
  inverted : Bool := false
  deriving Repr, DecidableEq

structure BoardConfig where
  relay : PinSetting := { gpio := 23 }
  /-- Low when the load is wired to the normally open terminal. -/
  noPin : PinSetting := { gpio := 2 }
  /-- Low when the load is wired to the normally closed terminal. -/
  ncPin : PinSetting := { gpio := 3 }
  /-- How often the wiring is sensed in a second. -/
  sampleHz : Nat := 50
  baudrate : Nat := 115200
  /-- Whether the console greets. -/
  banner : Bool := true
  /-- How long the display shows its first screen. -/
  splashMs : Nat := 1500
  /-- How much time passes between two checks of the player. -/
  healthIntervalMs : Nat := 5000
  /-- Where the two sectors of the store begin. -/
  storageOffset : Nat := 0x1F0000
  deriving Repr, DecidableEq

inductive ConfigError
  | invalidSection
  | invalidValue
  | unknownKey
  | invalidPin
  deriving Repr, DecidableEq

inductive Setting
  | relayPin
  | noPin
  | ncPin
  | sampleHz
  | baudrate
  | banner
  | splashMs
  | healthIntervalMs
  | storageOffset
  deriving Repr, DecidableEq

namespace Setting

def all : List Setting :=
  [relayPin, noPin, ncPin, sampleHz, baudrate, banner, splashMs, healthIntervalMs, storageOffset]

def group : Setting → String
  | relayPin => "relay"
  | noPin | ncPin | sampleHz => "nonc"
  | baudrate | banner => "console"
  | splashMs | healthIntervalMs => "ui"
  | storageOffset => "storage"

def key : Setting → String
  | relayPin => "pin"
  | noPin => "no_pin"
  | ncPin => "nc_pin"
  | sampleHz => "sample_hz"
  | baudrate => "baudrate"
  | banner => "banner"
  | splashMs => "splash_ms"
  | healthIntervalMs => "health_interval_ms"
  | storageOffset => "offset"

end Setting

namespace BoardConfig

def pins (c : BoardConfig) : List Nat := [c.relay.gpio, c.noPin.gpio, c.ncPin.gpio]

/-- Whether a board can be run so: the pins exist and differ, nothing that is divided by or waited
for is zero, and the store begins with a sector. A bad pin is told of first. -/
def validate (c : BoardConfig) : Except ConfigError Unit :=
  if ¬ (∀ gpio ∈ c.pins, gpio < pinCount) ∨ ¬ c.pins.Nodup then .error .invalidPin
  else if c.sampleHz = 0 ∨ c.baudrate = 0 ∨ c.healthIntervalMs = 0 ∨
      c.storageOffset % sectorSize ≠ 0 then .error .invalidValue
  else .ok ()

/-- How much time passes between two looks at the wiring: at least a millisecond. -/
def samplePeriodMs (c : BoardConfig) : Nat := max 1 (1000 / max c.sampleHz 1)

theorem samplePeriodMs_pos (c : BoardConfig) : 0 < c.samplePeriodMs := by
  unfold samplePeriodMs
  omega

end BoardConfig

end RelayTimer
