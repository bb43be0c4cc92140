import RelayTimer.Config.Basic
import RelayTimer.Event

set_option autoImplicit false

/-!
What the firmware reports about itself.
-/
namespace RelayTimer

inductive LogLevel
  | error
  | warn
  | info
  | debug
  deriving Repr, DecidableEq

structure LogLine where
  level : LogLevel
  text : String
  deriving Repr, DecidableEq

namespace LogLevel

def name : LogLevel → String
  | error => "error"
  | warn => "warn"
  | info => "info"
  | debug => "debug"

end LogLevel

namespace LogLine

def line (l : LogLine) : String := l.level.name ++ ": " ++ l.text

end LogLine

namespace Log

def event : Event → String
  | .contactChanged => "ContactUpdate"
  | .wiringChanged => "NoNcUpdate"
  | .counterChanged => "CounterUpdate"
  | .start fromFirst =>
    "StartProgram \x7b from_start: " ++ (if fromFirst then "true" else "false") ++ " \x7d"
  | .stop => "StopProgram"
  | .ended => "ProgramIsStopped"
  | .elapsed epoch => "SequenceNext \x7b epoch: " ++ epoch.toNat.repr ++ " \x7d"
  | .healthCheck => "CheckHealth"
  | .consoleTook => "UsbConnected"
  | .consoleLeft => "UsbDisconnected"

def runState : RunState → String
  | .stopped => "Stopped"
  | .paused => "Paused"
  | .running => "Running"
  | .consoleOwned => "UsbControlled"

def number? : Option Nat → String
  | some n => "Some(" ++ n.repr ++ ")"
  | none => "None"

def hexadecimal (n : Nat) : String := "0x" ++ String.ofList (Nat.toDigits 16 n)

def configError : ConfigError → String
  | .invalidSection => "InvalidSection"
  | .invalidValue => "InvalidValue"
  | .unknownKey => "UnknownKey"
  | .invalidPin => "InvalidPin"

end Log

end RelayTimer
