import RelayTimer.Config.Basic
import RelayTimer.Text.Number

set_option autoImplicit false

/-!
Checking a configuration before a board is built with it. The check works on the value that the
configuration stands for and lists all that is wrong, in words.
-/
namespace RelayTimer

/-- What a configuration file stands for. -/
inductive ConfigValue
  | text (s : String)
  | integer (n : Int)
  | real
  | flag (b : Bool)
  | array
  | table (entries : List (String × ConfigValue))
  deriving Inhabited

namespace ConfigValue

def get? (value : ConfigValue) (key : String) : Option ConfigValue :=
  match value with
  | table entries => (entries.find? (·.1 == key)).map (·.2)
  | _ => none

def setting? (config : ConfigValue) (s : Setting) : Option ConfigValue :=
  (config.get? s.group).bind (·.get? s.key)

def inOrder (entries : List (String × ConfigValue)) : List (String × ConfigValue) :=
  entries.mergeSort fun a b => a.1 ≤ b.1

end ConfigValue

inductive BoardFault
  | notATable
  | unknownSection (name : String)
  | notASection (name : String)
  | unknownKey (group key : String)
  | malformedPin (setting : Setting)
  | noSuchPin (setting : Setting) (gpio : Int)
  | consolePin (setting : Setting) (gpio : Int)
  | pinUsedTwice (setting : Setting) (gpio : Int) (other : Setting)
  | notAnInteger (setting : Setting)
  | notAFlag (setting : Setting)
  | outOfRange (setting : Setting) (low high : Int)
  | unaligned (setting : Setting)
  | outsideStorage (setting : Setting)
  deriving Repr, DecidableEq

namespace BoardFault

/-- A setting by section and key, such as `[relay] pin`. -/
def place (s : Setting) : String := "[" ++ s.group ++ "] " ++ s.key

def quote (text : String) : String := "\x27" ++ text ++ "\x27"

def message : BoardFault → String
  | notATable => "top level must be a table"
  | unknownSection name => "unknown section or key " ++ quote name
  | notASection name => quote name ++ " must be a [section]"
  | unknownKey group key => "[" ++ group ++ "] unknown key " ++ quote key
  | malformedPin s => place s ++ " must look like \"gpio23\" or \"!gpio23\""
  | noSuchPin s gpio => place s ++ " gpio" ++ toString gpio ++ " does not exist"
  | consolePin s gpio => place s ++ " gpio" ++ toString gpio ++ " is used by the console"
  | pinUsedTwice s gpio other =>
    place s ++ " gpio" ++ toString gpio ++ " already used by " ++ place other
  | notAnInteger s => place s ++ " must be an integer"
  | notAFlag s => place s ++ " must be true or false"
  | outOfRange s low high => place s ++ " must be " ++ toString low ++ "-" ++ toString high
  | unaligned s => place s ++ " must be 4096-byte aligned"
  | outsideStorage s =>
    "[" ++ s.group ++ "] two sectors at " ++ s.key ++ " must lie in the last 64 KB"

end BoardFault

namespace BoardCheck

/-- Where the last 64 kilobytes of the chip begin. -/
def storageStart : Int := 0x1F0000

def sectionFaults (entry : String × ConfigValue) : List BoardFault :=
  let (name, value) := entry
  if Setting.all.any (·.group == name) then
    match value with
    | .table entries =>
      ((ConfigValue.inOrder entries).filter fun e =>
        !Setting.all.any fun s => s.group == name && s.key == e.1).map fun e => .unknownKey name e.1
    | _ => [.notASection name]
  else [.unknownSection name]

/-- Faults of the layout: only known sections, and in them only known keys. -/
def layoutFaults (config : ConfigValue) : List BoardFault :=
  match config with
  | .table entries => (ConfigValue.inOrder entries).flatMap sectionFaults
  | _ => [.notATable]

/-- The number in a pin such as `gpio23` or `!gpio23`. -/
def pinNumber? (value : ConfigValue) : Option Int :=
  match value with
  | .text s =>
    let name := match s.toList with
      | '!' :: rest => rest
      | name => name
    match name with
    | 'g' :: 'p' :: 'i' :: 'o' :: digits => Text.readInt64? digits
    | _ => none
  | _ => none

def pinFault? (used : List (Int × Setting)) (s : Setting) (gpio : Int) : Option BoardFault :=
  if ¬ (0 ≤ gpio ∧ gpio < pinCount) then some (.noSuchPin s gpio)
  else if gpio.toNat ∈ consolePins then some (.consolePin s gpio)
  else (used.find? (·.1 == gpio)).map fun other => .pinUsedTwice s gpio other.2

/-- Faults of the pins named by some settings. A pin counts as used even when it is at fault. -/
def pinFaultsFrom (config : ConfigValue) (used : List (Int × Setting)) :
    List Setting → List BoardFault
  | [] => []
  | s :: rest =>
    match config.setting? s with
    | none => pinFaultsFrom config used rest
    | some value =>
      match pinNumber? value with
      | none => .malformedPin s :: pinFaultsFrom config used rest
      | some gpio =>
        (pinFault? used s gpio).toList ++ pinFaultsFrom config (used ++ [(gpio, s)]) rest

def pinFaults (config : ConfigValue) : List BoardFault :=
  pinFaultsFrom config [] [.relayPin, .noPin, .ncPin]

def integerFaults (config : ConfigValue) (s : Setting) (faults : Int → List BoardFault) :
    List BoardFault :=
  match config.setting? s with
  | none => []
  | some (.integer n) => faults n
  | some _ => [.notAnInteger s]

def rangeFaults (config : ConfigValue) (s : Setting) (low high : Int) : List BoardFault :=
  integerFaults config s fun n => if low ≤ n ∧ n ≤ high then [] else [.outOfRange s low high]

def flagFaults (config : ConfigValue) (s : Setting) : List BoardFault :=
  match config.setting? s with
  | none | some (.flag _) => []
  | some _ => [.notAFlag s]

/-- Faults of the store's place: it begins with a sector, and both sectors lie in the last 64
kilobytes. -/
def storageFaults (n : Int) : List BoardFault :=
  (if n % sectorSize = 0 then [] else [.unaligned .storageOffset]) ++
    if storageStart ≤ n ∧ n ≤ flashSize - 2 * sectorSize then []
    else [.outsideStorage .storageOffset]

def numberFaults (config : ConfigValue) : List BoardFault :=
  rangeFaults config .sampleHz 1 1000 ++
    rangeFaults config .baudrate 1200 921600 ++
    flagFaults config .banner ++
    rangeFaults config .splashMs 0 60000 ++
    rangeFaults config .healthIntervalMs 100 600000 ++
    integerFaults config .storageOffset storageFaults

/-- All that is wrong with a configuration: its layout first, then its pins, then its numbers. -/
def faults (config : ConfigValue) : List BoardFault :=
  layoutFaults config ++ pinFaults config ++ numberFaults config

end BoardCheck

end RelayTimer
