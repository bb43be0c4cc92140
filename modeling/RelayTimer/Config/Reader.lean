import RelayTimer.Config.Basic
import RelayTimer.Text.Blank
import RelayTimer.Text.Bytes
import RelayTimer.Text.Line
import RelayTimer.Text.Number

set_option autoImplicit false

/-!
Reading a configuration from text: sections in brackets, a key and a value on a line, and comments
after a number sign. What is not set keeps its default.
-/
namespace RelayTimer

namespace ConfigText

/-- Where the first of a character stands: what is before it and what is after it. -/
def splitAt? (c : Char) (text : List Char) : Option (List Char × List Char) :=
  match text with
  | [] => none
  | d :: rest =>
    if d = c then some ([], rest)
    else (splitAt? c rest).map fun (before, after) => (d :: before, after)

/-- A value without the comment after it. A number sign begins a comment when an even number of
quotation marks stands before it; only the first one is looked at. -/
def uncomment (value : List Char) : List Char :=
  match splitAt? '#' value with
  | some (before, _) => if before.count '"' % 2 = 0 then Text.trim before else value
  | none => value

def keyValue? (line : List Char) : Option (List Char × List Char) :=
  match splitAt? '=' line with
  | none => none
  | some (before, after) =>
    let key := Text.trim before
    let value := uncomment (Text.trim after)
    if key.isEmpty || value.isEmpty then none else some (key, value)

/-- Text without the quotation marks around it, if there are both. -/
def unquote (value : List Char) : List Char :=
  match value with
  | '"' :: rest => if rest.getLast? = some '"' then rest.dropLast else value
  | _ => value

def maxNumberBytes : Nat := 24

/-- A number less than `bound`, which low lines may divide. -/
def readNumber (bound : Nat) (value : List Char) : Except ConfigError Nat :=
  let digits := value.filter (· ≠ '_')
  if maxNumberBytes < Text.byteLength digits then .error .invalidValue
  else match Text.readBelow? bound digits with
    | some n => .ok n
    | none => .error .invalidValue

def readFlag (value : List Char) : Except ConfigError Bool :=
  if value = "true".toList then .ok true
  else if value = "false".toList then .ok false
  else .error .invalidValue

def afterGpio? : List Char → Option (List Char)
  | 'g' :: 'p' :: 'i' :: 'o' :: rest => some rest
  | _ => none

/-- A pin, such as `gpio23`, or `!gpio23` for an inverted one, with or without quotation marks. -/
def readPin (value : List Char) : Except ConfigError PinSetting :=
  let name := unquote value
  let (inverted, name) := match name with
    | '!' :: rest => (true, rest)
    | _ => (false, name)
  match (afterGpio? name).bind (Text.readBelow? pinCount) with
  | some gpio => .ok { gpio, inverted }
  | none => .error .invalidPin

def assign (config : BoardConfig) (setting : Setting) (value : List Char) :
    Except ConfigError BoardConfig :=
  match setting with
  | .relayPin => return { config with relay := ← readPin value }
  | .noPin => return { config with noPin := ← readPin value }
  | .ncPin => return { config with ncPin := ← readPin value }
  | .sampleHz => return { config with sampleHz := ← readNumber UInt16.size value }
  | .baudrate => return { config with baudrate := ← readNumber UInt32.size value }
  | .banner => return { config with banner := ← readFlag value }
  | .splashMs => return { config with splashMs := ← readNumber UInt32.size value }
  | .healthIntervalMs => return { config with healthIntervalMs := ← readNumber UInt32.size value }
  | .storageOffset => return { config with storageOffset := ← readNumber UInt32.size value }

structure Progress where
  config : BoardConfig := {}
  group : Option String := none
  deriving Repr, DecidableEq

def readHeader (line : List Char) : Except ConfigError String :=
  if line.getLast? = some ']' then
    let name := String.ofList (Text.trim line.tail.dropLast)
    if Setting.all.any (·.group == name) then .ok name else .error .invalidSection
  else .error .invalidSection

def Progress.take (p : Progress) (line : List Char) : Except ConfigError Progress :=
  match Text.trim line with
  | [] => .ok p
  | '#' :: _ => .ok p
  | '[' :: rest => return { p with group := some (← readHeader ('[' :: rest)) }
  | line =>
    match keyValue? line with
    | none => .error .invalidValue
    | some (key, value) =>
      match Setting.all.find? fun s => some s.group == p.group && s.key == String.ofList key with
      | none => .error .unknownKey
      | some setting => return { p with config := ← assign p.config setting value }

end ConfigText

namespace BoardConfig

def ofChars (text : List Char) : Except ConfigError BoardConfig := do
  let progress ← (Text.lines text).foldlM ConfigText.Progress.take {}
  progress.config.validate
  return progress.config

/-- The configuration that a text describes, if a board can be run so. -/
def ofText (text : String) : Except ConfigError BoardConfig := ofChars text.toList

end BoardConfig

end RelayTimer
