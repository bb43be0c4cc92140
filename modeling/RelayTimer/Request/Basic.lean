import RelayTimer.Program.Basic
import RelayTimer.Text.Bytes

set_option autoImplicit false

/-!
What a console line asks for, and what can be wrong with a line.
-/
namespace RelayTimer

inductive SlotVerb
  | save
  | delete
  | run
  | autostart
  deriving Repr, DecidableEq

/-- What a line asks for. A blank line asks for nothing. -/
inductive Request
  | nothing
  | program (p : Program)
  | help
  | list
  | quit
  | onSlot (verb : SlotVerb) (slot : Nat)

/-- What is wrong with a line. A fault carries the text that it quotes. -/
inductive LineFault
  | extraArgument (token : List Char)
  | slotMissing
  | notASlot (token : List Char)
  | numberTooLarge (token : List Char)
  | unknownUnit (suffix : List Char)
  | delayTooLong (token : List Char)
  | pastLoop
  | tooManySteps
  | loopFirst
  | unexpected (token : List Char)
  | delayAlone
  deriving Repr, DecidableEq

/-- A fault, and the number of characters before the place it is at. -/
structure LineError where
  fault : LineFault
  offset : Nat
  deriving Repr, DecidableEq

namespace LineFault

def quoted (text : List Char) : List Char := ['\x27'] ++ text ++ ['\x27']

def wording : LineFault → List Char
  | extraArgument token => "Unexpected extra arg(s): ".toList ++ quoted token
  | slotMissing => "Expecting a program number".toList
  | notASlot token => "Expecting a program number. Got ".toList ++ quoted token
  | numberTooLarge token => "Number too large: ".toList ++ quoted token
  | unknownUnit suffix => "Invalid unit: ".toList ++ quoted suffix
  | delayTooLong token => "Delay too long: ".toList ++ quoted token
  | pastLoop => "No commands allowed past *".toList
  | tooManySteps => "Too many items".toList
  | loopFirst => "Loop not allowed as first action".toList
  | unexpected token => "Unexpected: ".toList ++ quoted token
  | delayAlone =>
    "A delay must be followed by ".toList ++ quoted "open".toList ++ " or ".toList ++
      quoted "close".toList

def maxMessageBytes : Nat := 48

def message (fault : LineFault) : String := String.ofList (Text.cut maxMessageBytes fault.wording)

end LineFault

end RelayTimer
