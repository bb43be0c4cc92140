import RelayTimer.Console

set_option autoImplicit false

/-!
Editing a console line: printable characters are kept, backspace and delete remove the last one, a
carriage return or a line feed or the two together end the line, and all else is dropped. What is
answered keeps the terminal in step with the line.
-/
namespace RelayTimer

inductive Edit
  /-- The terminal is sent this text. -/
  | echo (text : String)
  /-- The line is complete. -/
  | submit
  | ignore
  deriving Repr, DecidableEq

structure LineEditor where
  line : List Char := []
  /-- Whether the last byte was a carriage return. -/
  afterReturn : Bool := false
  deriving Repr, DecidableEq

namespace LineEditor

def lineFeed : UInt8 := 0x0A

def carriageReturn : UInt8 := 0x0D

def isErasing (byte : UInt8) : Bool := byte = 0x08 ∨ byte = 0x7F

def isPrintable (byte : UInt8) : Bool := 0x20 ≤ byte ∧ byte ≤ 0x7E

/-- What is sent when a character is removed: back, over it, and back again. -/
def rubOut : String := "\x08 \x08"

def bell : String := "\x07"

/-- Takes a byte. A complete line stays until it is cleared. -/
def feed (e : LineEditor) (byte : UInt8) : Edit × LineEditor :=
  let next : LineEditor := { e with afterReturn := byte = carriageReturn }
  if byte = lineFeed ∧ e.afterReturn then (.ignore, next)
  else if byte = carriageReturn ∨ byte = lineFeed then (.submit, next)
  else if isErasing byte then
    if e.line.isEmpty then (.ignore, next)
    else (.echo rubOut, { next with line := e.line.dropLast })
  else if isPrintable byte then
    if e.line.length < Console.maxLineBytes then
      let c := Char.ofNat byte.toNat
      (.echo (String.singleton c), { next with line := e.line ++ [c] })
    else (.echo bell, next)
  else (.ignore, next)

def clear (e : LineEditor) : LineEditor := { e with line := [] }

end LineEditor

end RelayTimer
