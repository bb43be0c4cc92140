import RelayTimer.Text.Bytes
import RelayTimer.Text.Line

set_option autoImplicit false

/-!
A message set into a box, a line of the box for each line of the message.
-/
namespace RelayTimer.Text.Box

def width : Nat := 64

def keptBytes : Nat := 61

/-- The first `size` bytes of a text, unless a character lies across their end. -/
def firstBytes? (size : Nat) (text : List Char) : Option (List Char) :=
  if byteLength (cut size text) = min size (byteLength text) then some (cut size text) else none

/-- A line as far as it goes into the box. A line is too long by its bytes. -/
def shorten? (line : List Char) : Option (List Char) :=
  if width < byteLength line then (firstBytes? keptBytes line).map (· ++ "...".toList)
  else some line

def side (line : List Char) : List Char :=
  "║  ".toList ++ line ++ List.replicate (width - line.length) ' ' ++ " ║".toList

/-- The inside of the box around a message. There is none if a character of a line that is too long
lies across the place where the line is cut. -/
def around? (message : List Char) : Option (List Char) :=
  ((lines message).mapM fun line => (shorten? line).map side).map (['\n'].intercalate ·)

end RelayTimer.Text.Box
