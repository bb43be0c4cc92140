import RelayTimer.Checksum
import RelayTimer.Store.LittleEndian
import RelayTimer.Text.Bytes

set_option autoImplicit false

/-!
Stored programs. A slot takes 64 bytes: a marker, a byte for each of two flags, 59 bytes of text
filled up with NUL, and the checksum of all that, its low byte first.
-/
namespace RelayTimer

def slotCount : Nat := 10

/-- The smallest unit that a store writes. -/
def pageSize : Nat := 32

def pagesPerRecord : Nat := 2

def recordSize : Nat := 64

def textRoom : Nat := 59

def slotOffset (slot : Nat) : Nat := slot * recordSize

def slotPage (slot : Nat) : Nat := slot * pagesPerRecord

/-- A stored program: its text as stored, and whether it plays when the timer starts and whether it
was the last to play. -/
structure Record where
  autostart : Bool
  lastUsed : Bool
  field : List UInt8
  length_field : field.length = textRoom

namespace Record

def marker : UInt8 := 0x50

def autostartByte : UInt8 := 0x41

def lastUsedByte : UInt8 := 0x4C

def noFlag : UInt8 := 0xFF

/-- Text as it is stored: cut to the room there is, then filled up. -/
def fieldOfText (text : String) : List UInt8 :=
  let bytes := Text.utf8 (Text.cut textRoom text.toList)
  bytes ++ List.replicate (textRoom - bytes.length) 0

theorem length_fieldOfText (text : String) : (fieldOfText text).length = textRoom := by
  have := Text.byteLength_cut_le text.toList textRoom
  simp only [fieldOfText, List.length_append, List.length_replicate, Text.length_utf8]
  omega

def ofText (text : String) (autostart lastUsed : Bool) : Record :=
  { autostart, lastUsed, field := fieldOfText text, length_field := length_fieldOfText text }

/-- The text up to the first NUL, or no text where it is not well formed. -/
def text (r : Record) : String :=
  (Text.ofUtf8? (r.field.takeWhile (· ≠ 0))).getD ""

def body (r : Record) : List UInt8 :=
  marker :: (if r.autostart then autostartByte else noFlag) ::
    (if r.lastUsed then lastUsedByte else noFlag) :: r.field

def encode (r : Record) : List UInt8 :=
  r.body ++ LittleEndian.bytes16 (Checksum.ofBytes r.body)

theorem length_encode (r : Record) : r.encode.length = recordSize := by
  simp [encode, body, r.length_field, textRoom, recordSize]

/-- The record that some bytes hold: they begin with the marker and end with the checksum of what
is before it. A flag is raised only by its own byte. -/
def decode? (bytes : List UInt8) : Option Record :=
  match bytes with
  | mark :: auto :: last :: rest =>
    let field := rest.take textRoom
    if h : field.length = textRoom ∧ mark = marker ∧
        rest.drop textRoom =
          LittleEndian.bytes16 (Checksum.ofBytes (mark :: auto :: last :: field)) then
      some {
        autostart := auto == autostartByte
        lastUsed := last == lastUsedByte
        field
        length_field := h.1 }
    else none
  | _ => none

end Record

end RelayTimer
