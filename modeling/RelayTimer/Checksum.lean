set_option autoImplicit false

/-!
The checksum that seals stored bytes: sixteen bits, the generator x¹⁶ + x¹² + x⁵ + 1, highest bit
first, starting from all ones.
-/
namespace RelayTimer.Checksum

/-- The generator without its highest power. -/
def generator : UInt16 := 0x1021

/-- The remainder moved up by one power. -/
def shift (remainder : UInt16) : UInt16 :=
  if remainder &&& 0x8000 ≠ 0 then (remainder <<< 1) ^^^ generator else remainder <<< 1

def shifts : Nat → UInt16 → UInt16
  | 0, remainder => remainder
  | n + 1, remainder => shifts n (shift remainder)

def next (remainder : UInt16) (byte : UInt8) : UInt16 :=
  shifts 8 (remainder ^^^ (byte.toUInt16 <<< 8))

def update (remainder : UInt16) (bytes : List UInt8) : UInt16 := bytes.foldl next remainder

def ofBytes (bytes : List UInt8) : UInt16 := update 0xFFFF bytes

theorem update_append (remainder : UInt16) (first second : List UInt8) :
    update remainder (first ++ second) = update (update remainder first) second := by
  simp [update]

end RelayTimer.Checksum
