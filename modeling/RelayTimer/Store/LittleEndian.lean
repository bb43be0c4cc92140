set_option autoImplicit false

/-!
Words as bytes, the lowest byte first.
-/
namespace RelayTimer.LittleEndian

def bytes16 (w : UInt16) : List UInt8 := [w.toUInt8, (w >>> 8).toUInt8]

def bytes32 (w : UInt32) : List UInt8 :=
  [w.toUInt8, (w >>> 8).toUInt8, (w >>> 16).toUInt8, (w >>> 24).toUInt8]

/-- The word of four bytes, given from the lowest. -/
def word32 (b₀ b₁ b₂ b₃ : UInt8) : UInt32 :=
  b₀.toUInt32 ||| (b₁.toUInt32 <<< 8) ||| (b₂.toUInt32 <<< 16) ||| (b₃.toUInt32 <<< 24)

@[simp]
theorem length_bytes16 (w : UInt16) : (bytes16 w).length = 2 := rfl

@[simp]
theorem length_bytes32 (w : UInt32) : (bytes32 w).length = 4 := rfl

end RelayTimer.LittleEndian
