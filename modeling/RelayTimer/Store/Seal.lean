import RelayTimer.Checksum
import RelayTimer.Store.LittleEndian

set_option autoImplicit false

/-!
Two banks that hold an image in turn. Each ends with a seal: two letters, the generation of the
image, and the checksum of the image and its generation. A bank without a matching seal holds
nothing, so a bank whose seal was never written leaves the other one in force.
-/
namespace RelayTimer

inductive Bank
  | first
  | second
  deriving Repr, DecidableEq

namespace Bank

def other : Bank → Bank
  | first => second
  | second => first

def index : Bank → Nat
  | first => 0
  | second => 1

def halfRound : Nat := 0x80000000

/-- The bank of the newer generation. Generations go round, so the newer one is less than half a
round ahead; without one, the first bank wins. -/
def newest? : Option UInt32 → Option UInt32 → Option Bank
  | some a, some b =>
    let ahead := (b - a).toNat
    some (if 0 < ahead ∧ ahead < halfRound then second else first)
  | some _, none => some first
  | none, some _ => some second
  | none, none => none

end Bank

namespace Seal

def size : Nat := 8

def letters : List UInt8 := [0x43, 0x59]

def ofImage (image : List UInt8) (generation : UInt32) : List UInt8 :=
  let stamp := LittleEndian.bytes32 generation
  letters ++ stamp ++
    LittleEndian.bytes16 (Checksum.update (Checksum.ofBytes image) stamp)

@[simp]
theorem length_ofImage (image : List UInt8) (generation : UInt32) :
    (ofImage image generation).length = size := by
  simp [ofImage, letters, size]

def generation? (image footer : List UInt8) : Option UInt32 :=
  match footer with
  | [_, _, g₀, g₁, g₂, g₃, _, _] =>
    let generation := LittleEndian.word32 g₀ g₁ g₂ g₃
    if footer = ofImage image generation then some generation else none
  | _ => none

end Seal

end RelayTimer
