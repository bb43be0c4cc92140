set_option autoImplicit false

/-!
Whole numbers in decimal.
-/
namespace RelayTimer.Text

/-- The number that some digits stand for; there must be at least one. -/
def readDigits? (text : List Char) : Option Nat :=
  if !text.isEmpty && text.all Char.isDigit then some (Nat.ofDigitChars 10 text 0) else none

/-- A number less than `bound`, with or without a plus sign. -/
def readBelow? (bound : Nat) (text : List Char) : Option Nat :=
  let digits := match text with
    | '+' :: rest => rest
    | _ => text
  (readDigits? digits).filter (· < bound)

def maxInt64 : Int := 9223372036854775807

def readInt64? (text : List Char) : Option Int :=
  let number? : Option Int := match text with
    | '-' :: rest => (readDigits? rest).map fun n => -(n : Int)
    | '+' :: rest => (readDigits? rest).map fun n => (n : Int)
    | _ => (readDigits? text).map fun n => (n : Int)
  number?.filter fun n => -maxInt64 - 1 ≤ n && n ≤ maxInt64

end RelayTimer.Text
