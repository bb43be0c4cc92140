set_option autoImplicit false

/-!
Text that is written piece by piece, with or without a bound on its size.
-/
namespace RelayTimer

inductive OutputError
  | full
  deriving Repr, DecidableEq

structure Output where
  text : String := ""
  /-- The most bytes that the text may take, if there is a bound. -/
  room : Option Nat := none
  deriving Repr, DecidableEq

namespace Output

/-- Writes a piece, all of it or nothing. -/
def write (o : Output) (piece : String) : Except OutputError Output :=
  if o.room.all (o.text.utf8ByteSize + piece.utf8ByteSize ≤ ·) then
    .ok { o with text := o.text ++ piece }
  else .error .full

/-- Writes pieces until one does not fit. What is written then stays. -/
def writeAll (o : Output) : List String → Except OutputError Unit × Output
  | [] => (.ok (), o)
  | piece :: rest =>
    match o.write piece with
    | .ok o => o.writeAll rest
    | .error e => (.error e, o)

end Output

end RelayTimer
