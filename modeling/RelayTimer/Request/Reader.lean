import RelayTimer.Request.Basic
import RelayTimer.Text.Token

set_option autoImplicit false

/-!
Reading console lines. The tokens of a line are taken one by one: they build up a program, or they
are a single word with at most one program number after it.
-/
namespace RelayTimer

open Text (Token)

/-- Whether the token is the beginning of the word, in any mix of cases. -/
def abbreviates (token word : List Char) : Bool := (token.map Char.toLower).isPrefixOf word

/-- What the suffix of a delay stands for, in milliseconds. A bare number means seconds. -/
def unitMs? : List Char → Option Nat
  | ['H'] => some msPerHour
  | ['M'] => some msPerMinute
  | ['s'] => some msPerSecond
  | ['m'] => some 1
  | [] => some msPerSecond
  | _ => none

def Text.Token.digits (t : Token) : List Char := t.chars.takeWhile Char.isDigit

def Text.Token.suffix (t : Token) : List Char := t.chars.dropWhile Char.isDigit

def Text.Token.number (t : Token) : Nat := Nat.ofDigitChars 10 t.digits 0

/-- The time that a token names in milliseconds; a token that begins with no digit names none. -/
def readDelay (t : Token) : Except LineError (Option UInt32) :=
  if t.digits.isEmpty then .ok none
  else if t.number ≥ UInt32.size then .error ⟨.numberTooLarge t.chars, t.offset⟩
  else match unitMs? t.suffix with
    | none => .error ⟨.unknownUnit t.suffix, t.offset + t.digits.length⟩
    | some scale =>
      if t.number * scale < UInt32.size then .ok (some (UInt32.ofNat (t.number * scale)))
      else .error ⟨.delayTooLong t.chars, t.offset⟩

/-- The number below ten that a token is when it has no unit, leading zeros allowed. -/
def smallNumber? (t : Token) : Option Nat :=
  if t.suffix.isEmpty && t.number < 10 then some t.number else none

structure Draft where
  backwards : List Step
  length_le : backwards.length ≤ maxSteps
  /-- The last small number without a unit: typed alone, it means to run that program. -/
  slot : Option Nat := none
  /-- Where the delay stands that the program begins with. -/
  delayOffset : Nat := 0

namespace Draft

def empty : Draft := { backwards := [], length_le := Nat.zero_le _ }

/-- The shortest time that a step is given when another one follows it. -/
def minDelayMs : UInt32 := 1000

def isLooped (d : Draft) : Bool := d.backwards.head?.any (·.kind = .loops)

def sum? (a b : UInt32) : Option UInt32 :=
  if a.toNat + b.toNat < UInt32.size then some (a + b) else none

/-- Adds a time to the newest step; before any step, it becomes a waiting step. -/
def addDelay (d : Draft) (delay : UInt32) (t : Token) : Except LineError Draft :=
  match d with
  | { backwards := [], slot, .. } =>
    .ok {
      backwards := [⟨.waits, delay⟩]
      length_le := by simp [maxSteps]
      slot
      delayOffset := t.offset }
  | { backwards := newest :: earlier, length_le, slot, delayOffset } =>
    if newest.kind = .loops then .error ⟨.pastLoop, t.offset⟩
    else match sum? newest.delayMs delay with
      | none => .error ⟨.delayTooLong t.chars, t.offset⟩
      | some total =>
        .ok { backwards := ⟨newest.kind, total⟩ :: earlier, length_le, slot, delayOffset }

/-- The steps with a time given to a newest step that has none. -/
def settle : List Step → List Step
  | [] => []
  | newest :: earlier =>
    (if newest.delayMs = 0 then { newest with delayMs := minDelayMs } else newest) :: earlier

@[simp]
theorem length_settle (steps : List Step) : (settle steps).length = steps.length := by
  cases steps <;> simp [settle]

def addStep (d : Draft) (kind : StepKind) (t : Token) : Except LineError Draft :=
  if full : d.backwards.length = maxSteps then .error ⟨.tooManySteps, t.offset⟩
  else if d.isLooped then .error ⟨.pastLoop, t.offset⟩
  else if d.backwards.isEmpty && kind = .loops then .error ⟨.loopFirst, t.offset⟩
  else
    .ok { d with
      backwards := ⟨kind, 0⟩ :: settle d.backwards
      length_le := by
        have := d.length_le
        simp only [List.length_cons, length_settle]
        omega }

def program (d : Draft) : Program :=
  { steps := d.backwards.reverse, length_le := by simpa using d.length_le }

def isDelayAlone (d : Draft) : Bool :=
  match d.backwards with
  | [only] => only.kind = .waits
  | _ => false

end Draft

def stepWord? (token : List Char) : Option StepKind :=
  if abbreviates token "open".toList then some .opens
  else if abbreviates token "close".toList then some .closes
  else if token = ['*'] then some .loops
  else none

/-- The number of a slot is a single digit. -/
def slotNumber? : List Char → Option Nat
  | [c] => if c.isDigit then some (c.toNat - '0'.toNat) else none
  | _ => none

inductive Reading
  /-- Only steps and delays have been met. -/
  | steps (draft : Draft)
  /-- A word has been met that needs a program number. -/
  | awaitingSlot (verb : SlotVerb)
  /-- Nothing may follow. -/
  | complete (request : Request)

/-- The words that begin a request, and what is known once they are read. -/
def keywords : List (String × Reading) :=
  [("help", .complete .help), ("list", .complete .list), ("quit", .complete .quit),
    ("auto", .awaitingSlot .autostart), ("save", .awaitingSlot .save),
    ("run", .awaitingSlot .run), ("delete", .awaitingSlot .delete)]

def keyword? (token : List Char) : Option Reading :=
  (keywords.find? fun entry => abbreviates token entry.1.toList).map (·.2)

namespace Reading

def start : Reading := .steps Draft.empty

def take (r : Reading) (t : Token) : Except LineError Reading :=
  match r with
  | .complete _ => .error ⟨.extraArgument t.chars, t.offset⟩
  | .awaitingSlot verb =>
    match slotNumber? t.chars with
    | some slot => .ok (.complete (.onSlot verb slot))
    | none => .error ⟨.notASlot t.chars, t.offset⟩
  | .steps draft => do
    match ← readDelay t with
    | some delay =>
      let draft := { draft with slot := smallNumber? t <|> draft.slot }
      return .steps (← draft.addDelay delay t)
    | none =>
      match stepWord? t.chars with
      | some kind => return .steps (← draft.addStep kind t)
      | none =>
        match keyword? t.chars with
        | some next => if draft.backwards.isEmpty then return next else unexpected
        | none => unexpected
where
  unexpected : Except LineError Reading := .error ⟨.unexpected t.chars, t.offset⟩

/-- What a line of `length` characters asks for once all of it is read. -/
def finish (r : Reading) (length : Nat) : Except LineError Request :=
  match r with
  | .complete request => .ok request
  | .awaitingSlot _ => .error ⟨.slotMissing, length⟩
  | .steps draft =>
    if draft.backwards.isEmpty then .ok .nothing
    else if !draft.isDelayAlone then .ok (.program draft.program)
    else match draft.slot with
      | some slot => .ok (.onSlot .run slot)
      | none => .error ⟨.delayAlone, draft.delayOffset⟩

end Reading

namespace Request

def ofChars (line : List Char) : Except LineError Request := do
  let reading ← (Text.tokens line).foldlM Reading.take Reading.start
  reading.finish line.length

def ofLine (line : String) : Except LineError Request := ofChars line.toList

end Request

end RelayTimer
