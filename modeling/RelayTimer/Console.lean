import RelayTimer.Engine
import RelayTimer.Output
import RelayTimer.Text.Blank

set_option autoImplicit false

/-!
The console: lines that are typed, what they do to the engine, and what is answered. A typed
program takes the relay, and the console keeps it until it is told to quit.
-/
namespace RelayTimer

structure Console where
  /-- The program typed last, word for word; it is what is saved. -/
  lastProgram : String := ""
  /-- Whether the console owns the relay. -/
  owning : Bool := false
  deriving Repr, DecidableEq

namespace Console

def maxLineBytes : Nat := 80

def prompt : String := "> "

def banner : String := "# Welcome to Cyclo! Type \x27help\x27 for help.\r\n"

def helpText : String := String.join [
  "# Programs are a list of steps, separated by spaces or commas:\r\n",
  "#   o[pen] [delay]     open the contact, then wait\r\n",
  "#   c[lose] [delay]    close the contact, then wait\r\n",
  "#   *                  restart from the first step (last step only)\r\n",
  "# Delays are <n>[H|M|s|m] (hours, minutes, seconds, ms), default s.\r\n",
  "# Example: c 1M o 5s *\r\n",
  "# Commands:\r\n",
  "#   r[un] <n>          run program n (or just type n)\r\n",
  "#   s[ave] <n>         save the last program typed in slot n (1-9)\r\n",
  "#   d[elete] <n>       delete program n (1-9)\r\n",
  "#   a[uto] <n>         run program n at power-up\r\n",
  "#   l[ist]             list the stored programs\r\n",
  "#   q[uit]             hand the relay back to the front panel\r\n",
  "#   h[elp]             this text\r\n"]

def remark (message : String) : List String := ["# ", message, "\r\n"]

def noProgram (slot : Nat) : List String := ["# Program ", slot.repr, " does not exist\r\n"]

/-- A mark under the place of an error, where the line stands after the prompt, and the error. -/
def errorReply (e : LineError) : List String :=
  "#" :: List.replicate (e.offset + 1) " " ++ "^\r\n" :: remark e.fault.message

def listEntry (slot : Nat) (autostart lastUsed : Bool) (text : String) : List String :=
  ["  ", slot.repr, ":", if autostart then "A" else " ", if lastUsed then "L" else " ", "  ", text,
    "\r\n"]

end Console

structure Desk (σ : Type) where
  console : Console := {}
  engine : Engine σ
  output : Output := {}

/-- What a line does. It stops where its answer cannot be written. -/
abbrev Reply (σ : Type) (α : Type) := ExceptT OutputError (StateM (Desk σ)) α

namespace Desk

variable {σ : Type}

def say (pieces : List String) : Reply σ Unit := fun d =>
  let (result, output) := d.output.writeAll pieces
  (result, { d with output })

def onEngine {α : Type} (step : StateM (Engine σ) α) : Reply σ α := fun d =>
  let (a, engine) := step d.engine
  (.ok a, { d with engine })

def onBoard (change : Board → Board) : Reply σ Unit := onEngine (modify (·.onBoard change))

def setConsole (change : Console → Console) : Reply σ Unit :=
  modify fun d => { d with console := change d.console }

/-- Does something with the stored programs and says so if it fails. -/
def onStorage (call : StoreCall (Catalog σ) Unit) : Reply σ Unit := do
  match ← onEngine (Engine.onStorage call) with
  | .ok () => return
  | .error _ => say (Console.remark "Storage error")

variable [ByteStore σ]

def playTyped (p : Program) (line : String) : Reply σ Unit := do
  if !(← get).console.owning then
    setConsole fun c => { c with owning := true }
    onBoard (·.publish .consoleTook)
  onBoard (·.play p)
  let text := String.ofList (Text.trim line.toList)
  if text.utf8ByteSize ≤ Console.maxLineBytes then
    setConsole fun c => { c with lastProgram := text }
  else
    setConsole fun c => { c with lastProgram := "" }
    say (Console.remark "Program too long to save")

def listSlots (autostart lastUsed : Option Nat) : List Nat → Reply σ Unit
  | [] => return
  | slot :: rest => do
    let text ← onEngine (Engine.onCatalog (Catalog.programText slot))
    say (Console.listEntry slot (autostart == some slot) (lastUsed == some slot) (text.getD ""))
    listSlots autostart lastUsed rest

def listPrograms : Reply σ Unit := do
  onEngine (Engine.onCatalog Catalog.scan)
  let catalog := (← get).engine.catalog
  listSlots catalog.autostart catalog.lastUsed catalog.occupied.slots

/-- Gives the relay back. -/
def quit : Reply σ Unit := do
  if (← get).console.owning then onBoard (·.stop)
  setConsole fun c => { c with owning := false }
  onBoard (·.publish .consoleLeft)

def save (slot : Nat) : Reply σ Unit := do
  let text := (← get).console.lastProgram
  if slot = manualSlot then say (Console.remark "Program 0 is set from the front panel")
  else if text.isEmpty then say (Console.remark "No valid program to save")
  else if textRoom < text.utf8ByteSize then say (Console.remark "Program too long to save")
  else onStorage (Catalog.write slot text)

def delete (slot : Nat) : Reply σ Unit :=
  if slot = manualSlot then say (Console.remark "Program 0 cannot be deleted")
  else onStorage (Catalog.erase slot)

def whenOccupied (slot : Nat) (act : Reply σ Unit) : Reply σ Unit := do
  if (← get).engine.catalog.isOccupied slot then act else say (Console.noProgram slot)

def run (slot : Nat) : Reply σ Unit := whenOccupied slot do
  onEngine (Engine.load slot)
  onEngine (modify fun e => { e with catalog := e.catalog.select (some slot) })
  onStorage (Catalog.reassign .lastUsed (some slot))

def autostart (slot : Nat) : Reply σ Unit :=
  whenOccupied slot (onStorage (Catalog.reassign .autostart (some slot)))

def process (line : String) : Reply σ Unit :=
  match Request.ofLine line with
  | .error e => say (Console.errorReply e)
  | .ok .nothing => return
  | .ok (.program p) => playTyped p line
  | .ok .help => say [Console.helpText]
  | .ok .list => listPrograms
  | .ok .quit => quit
  | .ok (.onSlot .save slot) => save slot
  | .ok (.onSlot .delete slot) => delete slot
  | .ok (.onSlot .run slot) => run slot
  | .ok (.onSlot .autostart slot) => autostart slot

end Desk

end RelayTimer
