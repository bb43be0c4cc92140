import RelayTimer.Contact
import RelayTimer.Program.Basic

set_option autoImplicit false

/-!
The board as its user sees it: the active program, what it is doing, how often it has looped, and
the contact. The board gathers the events that are published until they are taken away.
-/
namespace RelayTimer

structure Board where
  contact : Contact
  program : Program := Program.empty
  state : RunState := .stopped
  /-- How often the active program has looped, once it has begun. -/
  counter : Option UInt32 := none
  /-- The events published since they were last taken away, the first one first. -/
  published : List Event := []

namespace Board

/-- Publishes an event, which moves the state. -/
def publish (b : Board) (e : Event) : Board :=
  { b with state := b.state.after e, published := b.published ++ [e] }

def withContact (b : Board) (change : Contact × List Event) : Board :=
  { b with contact := change.1, published := b.published ++ change.2 }

def driveContact (b : Board) (intent : Intent) : Board := b.withContact (b.contact.set intent)

def flipContact (b : Board) : Board := b.withContact b.contact.flip

def rewireContact (b : Board) (wiring : Wiring) : Board := b.withContact (b.contact.rewire wiring)

def setCounter (b : Board) (counter : Option UInt32) : Board := { b with counter }

def play (b : Board) (p : Program) : Board :=
  { b with program := p.rewind }.publish (.start true)

/-- Pauses the active program. -/
def stop (b : Board) : Board := b.publish .stop

def resume (b : Board) : Board := b.publish (.start false)

end Board

end RelayTimer
