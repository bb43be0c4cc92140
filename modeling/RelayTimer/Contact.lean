import RelayTimer.Event
import RelayTimer.Pin.Line

set_option autoImplicit false

/-!
The relay contact as its user sees it: open or closed, whichever of the relay's two terminals the
load is wired to. Whether it is open is never stored: it is read off the relay and the wiring.
-/
namespace RelayTimer

/-- The terminal that the load is wired to. A normally open contact is open while the relay is at
rest, a normally closed one is closed. -/
inductive Wiring
  | normallyOpen
  | normallyClosed
  deriving Repr, DecidableEq

inductive Intent
  | leaveAsIs
  | opened
  | closed
  deriving Repr, DecidableEq

structure Contact where
  relay : RelayOutput
  wiring : Wiring := .normallyOpen
  intent : Intent := .leaveAsIs
  deriving Repr, DecidableEq

namespace Contact

def isNormallyOpen (c : Contact) : Bool := c.wiring = .normallyOpen

def isOpen (c : Contact) : Bool := c.isNormallyOpen != c.relay.isActive

/-- Records what the contact is to be and drives the relay there. What was asked for already is
driven again without an event. -/
def set (c : Contact) (intent : Intent) : Contact × List Event :=
  let relay := match intent with
    | .opened => c.relay.drive (!c.isNormallyOpen)
    | .closed => c.relay.drive c.isNormallyOpen
    | .leaveAsIs => c.relay
  ({ c with relay, intent }, if c.intent = intent then [] else [.contactChanged])

/-- Forgets what the contact was asked to be and leaves the relay alone. -/
def unmanage (c : Contact) : Contact := { c with intent := .leaveAsIs }

/-- Turns the contact over and forgets the intent, so that no later change of the wiring moves the
relay. -/
def flip (c : Contact) : Contact × List Event :=
  let (c, events) := c.set (if c.isOpen then .closed else .opened)
  (c.unmanage, events)

/-- Takes note of how the contact is wired. What it was asked to be still holds, so the relay is
driven anew. -/
def rewire (c : Contact) (wiring : Wiring) : Contact × List Event :=
  let (after, events) := { c with wiring }.set c.intent
  let turned := if c.isOpen = after.isOpen then [] else [Event.contactChanged]
  (after, events ++ turned ++ [.wiringChanged])

end Contact

end RelayTimer
