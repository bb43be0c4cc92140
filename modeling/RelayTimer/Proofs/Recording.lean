import RelayTimer.Proofs.DeckLive
import RelayTimer.Proofs.Unrolling

set_option autoImplicit false

/-!
A deck that is watched while it plays one program: which steps it has played and for how long each
has run, and how it has driven the contact. All is read off the deck from outside. Time is counted
in whole milliseconds, as the countdown does, which knows exactly how many are left; a clock that
is finer and rounds down what is left loses less than one of them at each pause.
-/
namespace RelayTimer

/-- The intents with which the contact has been driven between two moments at which it was driven
at most once, as its relay counts. -/
def Board.driven (before after : Board) : List Intent :=
  List.replicate (after.contact.relay.writes - before.contact.relay.writes) after.contact.intent

/-- The step that has been played between two moments, if the player has moved on by one. -/
def Player.stepTo? (before after : Player) : Option Step :=
  if after.program.cursor = before.program.cursor then none
  else before.program.steps[before.program.cursor]?

structure Recording where
  deck : Deck
  /-- The steps played so far, the last one first, each with the time for which it has run. -/
  played : List (Step × Nat)
  /-- The intents with which the contact has been driven, the first one first. -/
  driven : List Intent

namespace Recording

/-- More time for the step played last. -/
def extend (ms : Nat) : List (Step × Nat) → List (Step × Nat)
  | [] => []
  | (step, ran) :: rest => (step, ran + ms) :: rest

/-- The recording just before the player acts on an event, if it does. The clock of a step runs
while the player does. -/
def prepared (r : Recording) (a : Action) : Recording :=
  { r with
    deck := r.deck.prepared a
    played := match a with
      | .wait ms =>
        if r.deck.player.playback = .running then extend ms.toNat r.played else r.played
      | _ => r.played }

/-- The recording once the player has done something. -/
def absorb (r : Recording) (done : Played) : Recording :=
  { deck := r.deck.absorb done
    played := (r.deck.player.stepTo? done.player).toList.map (·, 0) ++ r.played
    driven := r.driven ++ r.deck.board.driven done.board }

def handle (r : Recording) (e : Event) : Recording :=
  r.absorb (r.deck.player.handle r.deck.board r.deck.timer.remaining e)

def act (r : Recording) (a : Action) : Recording :=
  match r.deck.handled? a with
  | some e => (r.prepared a).handle e
  | none => r.prepared a

/-- The recording from the moment on at which a deck plays its program from the first step. -/
def start (d : Deck) (a : Action) : Recording :=
  let after := { d with log := [] }.act a
  { deck := after
    played := after.player.program.steps.head?.toList.map (·, 0)
    driven := d.board.driven after.board }

/-- What may happen while a program is watched: others command what is no end of a time, the program
is not started anew, nobody else touches the board, and a wait does not end before its time. -/
structure Timely (d : Deck) (a : Action) : Prop where
  command : ∀ epoch, a ≠ .post (.elapsed epoch) ∧ a ≠ .jump (.elapsed epoch)
  unbroken : d.handled? a ≠ some (.start true)
  untouched : ∀ board, a ≠ .change board
  due : a = .expire ∨ a = .strike → d.timer.remaining = 0

/-- No time passes while the end of a time is due or on its way. -/
def Punctual (d : Deck) (a : Action) : Prop :=
  ∀ ms, a = .wait ms → ms ≠ 0 →
    (∀ m ∈ d.mail, m.event ≠ .elapsed d.player.epoch) ∧
      (d.timer.armed.isSome → ms.toNat ≤ d.timer.remaining.toNat)

/-- The recordings that come of another one, with or without events that are on their way for a
whole round of the epochs, and with or without delays. -/
inductive Run (fresh punctual : Bool) (first : Recording) : Recording → Prop
  | refl (young : fresh = true → first.deck.Fresh) : Run fresh punctual first first
  | act {r : Recording} (before : Run fresh punctual first r) (a : Action) (timely : Timely r.deck a)
      (young : fresh = true → (r.act a).deck.Fresh)
      (prompt : punctual = true → Punctual r.deck a) : Run fresh punctual first (r.act a)

/-- The steps that are over. -/
def finished (r : Recording) : List (Step × Nat) :=
  if r.deck.player.playback = .idle then r.played else r.played.tail

/-- How many of the steps played were looping ones. -/
def loops (r : Recording) : Nat := r.played.countP fun x => x.1.kind = .loops

/-- The recording once the next step is played as soon as it is due. -/
def beat (r : Recording) : Recording :=
  ((r.act (.wait r.deck.timer.remaining)).act .expire).act .deliver

/-- A new player plays the program of a board, and nobody stops it: the recording after `n` steps
more than the first. -/
def straight (board : Board) : Nat → Recording
  | 0 => start { board } (.jump (.start true))
  | n + 1 => (straight board n).beat

end Recording

end RelayTimer
