import RelayTimer.Proofs.DeckLive

set_option autoImplicit false

/-!
The queue of a session is the mail of a deck, but for the ages of the events in it, which nobody
sees.
-/
namespace RelayTimer

namespace Deck

/-- The same decks, but for the ages of the mail, which nobody sees. -/
structure Same (d other : Deck) : Prop where
  player : d.player = other.player
  board : d.board = other.board
  timer : d.timer = other.timer
  mail : d.mail.map (·.event) = other.mail.map (·.event)
  log : d.log = other.log

theorem map_event_aged (mail : List Message) (before after : UInt32) :
    (aged mail before after).map (·.event) = mail.map (·.event) := by
  unfold aged
  split
  · rfl
  · simp

theorem aged_append (first second : List Message) (before after : UInt32) :
    aged (first ++ second) before after = aged first before after ++ aged second before after := by
  unfold aged
  split
  · rfl
  · exact List.map_append

theorem Same.absorb {d other : Deck} (same : d.Same other) (played : Played) :
    (d.absorb played).Same (other.absorb played) := by
  refine ⟨rfl, rfl, ?_, ?_, ?_⟩
  · simp only [Deck.absorb, same.timer]
  · simp only [Deck.absorb, List.map_append, map_event_aged, same.mail]
  · simp only [Deck.absorb, same.log]

/-- What is the same stays so, whatever happens. -/
theorem Same.act {d other : Deck} (same : d.Same other) (a : Action) :
    (d.act a).Same (other.act a) := by
  obtain ⟨player, board, timer, mail, log⟩ := same
  have head : d.mail.head?.map (·.event) = other.mail.head?.map (·.event) := by
    rw [← List.head?_map, mail, List.head?_map]
  have handed : d.handled? a = other.handled? a := by
    cases a with
    | deliver => exact head
    | strike => simp only [handled?, timer]
    | _ => rfl
  have prepared : (d.prepared a).Same (other.prepared a) := by
    cases a with
    | deliver => exact ⟨player, board, timer, by simp [Deck.prepared, List.map_tail, mail], log⟩
    | change board => exact ⟨player, rfl, timer, mail, log⟩
    | _ => exact ⟨player, board, by simp [Deck.prepared, timer], by simp [Deck.prepared, timer, mail],
        log⟩
  unfold Deck.act
  rw [handed]
  cases other.handled? a with
  | none => exact prepared
  | some e =>
      simp only [Deck.handle, prepared.player, prepared.board, prepared.timer]
      exact prepared.absorb _

/-- An event gets older by one at most while the player does something. -/
theorem age_aged_le {mail : List Message} {n : Nat} (young : ∀ m ∈ mail, m.age ≤ n)
    (before after : UInt32) : ∀ m ∈ aged mail before after, m.age ≤ n + 1 := by
  intro m member
  unfold aged at member
  split at member
  · exact Nat.le_succ_of_le (young m member)
  · obtain ⟨old, was, rfl⟩ := List.mem_map.mp member
    exact Nat.succ_le_succ (young old was)

end Deck

namespace Session

variable {σ : Type}

/-- A session as a deck. -/
def deck (s : Session σ) : Deck :=
  { player := s.player, board := s.engine.board, timer := s.timer
    mail := s.queue.map fun event => { event }, log := s.log }

/-- A session's player acts on an event as a deck's does. -/
theorem deck_handle (s : Session σ) (e : Event) : (s.handle e).deck.Same (s.deck.handle e) := by
  have queue : (s.handle e).queue = s.queue ++
      (s.player.handle s.engine.board s.timer.remaining e).board.published.filter
        Event.isForPlayer := rfl
  refine ⟨rfl, rfl, rfl, ?_, rfl⟩
  simp only [deck, Deck.handle, Deck.absorb, queue, List.map_append, Deck.map_event_aged]

/-- The end of a session's wait is acted on at once. -/
theorem deck_fire (s : Session σ) : s.fire.2.deck.Same (s.deck.act .strike) := by
  unfold fire Deck.act
  cases armed : s.timer.armed with
  | none =>
      simp only [Countdown.fire, armed, Deck.handled?, deck, Option.map_none]
      exact ⟨rfl, rfl, rfl, rfl, rfl⟩
  | some a =>
      simp only [Countdown.fire, armed, Deck.handled?, deck, Option.map_some]
      exact deck_handle _ _

/-- A session delivers its queue in turn. -/
theorem deck_pump (s : Session σ) : (s.pump 1).deck.Same (s.deck.act .deliver) := by
  unfold pump Deck.act
  cases queue : s.queue with
  | nil =>
      simp only [Deck.handled?, deck, queue, List.map_nil, List.head?_nil, Option.map_none]
      exact ⟨rfl, rfl, rfl, by simp [Deck.prepared], rfl⟩
  | cons e rest =>
      simp only [pump, Deck.handled?, deck, queue, List.map_cons, List.head?_cons, Option.map_some]
      exact deck_handle _ _

end Session

end RelayTimer
