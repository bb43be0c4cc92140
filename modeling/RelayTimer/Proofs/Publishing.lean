import RelayTimer.Proofs.Deck

set_option autoImplicit false

/-!
What a board publishes while something is done to it. Its state is moved by that and by nothing
else, so a list of events says what becomes of the state.
-/
namespace RelayTimer

namespace Event

/-- The event only tells something: it is no command, and the state of a board stays. -/
def isNotice : Event → Bool
  | contactChanged | wiringChanged | counterChanged | elapsed _ | healthCheck => true
  | start _ | stop | ended | consoleTook | consoleLeft => false

end Event

theorem RunState.after_notice (s : RunState) {e : Event} (notice : e.isNotice) : s.after e = s := by
  cases s <;> cases e <;> first | rfl | cases notice

theorem RunState.foldl_after_notices (s : RunState) {events : List Event}
    (notices : ∀ e ∈ events, e.isNotice) : events.foldl RunState.after s = s := by
  induction events generalizing s with
  | nil => rfl
  | cons e rest ih =>
      rw [List.foldl_cons, s.after_notice (notices e List.mem_cons_self)]
      exact ih s fun other member => notices other (List.mem_cons_of_mem _ member)

theorem Contact.notices_set (contact : Contact) (intent : Intent) :
    ∀ e ∈ (contact.set intent).2, e.isNotice := by
  intro e member
  simp only [Contact.set] at member
  split at member
  · cases member
  · cases List.mem_singleton.mp member
    rfl

namespace Board

/-- What has been published between two moments, and that it alone has moved the state. -/
structure Publishes (b : Board) (events : List Event) (after : Board) : Prop where
  published : after.published = b.published ++ events
  state : after.state = events.foldl RunState.after b.state

theorem Publishes.refl (b : Board) : b.Publishes [] b := ⟨by simp, rfl⟩

theorem Publishes.trans {b mid after : Board} {first second : List Event}
    (begun : b.Publishes first mid) (ended : mid.Publishes second after) :
    b.Publishes (first ++ second) after := by
  refine ⟨?_, ?_⟩
  · rw [ended.published, begun.published, List.append_assoc]
  · rw [ended.state, begun.state, List.foldl_append]

theorem publishes_publish (b : Board) (e : Event) : b.Publishes [e] (b.publish e) := ⟨rfl, rfl⟩

theorem publishes_play (b : Board) (p : Program) : b.Publishes [.start true] (b.play p) := ⟨rfl, rfl⟩

theorem publishes_counter (b : Board) (counter : Option UInt32) :
    b.Publishes [.counterChanged] ((b.setCounter counter).publish .counterChanged) :=
  ⟨rfl, rfl⟩

/-- A step of a program tells at most that the contact has changed. -/
theorem publishes_act (b : Board) (kind : StepKind) :
    ∃ events, (∀ e ∈ events, e.isNotice) ∧ b.Publishes events (Player.act b kind) := by
  unfold Player.act
  split
  · rename_i intent _
    have silent := b.contact.notices_set intent
    exact ⟨(b.contact.set intent).2, silent, rfl, (RunState.foldl_after_notices _ silent).symm⟩
  · exact ⟨[], by simp, .refl b⟩

end Board

/-- What an event makes of playback as long as the program does not end. -/
def Playback.after (p : Playback) (e : Event) : Playback :=
  match e, p with
  | .start true, _ => .running
  | .start false, .paused => .running
  | .stop, .running => .paused
  | _, p => p

namespace Player

/-- What a player that acts on an event tells of it: that its program has ended, or nothing that
moves the state of the board. -/
inductive Tells (p : Player) (b : Board) (e : Event) (played : Played) : Prop
  | ends (notices : List Event) (silent : ∀ n ∈ notices, n.isNotice)
      (told : b.Publishes (notices ++ [.ended]) played.board)
      (idle : played.player.playback = .idle)
  | goesOn (notices : List Event) (silent : ∀ n ∈ notices, n.isNotice)
      (told : b.Publishes notices played.board)
      (playback : played.player.playback = p.playback.after e)
      (able : e = .start false → p.playback ≠ .idle)

theorem playNext_tells (p : Player) (b : Board) :
    (p.playNext b).player.playback = .idle ∧ b.Publishes [.ended] (p.playNext b).board ∨
    (p.playNext b).player.playback = p.playback ∧
      ∃ notices, (∀ n ∈ notices, n.isNotice) ∧ b.Publishes notices (p.playNext b).board := by
  cases here : p.program.next? with
  | none =>
      rw [playNext_ended here]
      exact .inl ⟨rfl, b.publishes_publish _⟩
  | some found =>
      obtain ⟨step, program⟩ := found
      right
      by_cases loops : step.kind = .loops
      · rw [playNext_looped here loops]
        refine ⟨rfl, [.counterChanged, .elapsed p.epoch], ?_, ?_⟩
        · simp [Event.isNotice]
        · exact (b.publishes_counter _).trans (Board.publishes_publish _ _)
      · rw [playNext_stepped here loops]
        exact ⟨rfl, b.publishes_act step.kind⟩

/-- A player that has told something before it plays its next step. -/
theorem Tells.playNext {p own : Player} {b mid : Board} {e : Event} {events : List Event}
    (silent : ∀ n ∈ events, n.isNotice) (before : b.Publishes events mid)
    (playback : own.playback = p.playback.after e) (able : e = .start false → p.playback ≠ .idle) :
    Tells p b e (own.playNext mid) := by
  rcases own.playNext_tells mid with ⟨idle, told⟩ | ⟨same, notices, later, told⟩
  · exact .ends events silent (before.trans told) idle
  · refine .goesOn (events ++ notices) ?_ (before.trans told) (same.trans playback) able
    intro n member
    rcases List.mem_append.mp member with first | second
    · exact silent n first
    · exact later n second

theorem handle_tells (p : Player) (b : Board) (remainingMs : UInt32) (e : Event) :
    Tells p b e (p.handle b remainingMs e) := by
  have nothing : ∀ n ∈ ([] : List Event), n.isNotice := by simp
  unfold handle
  split
  · have counter : ∀ n ∈ [Event.counterChanged], n.isNotice := by simp [Event.isNotice]
    exact .playNext counter (b.publishes_counter _) rfl (by simp)
  · unfold resume
    split
    · rename_i running
      exact .goesOn [] nothing (.refl b) (by rw [running]; rfl) (by simp [running])
    · rename_i idle
      exact .ends [] nothing (b.publishes_publish _) idle
    · rename_i paused
      dsimp only
      split
      · exact .playNext nothing (.refl b) (by rw [paused]; rfl) (by simp [paused])
      · exact .goesOn [] nothing (.refl b) (by rw [paused]; rfl) (by simp [paused])
  · unfold pause
    split
    · rename_i running
      exact .goesOn [] nothing (.refl b) (by rw [running]; rfl) (by simp)
    · rename_i idle
      exact .goesOn [] nothing (.refl b) (by rw [idle]; rfl) (by simp)
    · rename_i paused
      exact .goesOn [] nothing (.refl b) (by rw [paused]; rfl) (by simp)
  · split
    · exact .playNext nothing (.refl b) rfl (by simp)
    · exact .goesOn [] nothing (.refl b) rfl (by simp)
  · rename_i notFirst notLater notStop notElapsed
    refine .goesOn [] nothing (.refl b) ?_ (fun same => absurd same notLater)
    cases e with
    | start fromFirst => cases fromFirst <;> contradiction
    | stop => contradiction
    | _ => rfl

end Player

end RelayTimer
