import RelayTimer.Proofs.CanonicalProgram
import RelayTimer.Proofs.CatalogUse

set_option autoImplicit false

/-!
What the engine, the console and a session do to the board when they are told something: they
publish events, may load a program, and leave the contact and the counter alone.
-/
namespace RelayTimer

namespace Program

theorem Canonical.playable {p : Program} (canonical : p.Canonical) : p.Playable := by
  cases steps : p.steps with
  | nil =>
      have sized := canonical.sized.1
      rw [steps] at sized
      exact absurd sized (by decide)
  | cons first rest =>
      refine ⟨first, by rw [steps]; rfl, ?_⟩
      intro loops
      have here : p.steps[0]? = some first := by rw [steps]; rfl
      exact absurd (canonical.loopsLast 0 first here loops).1 (by decide)

theorem playable_of_ofLine {line : String} {p : Program}
    (reads : Request.ofLine line = .ok (.program p)) : p.Playable :=
  (Request.canonical_of_ofChars reads).playable

theorem playable_failSafe : failSafe.Playable := ⟨_, rfl, by decide⟩

end Program

namespace Board

/-- What commands do to a board: they publish events and may load a program. -/
structure Commanded (b : Board) (loaded : Option Program) (events : List Event) (after : Board) :
    Prop extends b.Publishes events after where
  contact : after.contact = b.contact
  counter : after.counter = b.counter
  program : after.program = (loaded.map Program.rewind).getD b.program
  started : .start true ∈ events ↔ loaded.isSome
  unposted : ∀ n, .elapsed n ∉ events

variable {b mid after : Board} {events later : List Event} {loaded loadedLater : Option Program}

theorem Commanded.refl (b : Board) : b.Commanded none [] b :=
  ⟨.refl b, rfl, rfl, rfl, by simp, by simp⟩

/-- An event is published that is neither a start from the first step nor the end of a time. -/
theorem commanded_publish (b : Board) {e : Event} (unstarted : e ≠ .start true)
    (unposted : ∀ n, e ≠ .elapsed n) : b.Commanded none [e] (b.publish e) :=
  ⟨b.publishes_publish e, rfl, rfl, rfl, by simp [unstarted.symm],
    fun n => by simp [(unposted n).symm]⟩

theorem commanded_play (b : Board) (p : Program) : b.Commanded (some p) [.start true] (b.play p) :=
  ⟨b.publishes_play p, rfl, rfl, rfl, by simp, by simp⟩

/-- A program is played, if there is one. -/
def playIf (b : Board) (loaded : Option Program) : Board := loaded.elim b b.play

theorem commanded_playIf (b : Board) (loaded : Option Program) :
    b.Commanded loaded (loaded.toList.map fun _ => .start true) (b.playIf loaded) := by
  cases loaded with
  | none => exact .refl b
  | some p => exact b.commanded_play p

theorem Commanded.trans (first : b.Commanded loaded events mid)
    (second : mid.Commanded loadedLater later after) :
    b.Commanded (loadedLater.or loaded) (events ++ later) after := by
  refine ⟨first.toPublishes.trans second.toPublishes, second.contact.trans first.contact,
    second.counter.trans first.counter, ?_, ?_, ?_⟩
  · rw [second.program, first.program]
    cases loadedLater <;> rfl
  · rw [List.mem_append, first.started, second.started]
    cases loadedLater <;> simp
  · intro n member
    rcases List.mem_append.mp member with early | late
    · exact first.unposted n early
    · exact second.unposted n late

end Board

namespace Catalog

variable {σ : Type} [ByteStore σ]

/-- The program that is played when a slot is. -/
def played (c : Catalog σ) (slot : Nat) : Program := ((program? slot c).1).getD Program.failSafe

theorem playable_played (c : Catalog σ) (slot : Nat) : (c.played slot).Playable := by
  unfold played
  cases there : (program? slot c).1 with
  | none => exact Program.playable_failSafe
  | some p =>
      rw [program?_fst] at there
      split at there
      · rename_i q text
        cases there
        obtain ⟨line, -, reads⟩ := Option.map_eq_some_iff.mp text
        exact Program.playable_of_ofLine reads
      · cases there

end Catalog

namespace Engine

variable {σ : Type} [ByteStore σ]

/-- The program that is played at the start, if one is. -/
def booted? (e : Engine σ) : Option Program :=
  e.catalog.autostart.map (e.catalog.select e.catalog.autostart).played

theorem board_boot (e : Engine σ) : (boot e).2.board = e.board.playIf e.booted? := by
  obtain ⟨⟨store, occupied, autostart, lastUsed, selected⟩, board⟩ := e
  cases autostart <;> rfl

theorem board_storeManual (e : Engine σ) (times : ManualTimes) :
    ∃ loaded, (∀ p ∈ loaded, p.Playable) ∧
      (storeManual times e).2.board = e.board.playIf loaded := by
  cases done : storeManual times e with
  | mk answer after =>
    rcases StoreCall.bind_cases done with ⟨error, failed, -⟩ | ⟨_, mid, written, loads⟩
    · exact ⟨none, nofun, congrArg (·.2.board) failed.symm⟩
    · have board : mid.board = e.board := congrArg (·.2.board) written.symm
      obtain ⟨_, -, loaded⟩ := StoreCall.always_cases loads
      refine ⟨some (mid.catalog.played manualSlot), ?_, ?_⟩
      · rintro p ⟨⟩
        exact Catalog.playable_played _ _
      · rw [← board]
        exact congrArg (·.2.board) loaded.symm

end Engine

theorem Errand.board_perform {σ : Type} [ByteStore σ] (e : Engine σ) (errand : Errand) :
    ∃ loaded, (∀ p ∈ loaded, p.Playable) ∧
      (errand.perform e).2.board = e.board.playIf loaded := by
  cases errand with
  | storeManual times => exact e.board_storeManual times
  | shelf op =>
      cases op with
      | load slot =>
          refine ⟨some (e.catalog.played slot), ?_, rfl⟩
          rintro p ⟨⟩
          exact Catalog.playable_played _ _
      | _ => exact ⟨none, nofun, rfl⟩

namespace Desk

variable {σ : Type}

theorem commanded_of_keeps {reply : Reply σ Unit} (keeps : Reply.Keeps reply) (d : Desk σ) :
    ∃ events, d.engine.board.Commanded none events (reply d).2.engine.board := by
  rw [(keeps d).1]
  exact ⟨[], .refl _⟩

theorem commanded_quit (d : Desk σ) :
    ∃ events, d.engine.board.Commanded none events (quit d).2.engine.board := by
  obtain ⟨⟨lastProgram, owning⟩, engine, output⟩ := d
  have leaves (b : Board) : b.Commanded none [.consoleLeft] (b.publish .consoleLeft) :=
    b.commanded_publish (by simp) (by simp)
  cases owning with
  | true => exact ⟨_, (engine.board.commanded_publish (by simp) (by simp)).trans (leaves _)⟩
  | false => exact ⟨_, leaves _⟩

theorem commanded_playTyped (p : Program) (line : String) (d : Desk σ) :
    ∃ events, d.engine.board.Commanded (some p) events (playTyped p line d).2.engine.board := by
  rw [playTyped_engine]
  cases d.console.owning with
  | true => exact ⟨_, d.engine.board.commanded_play p⟩
  | false =>
      exact ⟨_, (d.engine.board.commanded_publish (by simp) (by simp)).trans
        (Board.commanded_play _ p)⟩

variable [ByteStore σ]

/-- The program that a line loads, if it loads one. -/
def loads? (line : String) (d : Desk σ) : Option Program :=
  match Request.ofLine line with
  | .ok (.program p) => some p
  | .ok (.onSlot .run slot) =>
    if d.engine.catalog.isOccupied slot then some (d.engine.catalog.played slot) else none
  | _ => none

theorem playable_of_loads? {line : String} {d : Desk σ} {p : Program}
    (loads : loads? line d = some p) : p.Playable := by
  unfold loads? at loads
  split at loads
  · rename_i reads
    cases loads
    exact Program.playable_of_ofLine reads
  · split at loads
    · cases loads
      exact Catalog.playable_played _ _
    · cases loads
  · cases loads

theorem commanded_run (slot : Nat) (d : Desk σ) :
    ∃ events, d.engine.board.Commanded
      (if d.engine.catalog.isOccupied slot then some (d.engine.catalog.played slot) else none)
      events (run slot d).2.engine.board := by
  rw [(run_loads slot d).1]
  split
  · exact ⟨_, d.engine.board.commanded_play _⟩
  · exact ⟨[], .refl _⟩

/-- What a line does to the board, whatever it is and even if it cannot be answered. -/
theorem commanded_process (line : String) (d : Desk σ) :
    ∃ events, d.engine.board.Commanded (loads? line d) events (process line d).2.engine.board := by
  unfold process loads?
  cases Request.ofLine line with
  | error e => exact commanded_of_keeps (keeps_say _) d
  | ok request =>
    cases request with
    | nothing => exact commanded_of_keeps (.pure ()) d
    | program p => exact commanded_playTyped p line d
    | help => exact commanded_of_keeps (keeps_say _) d
    | list => exact commanded_of_keeps keeps_listPrograms d
    | quit => exact commanded_quit d
    | onSlot verb slot =>
      cases verb with
      | save => exact commanded_of_keeps (keeps_save slot) d
      | delete => exact commanded_of_keeps (keeps_delete slot) d
      | run => exact commanded_run slot d
      | autostart => exact commanded_of_keeps (keeps_autostart slot) d

/-- The same events say what becomes of the board and of the owner of the relay. -/
theorem told_process (line : String) (d : Desk σ) : ∃ events,
    d.engine.board.Commanded (loads? line d) events (process line d).2.engine.board ∧
      LineEffect d.console.owning events (process line d).2.console.owning := by
  obtain ⟨events, commanded⟩ := commanded_process line d
  obtain ⟨same, told, effect⟩ := has_process line d
  have equal : events = same :=
    List.append_cancel_left (commanded.published.symm.trans told.published)
  subst equal
  exact ⟨events, commanded, effect⟩

end Desk

namespace LineEffect

variable {owning left : Bool} {events : List Event}

/-- The console owns the relay exactly if the state of the board says so. -/
theorem owner (effect : LineEffect owning events left) {state : RunState}
    (owner : owning = true ↔ state = .consoleOwned) :
    left = true ↔ events.foldl RunState.after state = .consoleOwned := by
  cases effect with
  | none => exact owner
  | plays =>
      refine owner.trans ?_
      cases state <;> decide
  | takes => cases state <;> decide
  | leaves => cases owner.mp rfl; decide
  | leavesAgain =>
      refine owner.trans ?_
      cases state with
      | consoleOwned => exact absurd (owner.mpr rfl) (by decide)
      | _ => decide

/-- Who takes the relay plays something on it. -/
theorem started_of_took (effect : LineEffect owning events left)
    (took : .consoleTook ∈ events) : .start true ∈ events := by
  cases effect with
  | takes => simp
  | _ => simp at took

end LineEffect

theorem RunState.after_command (s : RunState) {e : Event} (command : e = .stop ∨ ∃ f, e = .start f) :
    s.after e = .consoleOwned ↔ s = .consoleOwned := by
  rcases command with rfl | ⟨f, rfl⟩ <;> cases s <;> simp [RunState.after]

/-- Events that leave the owner of the relay each do so one after another. -/
theorem RunState.foldl_after_owned {events : List Event}
    (stays : ∀ e ∈ events, ∀ s : RunState, s.after e = .consoleOwned ↔ s = .consoleOwned)
    (s : RunState) : events.foldl RunState.after s = .consoleOwned ↔ s = .consoleOwned := by
  induction events generalizing s with
  | nil => rfl
  | cons e rest ih =>
      rw [List.foldl_cons, ih fun other member => stays other (List.mem_cons_of_mem _ member)]
      exact stays e List.mem_cons_self s

namespace Session

variable {σ : Type}

/-- All that an order does to a session: it may load a program, it publishes events, and the
console owns the relay exactly if the state of the board says so. -/
structure Ordered (s after : Session σ) (loaded : Option Program) (events : List Event) : Prop where
  player : after.player = s.player
  timer : after.timer = s.timer
  quiet : after.engine.board.published = []
  state : after.engine.board.state = events.foldl RunState.after s.engine.board.state
  contact : after.engine.board.contact = s.engine.board.contact
  counter : after.engine.board.counter = s.engine.board.counter
  program : after.engine.board.program = (loaded.map Program.rewind).getD s.engine.board.program
  playable : ∀ p ∈ loaded, p.Playable
  started : .start true ∈ events ↔ loaded.isSome
  took : .consoleTook ∈ events → .start true ∈ events
  unposted : ∀ n, .elapsed n ∉ events
  queue : after.queue = s.queue ++ events.filter Event.isForPlayer
  log : after.log = events.reverse ++ s.log
  owner : after.console.owning = true ↔ after.engine.board.state = .consoleOwned

variable {s : Session σ}

theorem ordered_collect (quiet : s.engine.board.published = []) {engine : Engine σ}
    {console : Console} {loaded : Option Program} {events : List Event}
    (commanded : s.engine.board.Commanded loaded events engine.board)
    (playable : ∀ p ∈ loaded, p.Playable)
    (owner : console.owning = true ↔
      events.foldl RunState.after s.engine.board.state = .consoleOwned)
    (took : .consoleTook ∈ events → .start true ∈ events) :
    Ordered s ({ s with engine, console } : Session σ).collect loaded events := by
  have all : engine.board.published = events := by
    rw [commanded.published, quiet, List.nil_append]
  exact
    { player := rfl
      timer := rfl
      quiet := rfl
      state := commanded.state
      contact := commanded.contact
      counter := commanded.counter
      program := commanded.program
      playable
      started := commanded.started
      took
      unposted := commanded.unposted
      queue := by rw [← all]; rfl
      log := by rw [← all]; rfl
      owner := owner.trans (by rw [← commanded.state]; rfl) }

/-- The engine is told to start or to stop. -/
theorem ordered_commands (quiet : s.engine.board.published = [])
    (owner : s.console.owning = true ↔ s.engine.board.state = .consoleOwned) {engine : Engine σ}
    {loaded : Option Program} {events : List Event}
    (commanded : s.engine.board.Commanded loaded events engine.board)
    (playable : ∀ p ∈ loaded, p.Playable)
    (commands : ∀ e ∈ events, e = .stop ∨ ∃ f, e = .start f) :
    Ordered s ({ s with engine } : Session σ).collect loaded events := by
  refine ordered_collect quiet commanded playable (owner.trans ?_) ?_
  · exact (RunState.foldl_after_owned (fun e member state =>
      state.after_command (commands e member)) _).symm
  · intro took
    rcases commands _ took with same | ⟨f, same⟩ <;> cases same

/-- A program is played, if there is one. -/
theorem ordered_playIf (quiet : s.engine.board.published = [])
    (owner : s.console.owning = true ↔ s.engine.board.state = .consoleOwned) {engine : Engine σ}
    {loaded : Option Program} (playable : ∀ p ∈ loaded, p.Playable)
    (board : engine.board = s.engine.board.playIf loaded) :
    ∃ events, Ordered s ({ s with engine } : Session σ).collect loaded events := by
  have commanded := s.engine.board.commanded_playIf loaded
  rw [← board] at commanded
  refine ⟨_, ordered_commands quiet owner commanded playable ?_⟩
  intro e member
  obtain ⟨p, -, rfl⟩ := List.mem_map.mp member
  exact .inr ⟨true, rfl⟩

variable [ByteStore σ]

/-- Whatever a session is told. -/
theorem order_ordered (quiet : s.engine.board.published = [])
    (owner : s.console.owning = true ↔ s.engine.board.state = .consoleOwned) {o : Order}
    (playable : ∀ p, o = .play p → p.Playable) :
    ∃ loaded events, Ordered s (s.order o) loaded events := by
  cases o with
  | line text room =>
      obtain ⟨events, commanded, effect⟩ := Desk.told_process text (s.deskFor room)
      exact ⟨_, events, ordered_collect quiet commanded (fun p => Desk.playable_of_loads?)
        (effect.owner owner) effect.started_of_took⟩
  | play p =>
      refine ⟨some p, ordered_playIf quiet owner ?_ rfl⟩
      rintro q ⟨⟩
      exact playable p rfl
  | stop =>
      exact ⟨_, _, ordered_commands quiet owner
        (s.engine.board.commanded_publish (by simp) (by simp)) nofun (by simp)⟩
  | resume =>
      exact ⟨_, _, ordered_commands quiet owner
        (s.engine.board.commanded_publish (by simp) (by simp)) nofun (by simp)⟩
  | boot =>
      refine ⟨_, ordered_playIf quiet owner ?_ s.engine.board_boot⟩
      intro p loads
      obtain ⟨slot, -, rfl⟩ := Option.map_eq_some_iff.mp loads
      exact Catalog.playable_played _ _
  | errand e =>
      obtain ⟨loaded, can, board⟩ := Errand.board_perform s.engine e
      exact ⟨loaded, ordered_playIf quiet owner can board⟩

end Session

end RelayTimer
