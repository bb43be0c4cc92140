import RelayTimer.Proofs.Publishing

set_option autoImplicit false

/-!
What a console line publishes, and what becomes of the relay's owner: most lines leave both, and
the others are of four kinds.
-/
namespace RelayTimer

/-- What a line makes of the owner of the relay, and the events that it publishes meanwhile. -/
inductive LineEffect : Bool → List Event → Bool → Prop
  | none (owning : Bool) : LineEffect owning [] owning
  | plays (owning : Bool) : LineEffect owning [.start true] owning
  | takes : LineEffect false [.consoleTook, .start true] true
  | leaves : LineEffect true [.stop, .consoleLeft] false
  | leavesAgain : LineEffect false [.consoleLeft] false

namespace Reply

variable {σ α β : Type}

theorem bind_apply (reply : Reply σ α) (next : α → Reply σ β) (d : Desk σ) :
    (reply >>= next) d = match reply d with
      | (.ok a, after) => next a after
      | (.error e, after) => (.error e, after) := by
  change (match reply d with | (a, after) => (ExceptT.bindCont next a) after) = _
  cases reply d with
  | mk result after => cases result <;> rfl

theorem get_bind (next : Desk σ → Reply σ β) (d : Desk σ) : (get >>= next) d = next d d := rfl

/-- A reply that leaves the board and the owner of the relay, also where it cannot be written. -/
def Keeps (reply : Reply σ α) : Prop :=
  ∀ d, (reply d).2.engine.board = d.engine.board ∧ (reply d).2.console.owning = d.console.owning

theorem Keeps.pure (a : α) : Keeps (Pure.pure a : Reply σ α) := fun _ => ⟨rfl, rfl⟩

theorem Keeps.bind {reply : Reply σ α} {next : α → Reply σ β} (first : Keeps reply)
    (later : ∀ a, Keeps (next a)) : Keeps (reply >>= next) := by
  intro d
  obtain ⟨board, owning⟩ := first d
  rw [bind_apply]
  cases done : reply d with
  | mk result after =>
    rw [done] at board owning
    cases result with
    | error e => exact ⟨board, owning⟩
    | ok a =>
        obtain ⟨boardLater, owningLater⟩ := later a after
        exact ⟨boardLater.trans board, owningLater.trans owning⟩

theorem Keeps.get : Keeps (MonadState.get : Reply σ (Desk σ)) := fun _ => ⟨rfl, rfl⟩

theorem Keeps.ite {p : Prop} [Decidable p] {yes no : Reply σ α} (first : Keeps yes)
    (second : Keeps no) : Keeps (if p then yes else no) := by
  split
  · exact first
  · exact second

end Reply

namespace Desk

open Reply (Keeps)

variable {σ α : Type}

theorem keeps_say (pieces : List String) : Keeps (say pieces : Reply σ Unit) :=
  fun _ => ⟨rfl, rfl⟩

theorem keeps_onEngine {step : StateM (Engine σ) α} (board : ∀ e, (step e).2.board = e.board) :
    Keeps (onEngine step) := fun d => ⟨board d.engine, rfl⟩

theorem keeps_onCatalog (call : StateM (Catalog σ) α) :
    Keeps (onEngine (Engine.onCatalog call)) := keeps_onEngine fun _ => rfl

theorem keeps_onStorage (call : StoreCall (Catalog σ) Unit) : Keeps (onStorage call) := by
  refine Keeps.bind (keeps_onEngine fun _ => rfl) fun answer => ?_
  cases answer with
  | ok => exact .pure ()
  | error e => exact keeps_say _

theorem onBoard_bind (change : Board → Board) (next : Unit → Reply σ α) (d : Desk σ) :
    (onBoard change >>= next) d = next () { d with engine := d.engine.onBoard change } := rfl

theorem setConsole_bind (change : Console → Console) (next : Unit → Reply σ α) (d : Desk σ) :
    (setConsole change >>= next) d = next () { d with console := change d.console } := rfl

/-- What a reply publishes, and what becomes of the owner of the relay. -/
def Has (d : Desk σ) (after : Desk σ) : Prop :=
  ∃ events, d.engine.board.Publishes events after.engine.board ∧
    LineEffect d.console.owning events after.console.owning

theorem has_of_keeps {reply : Reply σ Unit} (keeps : Keeps reply) (d : Desk σ) :
    d.Has (reply d).2 := by
  obtain ⟨board, owning⟩ := keeps d
  exact ⟨[], by rw [board]; exact .refl _, by rw [owning]; exact .none _⟩

/-- The line that is remembered of a typed program. -/
def keepLine (line : String) : Reply σ Unit := do
  let text := String.ofList (Text.trim line.toList)
  if text.utf8ByteSize ≤ Console.maxLineBytes then
    setConsole fun c => { c with lastProgram := text }
  else
    setConsole fun c => { c with lastProgram := "" }
    say (Console.remark "Program too long to save")

theorem keeps_keepLine (line : String) : Keeps (keepLine line : Reply σ Unit) := by
  have lastProgram (text : String) :
      Keeps (setConsole fun c => { c with lastProgram := text } : Reply σ Unit) :=
    fun _ => ⟨rfl, rfl⟩
  exact .ite (lastProgram _) (Keeps.bind (lastProgram _) fun _ => keeps_say _)

theorem has_quit (d : Desk σ) : d.Has (quit d).2 := by
  obtain ⟨⟨lastProgram, owning⟩, engine, output⟩ := d
  cases owning with
  | true =>
      exact ⟨[.stop, .consoleLeft],
        (Board.publishes_publish _ _).trans (Board.publishes_publish _ _), .leaves⟩
  | false => exact ⟨[.consoleLeft], Board.publishes_publish _ _, .leavesAgain⟩

theorem playTyped_apply (p : Program) (line : String) (d : Desk σ) :
    playTyped p line d = keepLine line { d with
      console := { d.console with owning := true }
      engine := d.engine.onBoard fun b =>
        (if d.console.owning then b else b.publish .consoleTook).play p } := by
  unfold playTyped keepLine
  rw [Reply.get_bind]
  -- Who owns the relay decides whether an event for the new owner comes first.
  obtain ⟨⟨lastProgram, owning⟩, engine, output⟩ := d
  cases owning with
  | true =>
      simp only [Bool.not_true, Bool.false_eq_true, ↓reduceIte]
      exact onBoard_bind _ _ _
  | false =>
      simp only [Bool.not_false, Bool.false_eq_true, ↓reduceIte]
      rw [setConsole_bind, onBoard_bind, onBoard_bind]
      rfl

theorem has_playTyped (p : Program) (line : String) (d : Desk σ) : d.Has (playTyped p line d).2 := by
  obtain ⟨board, same⟩ := keeps_keepLine line { d with
    console := { d.console with owning := true }
    engine := d.engine.onBoard fun b =>
      (if d.console.owning then b else b.publish .consoleTook).play p }
  rw [playTyped_apply]
  unfold Has
  rw [board, same]
  cases d.console.owning with
  | true => exact ⟨[.start true], Board.publishes_play _ p, .plays true⟩
  | false =>
      exact ⟨[.consoleTook, .start true],
        (Board.publishes_publish _ _).trans (Board.publishes_play _ p), .takes⟩

variable [ByteStore σ]

theorem keeps_listSlots (autostart lastUsed : Option Nat) (slots : List Nat) :
    Keeps (listSlots autostart lastUsed slots : Reply σ Unit) := by
  induction slots with
  | nil => exact .pure ()
  | cons slot rest ih =>
      exact Keeps.bind (keeps_onCatalog _) fun text => Keeps.bind (keeps_say _) fun _ => ih

theorem keeps_listPrograms : Keeps (listPrograms : Reply σ Unit) :=
  Keeps.bind (keeps_onCatalog _) fun _ => Keeps.bind .get fun _ => keeps_listSlots _ _ _

theorem keeps_save (slot : Nat) : Keeps (save slot : Reply σ Unit) :=
  Keeps.bind .get fun _ => .ite (keeps_say _) (.ite (keeps_say _) (.ite (keeps_say _)
    (keeps_onStorage _)))

theorem keeps_delete (slot : Nat) : Keeps (delete slot : Reply σ Unit) :=
  .ite (keeps_say _) (keeps_onStorage _)

theorem keeps_autostart (slot : Nat) : Keeps (autostart slot : Reply σ Unit) :=
  Keeps.bind .get fun _ => .ite (keeps_onStorage _) (keeps_say _)

/-- To play a slot loads its program, if it is occupied, and leaves the owner of the relay. -/
theorem run_loads (slot : Nat) (d : Desk σ) :
    (run slot d).2.engine.board = (if d.engine.catalog.isOccupied slot
      then (Engine.load slot d.engine).2.board else d.engine.board) ∧
    (run slot d).2.console.owning = d.console.owning := by
  have rest : Keeps (do
      onEngine (modify fun e => { e with catalog := e.catalog.select (some slot) })
      onStorage (Catalog.reassign .lastUsed (some slot)) : Reply σ Unit) :=
    Keeps.bind (keeps_onEngine fun _ => rfl) fun _ => keeps_onStorage _
  have occupied : run slot d = if d.engine.catalog.isOccupied slot then
      (onEngine (Engine.load slot) >>= fun _ => do
        onEngine (modify fun e => { e with catalog := e.catalog.select (some slot) })
        onStorage (Catalog.reassign .lastUsed (some slot))) d
      else say (Console.noProgram slot) d := by
    unfold run whenOccupied
    rw [Reply.get_bind]
    split <;> rfl
  rw [occupied]
  split
  · have loaded : (onEngine (Engine.load slot) : Reply σ Unit) d =
        (.ok (), { d with engine := (Engine.load slot d.engine).2 }) := rfl
    obtain ⟨board, owning⟩ := rest { d with engine := (Engine.load slot d.engine).2 }
    rw [Reply.bind_apply, loaded]
    exact ⟨board, owning⟩
  · exact keeps_say (Console.noProgram slot) d

theorem has_run (slot : Nat) (d : Desk σ) : d.Has (run slot d).2 := by
  obtain ⟨board, owning⟩ := run_loads slot d
  unfold Has
  rw [board, owning]
  split
  · exact ⟨[.start true], Board.publishes_play _ _, .plays _⟩
  · exact ⟨[], .refl _, .none _⟩

/-- What a line does, whatever it is and even if it cannot be answered. -/
theorem has_process (line : String) (d : Desk σ) : d.Has (process line d).2 := by
  unfold process
  cases Request.ofLine line with
  | error e => exact has_of_keeps (keeps_say _) d
  | ok request =>
    cases request with
    | nothing => exact has_of_keeps (.pure ()) d
    | program p => exact has_playTyped p line d
    | help => exact has_of_keeps (keeps_say _) d
    | list => exact has_of_keeps keeps_listPrograms d
    | quit => exact has_quit d
    | onSlot verb slot =>
      cases verb with
      | save => exact has_of_keeps (keeps_save slot) d
      | delete => exact has_of_keeps (keeps_delete slot) d
      | run => exact has_run slot d
      | autostart => exact has_of_keeps (keeps_autostart slot) d

/-- Who owns the relay once a line has been processed. -/
def owningAfter (line : String) (owning : Bool) : Bool :=
  match Request.ofLine line with
  | .ok (.program _) => true
  | .ok .quit => false
  | _ => owning

theorem owning_process (line : String) (d : Desk σ) :
    (process line d).2.console.owning = owningAfter line d.console.owning := by
  unfold process owningAfter
  cases Request.ofLine line with
  | error e => exact (keeps_say _ d).2
  | ok request =>
    cases request with
    | nothing => rfl
    | program p =>
        dsimp only
        rw [playTyped_apply]
        exact (keeps_keepLine line _).2
    | help => exact (keeps_say _ d).2
    | list => exact (keeps_listPrograms d).2
    | quit =>
        obtain ⟨⟨lastProgram, owning⟩, engine, output⟩ := d
        cases owning <;> rfl
    | onSlot verb slot =>
      cases verb with
      | save => exact (keeps_save slot d).2
      | delete => exact (keeps_delete slot d).2
      | run => exact (run_loads slot d).2
      | autostart => exact (keeps_autostart slot d).2

end Desk

end RelayTimer
