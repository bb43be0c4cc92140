import RelayTimer.Proofs.Orders
import RelayTimer.Proofs.DisplayedState
import RelayTimer.Store.Fault

set_option autoImplicit false

/-!
What is done with the stored programs does not disturb the one that is played: of the store, playback
sees nothing but the programs that it is told to load. So a session that has storage work to do
meanwhile, and be it that all of that fails, plays as one that has none.
-/
namespace RelayTimer

/-- Whether a line lists the stored programs, or saves, deletes or marks one of them. -/
def Request.stores (line : String) : Bool :=
  match ofLine line with
  | .ok .list => true
  | .ok (.onSlot verb _) => verb ≠ .run
  | _ => false

/-- Whether two programs are the same and have got equally far. -/
def Program.decEq (p q : Program) : Decidable (p = q) :=
  decidable_of_iff (p.steps = q.steps ∧ p.cursor = q.cursor) (by
    obtain ⟨steps, cursor, _⟩ := p
    obtain ⟨steps', cursor', _⟩ := q
    simp)

/-- What a line makes of the board, given who owns the relay and the program that the line loads. -/
def Board.lined (b : Board) (line : String) (owning : Bool) (loaded : Option Program) : Board :=
  match Request.ofLine line with
  | .ok (.program p) => (if owning then b else b.publish .consoleTook).play p
  | .ok .quit => (if owning then b.stop else b).publish .consoleLeft
  | _ => b.playIf loaded

theorem Engine.board_load {σ : Type} [ByteStore σ] (e : Engine σ) (slot : Nat) :
    (load slot e).2.board = e.board.play (e.catalog.played slot) := rfl

namespace Desk

variable {σ : Type} [ByteStore σ]

theorem board_process (line : String) (d : Desk σ) : (process line d).2.engine.board =
    d.engine.board.lined line d.console.owning (loads? line d) := by
  unfold process Board.lined loads?
  cases Request.ofLine line with
  | error e => exact (keeps_say _ d).1
  | ok request =>
    cases request with
    | nothing => rfl
    | program p =>
        dsimp only
        rw [playTyped_engine]
        rfl
    | help => exact (keeps_say _ d).1
    | list => exact (keeps_listPrograms d).1
    | quit =>
        obtain ⟨⟨lastProgram, owning⟩, engine, output⟩ := d
        cases owning <;> rfl
    | onSlot verb slot =>
      cases verb with
      | save => exact (keeps_save slot d).1
      | delete => exact (keeps_delete slot d).1
      | run =>
          refine (run_loads slot d).1.trans ?_
          dsimp only
          split <;> rfl
      | autostart => exact (keeps_autostart slot d).1

/-- A line about the stored programs leaves the board and the owner of the relay. -/
theorem keeps_process {line : String} (stores : Request.stores line = true) :
    Reply.Keeps (process line : Reply σ Unit) := by
  intro d
  rw [board_process, owning_process]
  unfold Request.stores at stores
  unfold Board.lined owningAfter loads?
  split at stores
  · rename_i reads
    rw [reads]
    exact ⟨rfl, rfl⟩
  · rename_i verb slot reads
    rw [reads]
    cases verb with
    | run => cases stores
    | _ => exact ⟨rfl, rfl⟩
  · cases stores

end Desk

/-- All of a session but the stored programs and the one that would be saved next. -/
structure Scene where
  player : Player
  timer : Countdown
  /-- The board with the relay, how often that has been driven, the counter and the state shown. -/
  board : Board
  owning : Bool
  queue : List Event
  log : List Event

/-- Something that is done with a store, and plays nothing. -/
inductive Chore (σ : Type)
  | shelf (op : ShelfOp) (unplayed : ∀ slot, op ≠ .load slot)
  | read (slot : Nat)
  | line (text : String) (room : Option Nat) (stores : Request.stores text = true)
  /-- Something happens to the store itself: it fails from now on, or no longer does. -/
  | alter (change : σ → σ)

namespace Session

variable {σ τ : Type}

def scene (s : Session σ) : Scene :=
  { player := s.player, timer := s.timer, board := s.engine.board, owning := s.console.owning
    queue := s.queue, log := s.log }

/-- What the timer is told when something happens. -/
def asks (s : Session σ) : Move → Option TimerRequest
  | .deliver => match s.queue with
    | [] => none
    | e :: _ => (s.player.handle s.engine.board s.timer.remaining e).request
  | _ => none

variable {s : Session σ} {t : Session τ}

/-- Sessions that look alike differ in what they remember of their stores. -/
theorem exists_of_scene (same : t.scene = s.scene) : ∃ catalog lastProgram,
    t = { engine := { catalog, board := s.engine.board }, player := s.player, timer := s.timer,
          console := { lastProgram, owning := s.console.owning }, queue := s.queue, log := s.log } := by
  obtain ⟨⟨catalog, board⟩, player, timer, ⟨lastProgram, owning⟩, queue, log⟩ := t
  cases same
  exact ⟨catalog, lastProgram, rfl⟩

theorem asks_congr (same : t.scene = s.scene) (m : Move) : t.asks m = s.asks m := by
  obtain ⟨catalog, lastProgram, rfl⟩ := exists_of_scene same
  cases m <;> rfl

/-- The board and the owner of the relay are all that an order may change before its events are
collected. -/
theorem scene_collect_congr (same : t.scene = s.scene) {e : Engine σ} {f : Engine τ}
    {console : Console} {other : Console} (board : f.board = e.board)
    (owning : other.owning = console.owning) :
    ({ t with engine := f, console := other } : Session τ).collect.scene =
      ({ s with engine := e, console } : Session σ).collect.scene := by
  obtain ⟨catalog, lastProgram, rfl⟩ := exists_of_scene same
  simp only [collect, scene, Engine.onBoard, board, owning]

/-- Where there is nothing to collect and the board and the owner are as before, all is. -/
theorem scene_collect (quiet : s.engine.board.published = []) {engine : Engine σ} {console : Console}
    (board : engine.board = s.engine.board) (owning : console.owning = s.console.owning) :
    ({ s with engine, console } : Session σ).collect.scene = s.scene := by
  obtain ⟨⟨catalog, board, program, state, counter, published⟩, player, timer,
    ⟨lastProgram, was⟩, queue, log⟩ := s
  cases quiet
  simp [collect, scene, Engine.onBoard, board, owning]

variable [ByteStore σ] [ByteStore τ]

/-- Sessions that have just been set up look alike, whatever is in their stores. -/
theorem scene_ofStore (store : σ) (other : τ) (relay : RelayOutput) :
    (ofStore other relay).scene = (ofStore store relay).scene := rfl

/-- What playback reads from the store when something happens: a program, or nothing. -/
def reads? (s : Session σ) : Move → Option Program
  | .load slot => some (s.engine.catalog.played slot)
  | .line text room => Desk.loads? text (s.deskFor room)
  | _ => none

def chore (s : Session σ) : Chore σ → Session σ
  | .shelf op _ => (s.onEngine (Engine.perform op)).2
  | .read slot => (s.onEngine (Engine.onCatalog (Catalog.programText slot))).2
  | .line text room _ => (s.processLine text room).2
  | .alter change => { s with engine := { s.engine with
      catalog := { s.engine.catalog with store := change s.engine.catalog.store } } }

def moves (s : Session σ) (ms : List Move) : Session σ := ms.foldl move s

theorem quiet_move (quiet : s.engine.board.published = []) (m : Move) :
    (s.move m).engine.board.published = [] := by
  cases m with
  | deliver =>
      rw [move, pump_one]
      split
      · exact quiet
      · rfl
  | expire behind => exact quiet
  | wait ms => exact quiet
  | _ => rfl

theorem quiet_moves (quiet : s.engine.board.published = []) (ms : List Move) :
    (s.moves ms).engine.board.published = [] := by
  induction ms generalizing s with
  | nil => exact quiet
  | cons m rest ih => exact ih (quiet_move quiet m)

/-- Of two sessions that look alike, each does the same to itself if it reads the same. -/
theorem scene_move (same : t.scene = s.scene) (m : Move) (reads : t.reads? m = s.reads? m) :
    (t.move m).scene = (s.move m).scene := by
  have board : t.engine.board = s.engine.board := congrArg Scene.board same
  have owning : t.console.owning = s.console.owning := congrArg Scene.owning same
  cases m with
  | load slot =>
      have loads : t.engine.catalog.played slot = s.engine.catalog.played slot := Option.some.inj reads
      refine scene_collect_congr same ?_ owning
      change (Engine.load slot t.engine).2.board = (Engine.load slot s.engine).2.board
      rw [Engine.board_load, Engine.board_load, board, loads]
  | line text room =>
      refine scene_collect_congr same ?_ ?_
      · change (Desk.process text (t.deskFor room)).2.engine.board =
          (Desk.process text (s.deskFor room)).2.engine.board
        rw [Desk.board_process, Desk.board_process]
        change t.engine.board.lined text t.console.owning (t.reads? (.line text room)) =
          s.engine.board.lined text s.console.owning (s.reads? (.line text room))
        rw [board, owning, reads]
      · change (Desk.process text (t.deskFor room)).2.console.owning =
          (Desk.process text (s.deskFor room)).2.console.owning
        rw [Desk.owning_process, Desk.owning_process]
        change Desk.owningAfter text t.console.owning = Desk.owningAfter text s.console.owning
        rw [owning]
  | play p => exact scene_collect_congr same (congrArg (·.play p) board) owning
  | stop => exact scene_collect_congr same (congrArg Board.stop board) owning
  | resume => exact scene_collect_congr same (congrArg Board.resume board) owning
  | deliver =>
      obtain ⟨catalog, lastProgram, rfl⟩ := exists_of_scene same
      rw [move, move, pump_one, pump_one]
      dsimp only
      split <;> rfl
  | expire behind =>
      obtain ⟨catalog, lastProgram, rfl⟩ := exists_of_scene same
      rfl
  | wait ms =>
      obtain ⟨catalog, lastProgram, rfl⟩ := exists_of_scene same
      rfl

/-- Whatever comes of it, nothing is to be seen of a chore. -/
theorem scene_chore (quiet : s.engine.board.published = []) (c : Chore σ) :
    (s.chore c).scene = s.scene := by
  cases c with
  | shelf op unplayed =>
      refine scene_collect quiet ?_ rfl
      cases op with
      | load slot => exact absurd rfl (unplayed slot)
      | _ => rfl
  | read slot => exact scene_collect quiet rfl rfl
  | line text room stores =>
      obtain ⟨board, owning⟩ := Desk.keeps_process stores (s.deskFor room)
      exact scene_collect quiet board owning
  | alter change => rfl

end Session

/-- What is done with a session: something that concerns playback, or a chore. -/
inductive Work (σ : Type)
  | plays (m : Session.Move)
  | stores (c : Chore σ)

namespace Work

/-- What is left when there are no chores. -/
def playing {σ : Type} : List (Work σ) → List Session.Move
  | [] => []
  | .plays m :: rest => m :: playing rest
  | .stores _ :: rest => playing rest

end Work

namespace Session

variable {σ τ : Type} [ByteStore σ] [ByteStore τ]

def works (t : Session τ) (work : List (Work τ)) : Session τ :=
  work.foldl (fun t w => match w with
    | .plays m => t.move m
    | .stores c => t.chore c) t

/-- Where playback reads from the store, it reads what it would read if there were no chores. -/
def ReadsSame (s : Session σ) (t : Session τ) : List (Work τ) → Prop
  | [] => True
  | .plays m :: rest => t.reads? m = s.reads? m ∧ ReadsSame (s.move m) (t.move m) rest
  | .stores c :: rest => ReadsSame s (t.chore c) rest

instance decidableReadsSame (s : Session σ) (t : Session τ) :
    (work : List (Work τ)) → Decidable (s.ReadsSame t work)
  | [] => .isTrue trivial
  | .plays m :: rest =>
      @instDecidableAnd _ _ (@Option.instDecidableEq _ Program.decEq (t.reads? m) (s.reads? m))
        (decidableReadsSame (s.move m) (t.move m) rest)
  | .stores c :: rest => decidableReadsSame s (t.chore c) rest

variable {s : Session σ} {t : Session τ}

theorem ReadsSame.of_append {done later : List (Work τ)} (reads : s.ReadsSame t (done ++ later)) :
    s.ReadsSame t done := by
  induction done generalizing s t with
  | nil => trivial
  | cons w rest ih =>
      cases w with
      | plays m => exact ⟨reads.1, ih reads.2⟩
      | stores c => exact ih reads

theorem ReadsSame.scene_works {work : List (Work τ)} (reads : s.ReadsSame t work)
    (quiet : s.engine.board.published = []) (same : t.scene = s.scene) :
    (t.works work).scene = (s.moves (Work.playing work)).scene := by
  -- What both do is a step of both sessions; at a chore the first one stands still.
  induction work generalizing s t with
  | nil => exact same
  | cons w rest ih =>
      cases w with
      | plays m => exact ih reads.2 (quiet_move quiet m) (scene_move same m reads.1)
      | stores c =>
          have still : t.engine.board.published = [] :=
            (congrArg (·.board.published) same).trans quiet
          exact ih reads quiet ((scene_chore still c).trans same)

/-- Two sessions look alike, and one of them has storage work to do between what both of them do. None
of it changes what is read when something is loaded. Then they look alike all the time, also in the
times they ask of their timers, and no storage work is ever to be seen. -/
theorem playback_undisturbed (quiet : s.engine.board.published = []) (same : t.scene = s.scene)
    {work : List (Work τ)} (reads : s.ReadsSame t work) (done later : List (Work τ))
    (part : work = done ++ later) :
    (t.works done).scene = (s.moves (Work.playing done)).scene ∧
      (∀ m, (t.works done).asks m = (s.moves (Work.playing done)).asks m) ∧
      ∀ c, ((t.works done).chore c).scene = (t.works done).scene := by
  subst part
  have alike := reads.of_append.scene_works quiet same
  have still : (t.works done).engine.board.published = [] := by
    have board : (t.works done).engine.board = (s.moves (Work.playing done)).engine.board :=
      congrArg Scene.board alike
    rw [board]
    exact quiet_moves quiet _
  exact ⟨alike, asks_congr alike, scene_chore still⟩

set_option maxRecDepth 100000 in
/-- A slot is played. It is written meanwhile, which fails halfway, and then it is deleted. Its program
goes on nevertheless, until another slot is played. -/
theorem playback_undisturbed_deleted :
    let image := Image.erased imageSize
    let s : Session RamStore := .ofStore { image } (.resting false)
    let t : Session (FaultyStore RamStore) :=
      .ofStore { store := { image }, faults := [] } (.resting false)
    let done : List (Work (FaultyStore RamStore)) := [
      .plays (.line "c 2s o 1s *" none), .plays .deliver, .plays (.line "s 3" none),
      .plays (.load 3), .plays .deliver,
      .stores (.alter fun f => { f with faults := [⟨.flush, 0, 1⟩] }),
      .stores (.shelf (.write 3 "o 7s") nofun),
      .stores (.line "d 3" none (by decide +kernel)),
      .stores (.line "list" none (by decide +kernel)),
      .plays (.expire 0), .plays .deliver]
    s.ReadsSame t (done ++ [.plays (.load 5), .plays .deliver]) ∧
      (t.works done).scene = (s.moves (Work.playing done)).scene ∧
      (t.works done).engine.catalog.isOccupied 3 = false ∧
      (s.moves (Work.playing done)).engine.catalog.isOccupied 3 = true ∧
      (s.moves (Work.playing done)).player.playback = .running := by
  intro image s t done
  have reads : s.ReadsSame t (done ++ [.plays (.load 5), .plays .deliver]) := by decide +kernel
  have quiet : s.engine.board.published = [] := rfl
  have same : t.scene = s.scene := scene_ofStore _ _ _
  obtain ⟨alike, -⟩ := playback_undisturbed quiet same reads done _ rfl
  refine ⟨reads, alike, ?_, ?_, ?_⟩
  · decide +kernel
  · decide +kernel
  · decide +kernel

end Session

end RelayTimer
