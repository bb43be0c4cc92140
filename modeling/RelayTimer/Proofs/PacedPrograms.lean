import RelayTimer.Proofs.Orders
import RelayTimer.Proofs.ReadingPrograms

set_option autoImplicit false

/-!
Whatever is in the store and whatever is typed, a program that comes to be played is one that a line
says or the fail-safe one: its first step does something, and every step but the last takes its time.
-/
namespace RelayTimer

namespace Program

/-- A program that some line says, or the fail-safe one. -/
def Authored (p : Program) : Prop :=
  (∃ line, Request.ofLine line = .ok (.program p)) ∨ p = failSafe

/-- There is a first step and it does not loop, and every step but the last takes some time. -/
structure Paced (p : Program) : Prop where
  playable : p.Playable
  delayed : ∀ i step, p.steps[i]? = some step → i + 1 < p.steps.length → 0 < step.delayMs

variable {p : Program}

theorem Canonical.paced (canonical : p.Canonical) : p.Paced :=
  ⟨canonical.playable, canonical.delayed⟩

theorem canonical_failSafe : failSafe.Canonical := by decide

theorem Authored.canonical (authored : p.Authored) : p.Canonical := by
  rcases authored with ⟨line, reads⟩ | rfl
  · exact Request.canonical_of_ofChars reads
  · exact canonical_failSafe

/-- A program is read at its first step. -/
theorem Authored.rewind (authored : p.Authored) : p.rewind = p := by
  have start : p.cursor = 0 := by
    rcases authored with ⟨line, reads⟩ | rfl
    · obtain ⟨items, -, -, -, start⟩ := (Request.program_iff_spelled line.toList p).mp reads
      exact start
    · rfl
  unfold Program.rewind
  rw [← start]

end Program

namespace Board

/-- The program that the board has to play is one that somebody has written. -/
structure Plays (b : Board) : Prop where
  authored : b.program.Authored
  paced : b.program.Paced

theorem plays_of_authored {b : Board} {p : Program} (authored : p.Authored)
    (program : b.program = p.rewind) : b.Plays := by
  rw [authored.rewind] at program
  exact ⟨program ▸ authored, program ▸ authored.canonical.paced⟩

theorem Commanded.plays {b after : Board} {loaded : Option Program} {events : List Event}
    (commanded : b.Commanded loaded events after) (authored : ∀ p ∈ loaded, p.Authored) :
    after.program = b.program ∨ after.Plays := by
  have program := commanded.program
  cases loaded with
  | none => exact .inl program
  | some p => exact .inr (plays_of_authored (authored p rfl) program)

end Board

namespace Catalog

variable {σ : Type} [ByteStore σ]

theorem authored_played (c : Catalog σ) (slot : Nat) : (c.played slot).Authored := by
  unfold played
  cases there : (program? slot c).1 with
  | none => exact .inr rfl
  | some p =>
      rw [program?_fst] at there
      split at there
      · rename_i q text
        cases there
        obtain ⟨line, -, reads⟩ := Option.map_eq_some_iff.mp text
        exact .inl ⟨line, reads⟩
      · cases there

end Catalog

namespace Engine

variable {σ : Type} [ByteStore σ]

theorem load_plays (e : Engine σ) (slot : Nat) : (load slot e).2.board.Plays :=
  Board.plays_of_authored (e.catalog.authored_played slot) rfl

/-- Times are stored and played, or it is told that they could not be and nothing is played. -/
theorem storeManual_plays (e : Engine σ) (times : ManualTimes) :
    ((storeManual times e).1 = .ok () ∧ (storeManual times e).2.board.Plays) ∨
      ∃ error, (storeManual times e).1 = .error error ∧ (storeManual times e).2.board = e.board := by
  cases done : storeManual times e with
  | mk answer after =>
    rcases StoreCall.bind_cases done with ⟨error, failed, rfl⟩ | ⟨_, mid, written, loads⟩
    · exact .inr ⟨error, rfl, congrArg (·.2.board) failed.symm⟩
    · obtain ⟨_, rfl, loaded⟩ := StoreCall.always_cases loads
      refine .inl ⟨rfl, ?_⟩
      have plays := mid.load_plays manualSlot
      rw [loaded] at plays
      exact plays

theorem boot_plays (e : Engine σ) : (boot e).2.board = e.board ∨ (boot e).2.board.Plays := by
  rw [board_boot]
  unfold booted?
  cases e.catalog.autostart with
  | none => exact .inl rfl
  | some slot => exact .inr (Board.plays_of_authored (Catalog.authored_played _ slot) rfl)

end Engine

namespace Desk

variable {σ : Type} [ByteStore σ]

theorem authored_of_loads? {line : String} {d : Desk σ} {p : Program}
    (loads : loads? line d = some p) : p.Authored := by
  unfold loads? at loads
  split at loads
  · rename_i reads
    cases loads
    exact .inl ⟨line, reads⟩
  · split at loads
    · cases loads
      exact Catalog.authored_played _ _
    · cases loads
  · cases loads

/-- A program that is typed is played, and any other line plays one that is stored or none. -/
theorem process_plays (d : Desk σ) (line : String) :
    (∀ p, Request.ofLine line = .ok (.program p) →
      (process line d).2.engine.board.program = p ∧ (process line d).2.engine.board.Plays) ∧
    ((process line d).2.engine.board.program = d.engine.board.program ∨
      (process line d).2.engine.board.Plays) := by
  obtain ⟨events, commanded⟩ := commanded_process line d
  refine ⟨fun p reads => ?_, commanded.plays fun p => authored_of_loads?⟩
  have loads : loads? line d = some p := by
    unfold loads?
    rw [reads]
  have authored : p.Authored := .inl ⟨line, reads⟩
  have program := commanded.program
  rw [loads] at program
  exact ⟨program.trans authored.rewind, Board.plays_of_authored authored program⟩

end Desk

end RelayTimer
