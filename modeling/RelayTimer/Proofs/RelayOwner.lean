import RelayTimer.Proofs.TaskTurns

set_option autoImplicit false

/-!
Who plays what while the console owns the relay, in every run of the firmware's tasks. The console
keeps the relay from a typed program until it is told to quit, and no task but the display plays
anything beside it; the display does so once, when its first screen ends.
-/
namespace RelayTimer

namespace Firmware

variable {f start : Firmware}

/-- A board that has been set up and whose tasks have not run. -/
def Started (f : Firmware) : Prop :=
  ∃ config chip jumper report, (setUp config chip jumper).map ({ · with log := report }) = .ok f

/-- What a board does from one moment to another: turn after turn. -/
def Runs (f after : Firmware) : Prop := ∃ turns : List Turn, after = turns.foldl turn f

theorem Runs.refl (f : Firmware) : f.Runs f := ⟨[], rfl⟩

theorem runs_turn (f : Firmware) (t : Turn) : f.Runs (f.turn t) := ⟨[t], rfl⟩

theorem Runs.trans {mid after : Firmware} (first : f.Runs mid) (second : mid.Runs after) :
    f.Runs after := by
  obtain ⟨turns, rfl⟩ := first
  obtain ⟨later, rfl⟩ := second
  exact ⟨turns ++ later, by rw [List.foldl_append]⟩

theorem runs_handleEvents (limit : Nat) (f : Firmware) : f.Runs (f.handleEvents limit) := by
  induction limit generalizing f with
  | zero => exact .refl f
  | succ n ih =>
      have first := f.runs_turn .player
      unfold turn at first
      unfold handleEvents at first ⊢
      cases waits : f.playerQueue with
      | nil => exact .refl f
      | cons e rest =>
          rw [waits] at first
          exact first.trans (ih _)

theorem deliver_received (f : Firmware) (items : List Received) :
    ({ f with received := items } : Firmware).deliver = { f.deliver with received := items } := by
  have routes (events : List Event) (f : Firmware) : events.foldl route { f with received := items } =
      { events.foldl route f with received := items } := by
    induction events generalizing f with
    | nil => rfl
    | cons e rest ih =>
        rw [List.foldl_cons, List.foldl_cons, ← ih]
        congr 1
        unfold route
        dsimp only
        repeat' split
        all_goals rfl
  exact routes f.engine.board.published
    { f with engine := f.engine.onBoard fun b => { b with published := [] } }

theorem submitLine_received (f : Firmware) (items : List Received) :
    ({ f with received := items } : Firmware).submitLine = { f.submitLine with received := items } := by
  let done := Desk.process (String.ofList f.editor.line) f.desk
  let left (f : Firmware) : Firmware := { f with received := items }
  have answers (g : Firmware) : (left g).answer done.1 done.2.output.text =
      left (g.answer done.1 done.2.output.text) := by
    unfold answer
    cases done.1 <;> rfl
  calc (left f).submitLine
    _ = (left (f.leaveDesk done.2)).deliver.answer done.1 done.2.output.text := rfl
    _ = (left (f.leaveDesk done.2).deliver).answer done.1 done.2.output.text :=
      congrArg (answer · _ _) (deliver_received _ items)
    _ = left f.submitLine := answers _

/-- What has arrived and is not looked at is left alone. -/
theorem receive_received (f : Firmware) (items : List Received) (item : Received) :
    ({ f with received := items } : Firmware).receive item =
      { f.receive item with received := items } := by
  cases item with
  | overrun => rfl
  | byte b =>
    unfold receive
    dsimp only
    cases f.editor.feed b with
    | mk edit editor =>
      cases edit with
      | submit =>
        let before : Firmware := { f with editor }
        change ({ before with received := items } : Firmware).submitLine =
          { before.submitLine with received := items }
        exact submitLine_received before items
      | _ => rfl

theorem runs_runConsole (f : Firmware) : f.Runs f.runConsole := by
  unfold runConsole
  generalize waits : f.received = items
  induction items generalizing f with
  | nil =>
      obtain ⟨⟩ := f
      cases waits
      exact .refl _
  | cons item rest ih =>
      have takes : f.turn .console = { f.receive item with received := rest } := by
        rw [← receive_received]
        unfold turn
        rw [waits]
      rw [List.foldl_cons, receive_received]
      have first := f.runs_turn .console
      rw [takes] at first
      exact first.trans (ih _ rfl)

theorem runs_pass (f : Firmware) : f.Runs f.pass :=
  (f.runs_turn .timer).trans <| (runs_handleEvents _ _).trans <|
    (runs_turn _ .sampler).trans <| (runs_turn _ .wiring).trans <| (runs_runConsole _).trans <|
      (runs_turn _ .health).trans (runs_turn _ .display)

theorem runs_settle (limit : Nat) (f : Firmware) : f.Runs (settle limit f) := by
  induction limit generalizing f with
  | zero => exact .refl f
  | succ n ih =>
      unfold settle
      split
      · exact .refl f
      · exact f.runs_pass.trans (ih _)

theorem runs_wait (ms : Nat) (f : Firmware) : f.Runs (wait ms f) := by
  induction ms generalizing f with
  | zero => exact .refl f
  | succ n ih => exact (f.runs_turn .tick).trans ((runs_settle _ _).trans (ih _))

/-- Whatever is done to a board but to reset it, what comes of it comes of turns. -/
theorem runs_apply {text : String} {stimulus : Stimulus} {after : Firmware}
    (unbroken : stimulus ≠ .reset) (done : f.apply text stimulus = .ok after) : f.Runs after := by
  cases stimulus with
  | receive items => cases done; exact (f.runs_turn (.receive items)).trans (runs_settle _ _)
  | wait ms => cases done; exact runs_wait ms f
  | setJumper jumper => cases done; exact (f.runs_turn (.setJumper jumper)).trans (runs_settle _ _)
  | fail fault => cases done; exact (f.runs_turn (.fail fault)).trans (runs_settle _ _)
  | reset => exact absurd rfl unbroken

/-- So does all that a board does when the power comes on. -/
theorem runs_powerUp {text : String} {chip : FlashChip} {jumper : Jumper} {f : Firmware}
    (done : powerUp text chip jumper = .ok f) : ∃ start : Firmware, start.Started ∧ start.Runs f := by
  unfold powerUp at done
  dsimp only at done
  cases set : setUp (loadConfig text).1 chip jumper with
  | error e =>
      rw [set] at done
      cases done
  | ok first =>
      rw [set] at done
      cases done
      exact ⟨_, ⟨_, _, _, _, by rw [set]; rfl⟩, runs_settle _ _⟩

/-- The programs that are played in turns, the first one first. -/
def loads (f : Firmware) : List Turn → List Load
  | [] => []
  | t :: rest => (f.load? t).toList ++ loads (f.turn t) rest

/-- What a turn makes of the active program, of the owner of the relay and of the starts on their
way, whoever's turn it is. -/
structure Turned (f after : Firmware) (load : Option Load) (owning : Bool) : Prop where
  quiet : after.engine.board.published = []
  program : after.engine.board.program =
    (load.map (·.program.rewind)).getD f.engine.board.program
  owner : after.console.owning = owning
  starts : load = none →
    (after.playerQueue.filter Event.isStart).Sublist (f.playerQueue.filter Event.isStart)
  follows : f.display = .following → after.display = .following

theorem Beside.turned {after : Firmware} {load : Option Load} {owning : Bool}
    (beside : f.Beside after (load.map Load.program) owning) : f.Turned after load owning := by
  obtain ⟨joined, queue, unposted⟩ := beside.queue
  refine ⟨beside.quiet, ?_, beside.owner, ?_, beside.follows⟩
  · rw [beside.program, Option.map_map]
    rfl
  · rintro rfl
    have unstarted : joined.filter Event.isStart = [] := by
      rw [List.filter_eq_nil_iff]
      intro e member starts
      exact absurd ((unposted e member).2 starts) (by decide)
    have same : after.playerQueue.filter Event.isStart = f.playerQueue.filter Event.isStart := by
      rw [queue, List.filter_append, unstarted, List.append_nil]
    exact same ▸ .refl _

/-- The timer's turn is none of its business. -/
theorem Ran.turned {after : Firmware} (ran : f.Ran after) (quiet : f.engine.board.published = []) :
    f.Turned after none f.console.owning := by
  cases ran with
  | takes unexpired =>
      rw [takeCommand_eq]
      exact ⟨quiet, rfl, rfl, fun _ => .refl _, id⟩
  | @posts epoch due room =>
      rw [takeCommand_eq]
      refine ⟨quiet, rfl, rfl, fun _ => ?_, id⟩
      rw [List.filter_append]
      simp [Event.isStart]
  | blocks due full => exact ⟨quiet, rfl, rfl, fun _ => .refl _, id⟩

theorem Acted.turned {after : Firmware} {e : Event} {rest : List Event}
    (acted : ({ f with playerQueue := rest } : Firmware).Acted after e)
    (waits : f.playerQueue = e :: rest) (quiet : f.engine.board.published = []) :
    f.Turned after none f.console.owning := by
  let ready : Firmware := { f with playerQueue := rest }
  have program : (ready.played e).board.program = f.engine.board.program :=
    f.player.program_handle _ _ e
  have board := acted.board
  obtain ⟨taken, joined, inside⟩ := acted.joins.joined
  have unstarted : taken.filter Event.isStart = [] := by
    rw [List.filter_eq_nil_iff]
    intro n member
    have posted := inside.mem member
    rcases f.player.posted_handle quiet ready.remainingMs e with silent | loops
    · rw [show (ready.played e).board.published.filter Event.isForPlayer = [] from silent] at posted
      cases posted
    · rw [show (ready.played e).board.published.filter Event.isForPlayer = _ from loops] at posted
      rw [List.mem_singleton.mp posted]
      exact Bool.false_ne_true
  refine ⟨by rw [board], by rw [board]; exact program, by rw [acted.console], fun _ => ?_, ?_⟩
  · rw [joined, List.filter_append, unstarted, List.append_nil, waits]
    exact (List.sublist_cons_self e rest).filter _
  · rw [acted.display]
    exact id

theorem turned_turn (quiet : f.engine.board.published = []) (t : Turn) :
    f.Turned (f.turn t) (f.load? t) (f.ownsAfter t) := by
  cases t with
  | timer => exact (ran_runTimer f).turned quiet
  | player =>
      unfold turn handleEvents
      cases waits : f.playerQueue with
      | nil => exact ⟨quiet, rfl, rfl, fun _ => .refl _, id⟩
      | cons e rest => exact (acted_handleEvent { f with playerQueue := rest } e).turned waits quiet
  | _ => exact (beside_turn quiet (by simp) (by simp)).turned

/-- The console takes the relay only with a program to play on it. -/
theorem owning_of_ownsAfter {t : Turn} (owns : f.ownsAfter t = true) (unloaded : f.load? t = none) :
    f.console.owning = true := by
  cases t with
  | console =>
      unfold ownsAfter at owns
      have silent : f.typed? = none := by simpa [load?] using unloaded
      unfold typed? at silent
      cases completed : f.completed? with
      | none => rwa [completed] at owns
      | some line =>
          rw [completed] at owns silent
          simp only [Option.elim_some, Desk.owningAfter] at owns
          simp only [Option.bind_some, Desk.loads?] at silent
          split at owns
          · rename_i p reads
            rw [reads] at silent
            cases silent
          · cases owns
          · exact owns
  | _ => exact owns

theorem booted?_of_load? {t : Turn} {q : Program} (played : f.load? t = some (.display q)) :
    t = .display ∧ f.booted? = some q := by
  cases t with
  | console =>
      obtain ⟨p, -, other⟩ := Option.map_eq_some_iff.mp played
      cases other
  | display =>
      obtain ⟨p, boots, same⟩ := Option.map_eq_some_iff.mp played
      cases same
      exact ⟨rfl, boots⟩
  | _ => cases played

theorem booted?_following (follows : f.display = .following) : f.booted? = none := by
  rw [booted?, follows]

/-- The newest program is the console's, or the display's that came behind the console's. -/
def Owned (loads : List Load) : Prop :=
  ∃ earlier p, loads = earlier ++ [.console p] ∨ ∃ q, loads = earlier ++ [.console p, .display q]

/-- What holds of a run up to a moment, given the programs played so far. -/
structure Follows (f : Firmware) (loads : List Load) : Prop where
  quiet : f.engine.board.published = []
  program : ∀ load ∈ loads.getLast?, f.engine.board.program = load.program.rewind
  owned : f.console.owning = true → Owned loads
  displayed : ∀ q, .display q ∈ loads → f.display = .following

theorem Follows.turn {loads : List Load} (follows : f.Follows loads) (t : Turn) :
    (f.turn t).Follows (loads ++ (f.load? t).toList) := by
  have turned := turned_turn follows.quiet t
  cases played : f.load? t with
  | none =>
      rw [played] at turned
      rw [Option.toList_none, List.append_nil]
      refine ⟨turned.quiet, fun load last => ?_, fun owns => ?_, fun q displays => ?_⟩
      · rw [turned.program]
        exact follows.program load last
      · rw [turned.owner] at owns
        exact follows.owned (owning_of_ownsAfter owns played)
      · exact turned.follows (follows.displayed q displays)
  | some load =>
      rw [played] at turned
      rw [Option.toList_some]
      refine ⟨turned.quiet, fun last newest => ?_, fun owns => ?_, fun q displays => ?_⟩
      · rw [List.getLast?_concat, Option.mem_some_iff] at newest
        rw [turned.program, ← newest]
        rfl
      · cases load with
        | console p => exact ⟨loads, p, .inl rfl⟩
        | display q =>
          obtain ⟨rfl, boots⟩ := booted?_of_load? played
          rw [turned.owner] at owns
          obtain ⟨earlier, p, rfl | ⟨before, rfl⟩⟩ := follows.owned owns
          · exact ⟨earlier, p, .inr ⟨q, by rw [List.append_assoc]; rfl⟩⟩
          · -- The display has played something before, so its first screen was over.
            have shown := follows.displayed before (by simp)
            rw [booted?_following shown] at boots
            cases boots
      · rcases List.mem_append.mp displays with before | now
        · exact turned.follows (follows.displayed q before)
        · rw [← List.mem_singleton.mp now] at played
          obtain ⟨rfl, boots⟩ := booted?_of_load? played
          exact following_of_booted? boots follows.quiet

theorem Follows.foldl {loads : List Load} (follows : f.Follows loads) (turns : List Turn) :
    (turns.foldl Firmware.turn f).Follows (loads ++ f.loads turns) := by
  induction turns generalizing f loads with
  | nil => rwa [Firmware.loads, List.append_nil]
  | cons t rest ih =>
      rw [Firmware.loads, ← List.append_assoc]
      exact ih (follows.turn t)

theorem Started.follows (started : f.Started) : f.Follows [] := by
  obtain ⟨config, chip, jumper, report, done⟩ := started
  unfold setUp at done
  split at done
  · cases done
  · split at done
    · cases done
    · cases done
      exact ⟨rfl, nofun, nofun, nofun⟩

/-- From a typed program until it is told to quit the console owns the relay, in every run of the
tasks. As long as it does, the active program is the one that the console has played last, unless
the display has ended its first screen since then and played the program of the start instead. No
turn but one that plays a program changes the active program or starts it again. -/
theorem Started.owned_program (started : start.Started) (turns : List Turn) :
    let f := turns.foldl turn start
    (f.console.owning = true → ∃ earlier p,
      start.loads turns = earlier ++ [.console p] ∧ f.engine.board.program = p.rewind ∨
      ∃ q, start.loads turns = earlier ++ [.console p, .display q] ∧
        f.engine.board.program = q.rewind) ∧
    (∀ t, (f.turn t).console.owning = f.ownsAfter t) ∧
    ∀ t, f.load? t = none → (f.turn t).engine.board.program = f.engine.board.program ∧
      ((f.turn t).playerQueue.filter Event.isStart).Sublist
        (f.playerQueue.filter Event.isStart) := by
  intro f
  have follows : f.Follows (start.loads turns) := started.follows.foldl turns
  refine ⟨fun owns => ?_, fun t => (turned_turn follows.quiet t).owner, fun t silent => ?_⟩
  · obtain ⟨earlier, p, newest | ⟨q, newest⟩⟩ := follows.owned owns
    · exact ⟨earlier, p, .inl ⟨newest, follows.program (.console p) (by simp [newest])⟩⟩
    · exact ⟨earlier, p, .inr ⟨q, newest, follows.program (.display q) (by simp [newest])⟩⟩
  · have turned := turned_turn follows.quiet t
    rw [silent] at turned
    exact ⟨turned.program, turned.starts rfl⟩

/-- A line is typed and taken. -/
def typing (line : String) : List Turn :=
  let bytes := (line.toList ++ ['\r']).map fun c => UInt8.ofNat c.toNat
  .receive (bytes.map .byte) :: bytes.map fun _ => .console

/-- A program is typed before the first screen ends. -/
theorem owned_program_typed : ∃ start : Firmware, start.Started ∧
    let turns := typing "c 9s" ++ [.tick, .tick]
    let f := turns.foldl turn start
    f.console.owning = true ∧ ∃ earlier p,
      start.loads turns = earlier ++ [.console p] ∧ f.engine.board.program = p.rewind ∨
      ∃ q, start.loads turns = earlier ++ [.console p, .display q] ∧
        f.engine.board.program = q.rewind := by
  have runs : ((setUp { splashMs := 2 } {} {}).map fun start =>
      ((typing "c 9s" ++ [Turn.tick, .tick]).foldl turn start).console.owning).toOption = some true := by
    decide +kernel
  cases done : setUp { splashMs := 2 } {} {} with
  | error e =>
      rw [done] at runs
      cases runs
  | ok start =>
      rw [done] at runs
      have owns := Option.some.inj runs
      have started : start.Started := ⟨{ splashMs := 2 }, {}, {}, start.log, by rw [done]; rfl⟩
      exact ⟨start, started, owns, (started.owned_program _).1 owns⟩

set_option maxRecDepth 1024 in
/-- The first screen ends while the console owns the relay: what was typed is replaced. -/
theorem displaced_by_display : ((setUp { splashMs := 2 } {} {}).map fun start =>
      let turns := typing "auto 0" ++ typing "c 9s" ++ [.tick, .tick, .display]
      let f := turns.foldl turn start
      let byConsole : Load → Bool
        | .console _ => true
        | .display _ => false
      (f.console.owning, (start.loads turns).map fun l => (byConsole l, l.program.steps),
        f.engine.board.program.steps)).toOption =
    some (true,
      [(true, [⟨.closes, 9000⟩]), (false, [⟨.closes, 60000⟩, ⟨.opens, 5000⟩, ⟨.loops, 0⟩])],
      [⟨.closes, 60000⟩, ⟨.opens, 5000⟩, ⟨.loops, 0⟩]) := by
  decide +kernel

end Firmware

end RelayTimer
