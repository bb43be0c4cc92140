import RelayTimer.Proofs.RelayOwner
import RelayTimer.Proofs.WatchedContact

set_option autoImplicit false

/-!
How the contact follows the jumper, in every run of the firmware's tasks. Between the two are the
sampler's memory and a cell that keeps the newest wiring only; a program may drive the contact at any
time. Once the contact has been told, it is wired as the jumper was read last, and what a program made
of it stays as it is.
-/
namespace RelayTimer

/-! ## What steers the contact -/

/-- A contact is left alone, or it is driven to be open or closed. -/
inductive Contact.Steered (c : Contact) : Contact → Prop
  | rests : Steered c c
  | driven {intent : Intent} (asks : intent ≠ .leaveAsIs) : Steered c (c.set intent).1

theorem Contact.Steered.wiring {c after : Contact} (steered : c.Steered after) :
    after.wiring = c.wiring := by
  cases steered <;> rfl

theorem Contact.Steered.obeys {c after : Contact} (steered : c.Steered after) (obeys : c.Obeys) :
    after.Obeys := by
  cases steered with
  | rests => exact obeys
  | driven asks => exact c.obeys_set _

/-- A contact that is asked to be open or closed, and that obeys. -/
theorem Contact.Obeys.open? {c : Contact} (obeys : c.Obeys) (held : c.intent ≠ .leaveAsIs) :
    c.intent.open? = some c.isOpen := by
  cases asked : c.intent with
  | leaveAsIs => exact absurd asked held
  | opened => rw [obeys true (by rw [asked]; rfl)]; rfl
  | closed => rw [obeys false (by rw [asked]; rfl)]; rfl

/-- Something is asked of the contact just if its relay has been driven. -/
def Contact.HeldByDriving (c : Contact) : Prop := c.intent ≠ .leaveAsIs ↔ 0 < c.relay.writes

theorem Contact.Steered.heldByDriving {c after : Contact} (steered : c.Steered after)
    (held : c.HeldByDriving) : after.HeldByDriving := by
  cases steered with
  | rests => exact held
  | @driven intent asks =>
      have driven := (c.relay_set intent).1
      rw [Contact.drives, decide_eq_true asks] at driven
      refine ⟨fun _ => ?_, fun _ => asks⟩
      rw [driven]
      exact Nat.succ_pos _

theorem Contact.HeldByDriving.rewire {c : Contact} (held : c.HeldByDriving) (wiring : Wiring) :
    (c.rewire wiring).1.HeldByDriving := by
  have driven := (c.relay_rewire wiring).1
  have same : (c.rewire wiring).1.intent = c.intent := rfl
  unfold HeldByDriving at held ⊢
  rw [same, driven, held]
  cases moves : c.drives (.rewire wiring) with
  | false => rfl
  | true =>
      have asked : 0 < c.relay.writes := held.mp (of_decide_eq_true moves)
      exact ⟨fun _ => Nat.succ_pos _, fun _ => asked⟩

namespace Player

theorem steered_act (b : Board) (kind : StepKind) : b.contact.Steered (act b kind).contact := by
  have opens : Intent.opened ≠ .leaveAsIs := by decide
  have closes : Intent.closed ≠ .leaveAsIs := by decide
  cases kind with
  | opens => exact .driven opens
  | closes => exact .driven closes
  | _ => exact .rests

theorem steered_playNext (p : Player) (b : Board) :
    b.contact.Steered (p.playNext b).board.contact := by
  cases here : p.program.next? with
  | none =>
      rw [playNext_ended here]
      exact .rests
  | some found =>
      obtain ⟨step, program⟩ := found
      by_cases loops : step.kind = .loops
      · rw [playNext_looped here loops]
        exact .rests
      · rw [playNext_stepped here loops]
        exact steered_act b step.kind

/-- All that an event can do to the contact. -/
theorem steered_handle (p : Player) (b : Board) (remainingMs : UInt32) (e : Event) :
    b.contact.Steered (p.handle b remainingMs e).board.contact := by
  have outcome := handle_handled p b remainingMs e
  generalize p.handle b remainingMs e = played at outcome
  cases outcome with
  | advanced advance =>
      have same (own : Player) (board : Board) (advance : Advances p b e own board) :
          board.contact = b.contact := by
        cases advance <;> rfl
      rw [← same _ _ advance]
      exact steered_playNext _ _
  | _ => exact .rests

end Player

namespace Firmware

variable {f mid after start : Firmware}

/-- The contact as the board has it. -/
def contact (f : Firmware) : Contact := f.engine.board.contact

/-! ## Readings -/

/-- Whether the input that a normally open wiring pulls is low. The level of an inverted one is high
then. -/
def noLow (f : Firmware) : Bool := f.jumper.noLevel = f.config.noPin.inverted

def ncLow (f : Firmware) : Bool := f.jumper.ncLevel = f.config.ncPin.inverted

/-- The wiring that is read if exactly one of the inputs is low. -/
def reading? (f : Firmware) : Option Wiring :=
  if f.noLow = f.ncLow then none
  else if f.noLow then some .normallyOpen else some .normallyClosed

theorem sense?_eq (f : Firmware) : f.sense? = f.reading? := by
  unfold sense? reading? noLow ncLow readsActive
  generalize f.jumper.noLevel = no
  generalize f.jumper.ncLevel = nc
  generalize f.config.noPin.inverted = noInverted
  generalize f.config.ncPin.inverted = ncInverted
  revert no nc noInverted ncInverted
  decide

/-- What there is to be seen of a turn: the jumper is read without ambiguity, or the contact is told
how it is wired. -/
inductive Sign
  | read (wiring : Wiring)
  | told (wiring : Wiring)
  deriving Repr, DecidableEq

def sign? (f : Firmware) : Turn → Option Sign
  | .sampler => if f.samplerReady then f.reading?.map .read else none
  | .wiring => f.wiring.map .told
  | _ => none

/-- What there is to be seen of a run, the first sign first. -/
def signs (f : Firmware) : List Turn → List Sign
  | [] => []
  | t :: rest => (f.sign? t).toList ++ signs (f.turn t) rest

def Sign.read? : Sign → Option Wiring
  | read wiring => some wiring
  | told _ => none

/-- The last reading. -/
def lastRead (signs : List Sign) : Option Wiring := (signs.filterMap Sign.read?).getLast?

/-- A wiring was read that was not the one read before, and since then nothing else has been read and
nothing has been told. -/
def Changed (signs : List Sign) (wiring : Wiring) : Prop :=
  ∃ earlier again, signs = earlier ++ .read wiring :: again ∧ lastRead earlier ≠ some wiring ∧
    ∀ sign ∈ again, sign = .read wiring

section signs

variable {signs : List Sign} {w : Wiring}

theorem lastRead_concat_read (signs : List Sign) (w : Wiring) :
    lastRead (signs ++ [.read w]) = some w := by
  unfold lastRead
  rw [List.filterMap_append]
  exact List.getLast?_concat

theorem lastRead_concat_told (signs : List Sign) (w : Wiring) :
    lastRead (signs ++ [.told w]) = lastRead signs := by
  unfold lastRead
  rw [List.filterMap_append]
  exact congrArg List.getLast? (List.append_nil _)

theorem Changed.lastRead (changed : Changed signs w) : lastRead signs = some w := by
  obtain ⟨earlier, again, rfl, -, same⟩ := changed
  rcases List.eq_nil_or_concat again with rfl | ⟨front, last, rfl⟩
  · exact lastRead_concat_read earlier w
  · rw [List.concat_eq_append] at same ⊢
    rw [same last (by simp), ← List.cons_append, ← List.append_assoc]
    exact lastRead_concat_read _ w

theorem Changed.again (changed : Changed signs w) : Changed (signs ++ [.read w]) w := by
  obtain ⟨earlier, again, rfl, fresh, same⟩ := changed
  refine ⟨earlier, again ++ [.read w], by simp, fresh, fun sign member => ?_⟩
  rcases List.mem_append.mp member with before | last
  · exact same sign before
  · exact List.mem_singleton.mp last

theorem changed_of_fresh (fresh : Firmware.lastRead signs ≠ some w) :
    Changed (signs ++ [.read w]) w := ⟨signs, [], rfl, fresh, nofun⟩

/-- Whatever was told had changed. -/
def Justified (signs : List Sign) : Prop :=
  ∀ before w after, signs = before ++ .told w :: after → Changed before w

theorem justified_nil : Justified [] := by
  intro before w after whole
  cases before <;> cases whole

theorem Justified.concat (justified : Justified signs) {sign : Sign}
    (changed : ∀ w, sign = .told w → Changed signs w) : Justified (signs ++ [sign]) := by
  intro before w after whole
  rcases List.eq_nil_or_concat after with rfl | ⟨front, last, rfl⟩
  · obtain ⟨rfl, same⟩ := List.append_singleton_inj.mp whole
    exact changed w same
  · rw [List.concat_eq_append, ← List.cons_append, ← List.append_assoc] at whole
    exact justified before w front (List.append_singleton_inj.mp whole).1

end signs

/-! ## What a turn does -/

/-- The sampler, the cell and the contact stay as they are. -/
structure Aside (f after : Firmware) : Prop where
  sampler : after.sampler = f.sampler
  wiring : after.wiring = f.wiring
  contact : after.contact = f.contact

theorem Aside.refl (f : Firmware) : f.Aside f := ⟨rfl, rfl, rfl⟩

theorem Aside.trans (first : f.Aside mid) (second : mid.Aside after) : f.Aside after :=
  ⟨second.sampler.trans first.sampler, second.wiring.trans first.wiring,
    second.contact.trans first.contact⟩

theorem aside_deliver (f : Firmware) : f.Aside f.deliver := by
  obtain ⟨display, log, same⟩ := f.routed_deliver.others
  rw [same]
  exact ⟨rfl, rfl, rfl⟩

theorem aside_onEngine {α : Type} {step : StateM (Engine FlashStore) α}
    (contact : (step f.engine).2.board.contact = f.contact) : f.Aside (f.onEngine step).2 := by
  have stepped : f.Aside { f with engine := (step f.engine).2 } := ⟨rfl, rfl, contact⟩
  exact stepped.trans (aside_deliver _)

theorem aside_runTimer (f : Firmware) : f.Aside f.runTimer := by
  have ran := f.ran_runTimer
  generalize f.runTimer = after at ran ⊢
  cases ran with
  | takes unexpired =>
      rw [takeCommand_eq]
      exact ⟨rfl, rfl, rfl⟩
  | posts due room =>
      rw [takeCommand_eq]
      exact ⟨rfl, rfl, rfl⟩
  | blocks due full => exact ⟨rfl, rfl, rfl⟩

theorem aside_submitLine (f : Firmware) : f.Aside f.submitLine := by
  obtain ⟨events, commanded⟩ := Desk.commanded_process (String.ofList f.editor.line) f.desk
  rw [submitLine_eq]
  generalize Desk.process (String.ofList f.editor.line) f.desk = done at commanded ⊢
  have left : f.Aside (f.leaveDesk done.2) := ⟨rfl, rfl, commanded.contact⟩
  refine (left.trans (aside_deliver _)).trans ?_
  unfold answer
  cases done.1 <;> exact ⟨rfl, rfl, rfl⟩

theorem aside_receive (f : Firmware) (item : Received) : f.Aside (f.receive item) := by
  cases item with
  | overrun => exact ⟨rfl, rfl, rfl⟩
  | byte b =>
      unfold receive
      dsimp only
      cases f.editor.feed b with
      | mk edit editor =>
          cases edit with
          | submit =>
              have fed : f.Aside { f with editor } := ⟨rfl, rfl, rfl⟩
              exact fed.trans (aside_submitLine _)
          | _ => exact ⟨rfl, rfl, rfl⟩

theorem aside_runHealth (f : Firmware) : f.Aside f.runHealth := by
  have asks (mid : Firmware) (aside : f.Aside mid) :
      f.Aside (mid.onBoard (·.publish .healthCheck)) := by
    have asked : mid.Aside { mid with engine := mid.engine.onBoard (·.publish .healthCheck) } :=
      ⟨rfl, rfl, rfl⟩
    exact aside.trans (asked.trans (aside_deliver _))
  unfold runHealth
  split
  · refine asks _ ?_
    dsimp only
    repeat' split
    all_goals exact ⟨rfl, rfl, rfl⟩
  · exact .refl f

theorem aside_endSplash (f : Firmware) : f.Aside f.endSplash := by
  let looked := (({ f with display := .following } : Firmware).onEngine Engine.manualTimes).2
  obtain ⟨times, stored, selected, same⟩ : ∃ times stored selected, f.endSplash =
      (((looked.report .info times).report .info stored).onEngine Engine.boot).2.report
        .info selected := ⟨_, _, _, rfl⟩
  have follows : f.Aside { f with display := .following } := ⟨rfl, rfl, rfl⟩
  have finds : f.Aside looked := follows.trans (aside_onEngine rfl)
  have reports (mid : Firmware) (text : String) : mid.Aside (mid.report .info text) :=
    ⟨rfl, rfl, rfl⟩
  have boots (mid : Firmware) : mid.Aside (mid.onEngine Engine.boot).2 := by
    refine aside_onEngine ?_
    rw [Engine.board_boot]
    exact (Board.commanded_playIf _ _).contact
  rw [same]
  exact finds.trans <| (reports _ times).trans <| (reports _ stored).trans <|
    (boots _).trans (reports _ selected)

theorem aside_runDisplay (f : Firmware) : f.Aside f.runDisplay := by
  unfold runDisplay
  split
  · split
    · have shown (mid : Firmware) : mid.Aside mid.showEvents := ⟨rfl, rfl, rfl⟩
      exact f.aside_endSplash.trans (shown _)
    · exact .refl f
  · exact ⟨rfl, rfl, rfl⟩

/-- All that a turn can do to the sampler's memory, the cell and the contact. -/
inductive Senses (f : Firmware) (t : Turn) (after : Firmware) : Prop
  | rests (silent : f.sign? t = none) (reported : after.sampler.reported = f.sampler.reported)
      (wiring : after.wiring = f.wiring) (steered : f.contact.Steered after.contact)
  | reads {w : Wiring} (turn : t = .sampler) (sign : f.sign? t = some (.read w))
      (reported : after.sampler.reported = some w)
      (wiring : after.wiring = if f.sampler.reported = some w then f.wiring else some w)
      (contact : after.contact = f.contact)
  | tells {w : Wiring} (sign : f.sign? t = some (.told w)) (told : f.wiring = some w)
      (reported : after.sampler.reported = f.sampler.reported) (wiring : after.wiring = none)
      (contact : after.contact = (f.contact.rewire w).1)

theorem Aside.senses {t : Turn} (aside : f.Aside after) (silent : f.sign? t = none) :
    f.Senses t after := by
  refine .rests silent (congrArg Sampler.reported aside.sampler) aside.wiring ?_
  rw [aside.contact]
  exact .rests

/-- An event that the player acts on may make it drive the contact. -/
theorem senses_handleEvent (f : Firmware) (e : Event) :
    (f.handleEvent e).sampler = f.sampler ∧ (f.handleEvent e).wiring = f.wiring ∧
      f.contact.Steered (f.handleEvent e).contact := by
  have noted : (f.noted e).played e = f.played e := by cases e <;> rfl
  obtain ⟨alive, log, deadline, asked⟩ := f.asked_noted e (f.played e).request
  rw [handleEvent_eq, noted]
  dsimp only
  rw [asked]
  obtain ⟨sampler, wiring, contact⟩ := aside_deliver { f with
    alive, log, deadline
    timerCommand := ((f.played e).request.map f.commandFor).or f.timerCommand
    player := (f.played e).player
    engine := f.engine.onBoard fun _ => (f.played e).board }
  refine ⟨sampler, wiring, ?_⟩
  unfold onBoard
  rw [contact]
  exact f.player.steered_handle f.engine.board f.remainingMs e

theorem senses_player (f : Firmware) : f.Senses .player (f.turn .player) := by
  unfold turn handleEvents
  cases f.playerQueue with
  | nil => exact (Aside.refl f).senses rfl
  | cons e rest =>
      obtain ⟨sampler, wiring, steered⟩ := senses_handleEvent { f with playerQueue := rest } e
      exact .rests rfl (congrArg Sampler.reported sampler) wiring steered

theorem senses_sampler (f : Firmware) : f.Senses .sampler (f.turn .sampler) := by
  unfold turn runSampler
  by_cases ready : f.samplerReady = true
  · have sign : f.sign? .sampler = f.reading?.map .read := if_pos ready
    rw [if_pos ready, sense?_eq]
    cases read : f.reading? with
    | none =>
        rw [read] at sign
        exact .rests sign rfl rfl .rests
    | some w =>
        rw [read] at sign
        dsimp only
        by_cases known : f.sampler.reported = some w
        · rw [if_pos known]
          exact .reads rfl sign known (if_pos known).symm rfl
        · rw [if_neg known]
          exact .reads rfl sign rfl (if_neg known).symm rfl
  · rw [if_neg ready]
    exact (Aside.refl f).senses (if_neg ready)

theorem senses_wiring (f : Firmware) : f.Senses .wiring (f.turn .wiring) := by
  unfold turn runWiring
  cases waits : f.wiring with
  | none => exact (Aside.refl f).senses (congrArg (Option.map Sign.told) waits)
  | some w =>
      obtain ⟨sampler, wiring, contact⟩ := aside_deliver
        { ({ f with wiring := none } : Firmware).report .info ("Relay wired " ++ wiringName w) with
          engine := f.engine.onBoard (·.rewireContact w) }
      exact .tells (congrArg (Option.map Sign.told) waits) waits
        (congrArg Sampler.reported sampler) wiring contact

theorem senses_turn (f : Firmware) (t : Turn) : f.Senses t (f.turn t) := by
  cases t with
  | timer => exact f.aside_runTimer.senses rfl
  | player => exact f.senses_player
  | sampler => exact f.senses_sampler
  | wiring => exact f.senses_wiring
  | console =>
      refine Aside.senses ?_ rfl
      unfold turn
      cases f.received with
      | nil => exact .refl f
      | cons item rest =>
          have taken : f.Aside { f with received := rest } := ⟨rfl, rfl, rfl⟩
          exact taken.trans (aside_receive _ item)
  | health => exact f.aside_runHealth.senses rfl
  | display => exact f.aside_runDisplay.senses rfl
  | _ => exact Aside.senses ⟨rfl, rfl, rfl⟩ rfl

/-! ## Every run -/

/-- What holds of a run up to a moment, given what there was to be seen of it. -/
structure Tracks (f : Firmware) (signs : List Sign) : Prop where
  reported : f.sampler.reported = lastRead signs
  /-- The cell keeps a change that the contact has not been told of. -/
  pending : ∀ w ∈ f.wiring, Changed signs w
  settled : f.wiring = none → f.contact.wiring = (lastRead signs).getD .normallyOpen
  justified : Justified signs
  obeys : f.contact.Obeys
  held : f.contact.HeldByDriving

theorem Tracks.turn {signs : List Sign} (tracks : f.Tracks signs) (t : Turn) :
    (f.turn t).Tracks (signs ++ (f.sign? t).toList) := by
  have senses := f.senses_turn t
  generalize f.turn t = after at senses ⊢
  cases senses with
  | rests silent reported wiring steered =>
      rw [silent, Option.toList_none, List.append_nil]
      refine ⟨reported.trans tracks.reported, wiring ▸ tracks.pending, fun settles => ?_,
        tracks.justified, steered.obeys tracks.obeys, steered.heldByDriving tracks.held⟩
      rw [steered.wiring]
      exact tracks.settled (wiring.symm.trans settles)
  | @reads w turn sign reported wiring contact =>
      rw [sign, Option.toList_some]
      refine ⟨?_, fun v waits => ?_, fun settles => ?_, tracks.justified.concat nofun,
        contact ▸ tracks.obeys, contact ▸ tracks.held⟩
      · rw [reported, lastRead_concat_read]
      · by_cases known : f.sampler.reported = some w
        · -- A wiring that still waits is the one that was read last, and it is read again.
          rw [wiring, if_pos known] at waits
          have changed := tracks.pending v waits
          have newest := changed.lastRead
          rw [← tracks.reported, known] at newest
          cases newest
          exact changed.again
        · rw [wiring, if_neg known] at waits
          cases waits
          exact changed_of_fresh (tracks.reported ▸ known)
      · by_cases known : f.sampler.reported = some w
        · rw [wiring, if_pos known] at settles
          rw [contact, tracks.settled settles, ← tracks.reported, known, lastRead_concat_read]
        · rw [wiring, if_neg known] at settles
          cases settles
  | @tells w sign told reported wiring contact =>
      have changed := tracks.pending w told
      rw [sign, Option.toList_some]
      refine ⟨?_, ?_, fun _ => ?_, tracks.justified.concat ?_, ?_, ?_⟩
      · rw [reported, lastRead_concat_told]
        exact tracks.reported
      · rw [wiring]
        exact nofun
      · rw [contact, lastRead_concat_told, changed.lastRead]
        rfl
      · rintro v ⟨⟩
        exact changed
      · rw [contact]
        exact f.contact.obeys_rewire w
      · rw [contact]
        exact tracks.held.rewire w

theorem Tracks.foldl {signs : List Sign} (tracks : f.Tracks signs) (turns : List Turn) :
    (turns.foldl Firmware.turn f).Tracks (signs ++ f.signs turns) := by
  induction turns generalizing f signs with
  | nil => rwa [Firmware.signs, List.append_nil]
  | cons t rest ih =>
      rw [Firmware.signs, ← List.append_assoc]
      exact ih (tracks.turn t)

theorem Started.tracks (started : f.Started) : f.Tracks [] := by
  obtain ⟨config, chip, jumper, report, done⟩ := started
  unfold setUp at done
  split at done
  · cases done
  · split at done
    · cases done
    · cases done
      exact ⟨rfl, nofun, fun _ => rfl, justified_nil, Contact.obeys_of_leaveAsIs rfl,
        ⟨fun asked => absurd rfl asked, nofun⟩⟩

/-- Until the sampler runs again nothing waits for the contact, and it stays wired as it is. -/
theorem wiring_of_unsampled (settled : f.wiring = none) {later : List Turn}
    (unsampled : .sampler ∉ later) :
    (later.foldl Firmware.turn f).contact.wiring = f.contact.wiring := by
  induction later generalizing f with
  | nil => rfl
  | cons t rest ih =>
      have other := List.ne_of_not_mem_cons unsampled
      have others := List.not_mem_of_not_mem_cons unsampled
      have senses := f.senses_turn t
      rw [List.foldl_cons]
      generalize f.turn t = after at senses ⊢
      cases senses with
      | rests silent reported wiring steered =>
          rw [ih (wiring.trans settled) others, steered.wiring]
      | reads turn => exact absurd turn.symm other
      | tells sign told =>
          rw [settled] at told
          cases told

/-- Once the contact has been told, nothing waits for it, and it is wired as the jumper was read
last. -/
theorem Tracks.told {signs : List Sign} (tracks : f.Tracks signs) :
    (f.turn .wiring).wiring = none ∧
      (f.turn .wiring).contact.wiring = (lastRead signs).getD .normallyOpen := by
  have senses := f.senses_turn .wiring
  generalize f.turn .wiring = after at senses ⊢
  cases senses with
  | rests silent reported wiring steered =>
      have unwired : f.wiring = none := Option.map_eq_none_iff.mp silent
      exact ⟨wiring.trans unwired, steered.wiring.trans (tracks.settled unwired)⟩
  | reads turn => cases turn
  | tells sign told reported wiring contact =>
      rw [contact, (tracks.pending _ told).lastRead]
      exact ⟨wiring, rfl⟩

/-- The contact follows the jumper, in every run of the tasks. From when it is told until the sampler
runs again the contact is wired as the jumper was read last without ambiguity, or normally open if it
never was. It is told only of a reading that was not the one before. Something is asked of it just if
it has been driven; it is as it was asked to be then, and to be told how it is wired drives the relay
anew and leaves the contact open or closed as it was. -/
theorem Started.contact_follows_jumper (started : start.Started) (turns : List Turn) :
    let f := turns.foldl turn start
    let signs := start.signs turns
    (∀ later : List Turn, .sampler ∉ later →
      (later.foldl turn (f.turn .wiring)).contact.wiring = (lastRead signs).getD .normallyOpen) ∧
    Justified signs ∧
    (f.contact.intent ≠ .leaveAsIs ↔ 0 < f.contact.relay.writes) ∧
    (f.contact.intent ≠ .leaveAsIs → f.contact.intent.open? = some f.contact.isOpen ∧
      ∀ w, f.sign? .wiring = some (.told w) →
        (f.turn .wiring).contact.relay.writes = f.contact.relay.writes + 1 ∧
        (f.turn .wiring).contact.intent = f.contact.intent ∧
        (f.turn .wiring).contact.isOpen = f.contact.isOpen) := by
  intro f signs
  have tracks : f.Tracks signs := started.tracks.foldl turns
  refine ⟨fun later unsampled => ?_, tracks.justified, tracks.held, fun held => ⟨?_, ?_⟩⟩
  · obtain ⟨settled, wired⟩ := tracks.told
    rw [wiring_of_unsampled settled unsampled, wired]
  · exact tracks.obeys.open? held
  · intro w told
    have senses := f.senses_turn .wiring
    generalize f.turn .wiring = after at senses ⊢
    cases senses with
    | rests silent =>
        rw [silent] at told
        cases told
    | reads turn => cases turn
    | @tells v sign waits reported wiring contact =>
        have moves : f.contact.drives (.rewire v) = true := decide_eq_true held
        have driven := (f.contact.relay_rewire v).1
        rw [moves] at driven
        rw [contact]
        exact ⟨driven, rfl, Contact.isOpen_rewire tracks.obeys held v⟩

/-- The jumper is moved while a typed program holds the contact closed. -/
theorem contact_follows_jumper_moved : ∃ start : Firmware, start.Started ∧
    let turns := typing "c 9s" ++ [.player, .setJumper { ncLevel := false }, .sampler]
    let f := turns.foldl turn start
    f.contact.intent = .closed ∧ f.sign? .wiring = some (.told .normallyClosed) ∧
    (f.turn .wiring).contact.wiring = .normallyClosed ∧
    (f.turn .wiring).contact.relay.writes = f.contact.relay.writes + 1 ∧
    (f.turn .wiring).contact.isOpen = f.contact.isOpen := by
  let turns := typing "c 9s" ++ [.player, .setJumper { ncLevel := false }, .sampler]
  have runs : ((setUp {} {} {}).map fun start =>
      let f := turns.foldl turn start
      (f.contact.intent, f.sign? .wiring, lastRead (start.signs turns))).toOption =
        some (.closed, some (.told .normallyClosed), some .normallyClosed) := by
    decide +kernel
  cases done : setUp {} {} {} with
  | error e =>
      rw [done] at runs
      cases runs
  | ok start =>
      rw [done] at runs
      obtain ⟨closed, told, read⟩ : _ ∧ _ ∧ _ := by simpa using Option.some.inj runs
      have started : start.Started := ⟨{}, {}, {}, start.log, by rw [done]; rfl⟩
      obtain ⟨wired, -, -, holds⟩ := started.contact_follows_jumper turns
      have held : (turns.foldl turn start).contact.intent ≠ .leaveAsIs := by
        rw [closed]
        decide
      obtain ⟨-, tells⟩ := holds held
      obtain ⟨driven, -, same⟩ := tells _ told
      have follows := wired [] List.not_mem_nil
      rw [read] at follows
      exact ⟨start, started, closed, told, follows, driven, same⟩

end Firmware

end RelayTimer
