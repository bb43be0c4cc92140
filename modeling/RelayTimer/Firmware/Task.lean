import RelayTimer.Firmware.State

set_option autoImplicit false

/-!
The seven tasks. Each runs until it has nothing left to do, while the others stand still, and says
whether it has something to do.
-/
namespace RelayTimer.Firmware

/-! ## The timer -/

def timerAfter : TimerCommand → TimerTask
  | .start deadline epoch => .armed deadline epoch
  | .stop => .idle

def timerReady (f : Firmware) : Bool :=
  match f.timer with
  | .idle => f.timerCommand.isSome
  | .armed deadline _ => f.timerCommand.isSome || deadline ≤ f.now
  | .posting _ => f.playerQueue.length < playerQueueSize

def takeCommand (f : Firmware) : Firmware :=
  match f.timerCommand with
  | some command => { f with timer := timerAfter command, timerCommand := none }
  | none => f

/-- Posts the end of a time once there is room for it, before any command is looked at. -/
def postElapsed (f : Firmware) (epoch : UInt32) : Firmware :=
  if f.playerQueue.length < playerQueueSize then
    takeCommand { f with playerQueue := f.playerQueue ++ [.elapsed epoch], timer := .idle }
  else { f with timer := .posting epoch }

/-- A time that is over is posted even if a command is there that would end it. A time that is over
when it is asked for is posted the next time. -/
def runTimer (f : Firmware) : Firmware :=
  match f.timer with
  | .idle => f.takeCommand
  | .armed deadline epoch => if deadline ≤ f.now then f.postElapsed epoch else f.takeCommand
  | .posting epoch => f.postElapsed epoch

/-! ## The player -/

def remainingMs (f : Firmware) : UInt32 :=
  match f.deadline with
  | some deadline => UInt32.ofNat (min (deadline - f.now) (UInt32.size - 1))
  | none => 0

def requestTimer (f : Firmware) : TimerRequest → Firmware
  | .start durationMs epoch =>
    let deadline := f.now + durationMs.toNat
    { f with deadline := some deadline, timerCommand := some (.start deadline epoch) }
  | .stop => { f with deadline := none, timerCommand := some .stop }

def handleEvent (f : Firmware) (e : Event) : Firmware :=
  let f := match e with
    | .elapsed _ => f
    | .healthCheck => { f with alive := true }
    | e => f.report .debug ("Sequencer: " ++ Log.event e)
  let played := f.player.handle f.engine.board f.remainingMs e
  let f := match played.request with
    | some request => f.requestTimer request
    | none => f
  { f with player := played.player }.onBoard fun _ => played.board

def handleEvents (limit : Nat) (f : Firmware) : Firmware :=
  match limit, f.playerQueue with
  | n + 1, e :: rest => handleEvents n ({ f with playerQueue := rest }.handleEvent e)
  | _, _ => f

/-- Handles all queued events. An event brings about at most one more, which brings about none. -/
def runPlayer (f : Firmware) : Firmware := f.handleEvents (2 * f.playerQueue.length)

/-! ## The wiring -/

/-- The wiring that the jumper shows, unless it shows none or both. -/
def sense? (f : Firmware) : Option Wiring :=
  let noLow := !readsActive f.jumper.noLevel f.config.noPin.inverted
  let ncLow := !readsActive f.jumper.ncLevel f.config.ncPin.inverted
  match noLow, ncLow with
  | true, false => some .normallyOpen
  | false, true => some .normallyClosed
  | _, _ => none

def samplerReady (f : Firmware) : Bool := f.sampler.nextMs ≤ f.now

/-- Looks at the jumper and reports a wiring that is not the one reported last. -/
def runSampler (f : Firmware) : Firmware :=
  if f.samplerReady then
    let sampler := { f.sampler with nextMs := f.sampler.nextMs + f.sampler.periodMs }
    match f.sense? with
    | some wiring =>
      if sampler.reported = some wiring then { f with sampler }
      else { f with sampler := { sampler with reported := some wiring }, wiring := some wiring }
    | none => { f with sampler }
  else f

def wiringName : Wiring → String
  | .normallyOpen => "NO"
  | .normallyClosed => "NC"

def runWiring (f : Firmware) : Firmware :=
  match f.wiring with
  | some wiring =>
    ({ f with wiring := none }.report .info ("Relay wired " ++ wiringName wiring)).onBoard
      (·.rewireContact wiring)
  | none => f

/-! ## The console -/

def replySize : Nat := 1024

def submitLine (f : Firmware) : Firmware :=
  let line := String.ofList f.editor.line
  let f := (f.send "\r\n").report .debug ("Console: " ++ line)
  let desk : Desk FlashStore :=
    { console := f.console, engine := f.engine, output := { room := some replySize } }
  let (result, desk) := (Desk.process line).run desk
  let f := { f with console := desk.console, engine := desk.engine }.deliver
  let f := match result with
    | .ok () => f
    | .error _ => f.report .warn "Console reply truncated"
  { f with editor := f.editor.clear }.send (desk.output.text ++ Console.prompt)

def receive (f : Firmware) : Received → Firmware
  | .overrun => f.report .warn "UART read error: Overrun"
  | .byte b =>
    let (edit, editor) := f.editor.feed b
    let f := { f with editor }
    match edit with
    | .echo text => f.send text
    | .submit => f.submitLine
    | .ignore => f

def runConsole (f : Firmware) : Firmware :=
  f.received.foldl receive { f with received := [] }

/-! ## Signs of life -/

def healthReady (f : Firmware) : Bool := f.health.nextMs ≤ f.now

/-- Asks for a sign of life, and warns if there was none since the last time. -/
def runHealth (f : Firmware) : Firmware :=
  if f.healthReady then
    let health := f.health
    let f :=
      if health.asked then
        let missed := !f.alive
        let f := { f with alive := false }
        if missed then f.report .warn "Sequencer missed a health check" else f
      else f
    { f with
      health := { health with nextMs := health.nextMs + health.periodMs, asked := true } }.onBoard
        (·.publish .healthCheck)
  else f

/-! ## The display -/

def eventReport (b : Board) : Event → Option LogLine
  | .contactChanged =>
    some ⟨.debug, "Contact " ++ if b.contact.isOpen then "open" else "closed"⟩
  | .wiringChanged => some ⟨.info, "Contact wiring " ++ wiringName b.contact.wiring⟩
  | .counterChanged =>
    some ⟨.debug, "Loop counter " ++ Log.number? (b.counter.map UInt32.toNat)⟩
  | .ended => some ⟨.info, "Program finished, state " ++ Log.runState b.state⟩
  | .consoleTook => some ⟨.info, "Console took control of the relay"⟩
  | .consoleLeft => some ⟨.info, "Console released the relay"⟩
  | _ => none

def displayReady (f : Firmware) : Bool :=
  match f.display with
  | .splash untilMs => untilMs ≤ f.now
  | .following => !f.displayQueue.isEmpty

def showEvents (f : Firmware) : Firmware :=
  { f with
    displayQueue := []
    log := (f.displayQueue.filterMap (eventReport f.engine.board)).reverse ++ f.log }

/-- Ends the first screen: reports what is stored, and plays what is to play at the start. -/
def endSplash (f : Firmware) : Firmware :=
  let (manual, f) := { f with display := .following }.onEngine Engine.manualTimes
  let f := f.report .info ("Manual program: on " ++ manual.onMinutes.repr ++ "m" ++
    manual.onSeconds.repr ++ "s, off " ++ manual.offMinutes.repr ++ "m" ++
    manual.offSeconds.repr ++ "s")
  let catalog := f.engine.catalog
  let f := f.report .info ("Stored programs: " ++ catalog.occupied.slots.length.repr ++
    ", autostart " ++ Log.number? catalog.autostart ++
    ", last used " ++ Log.number? catalog.lastUsed)
  let f := (f.onEngine Engine.boot).2
  f.report .info ("Selected program " ++ Log.number? f.engine.catalog.selected)

def runDisplay (f : Firmware) : Firmware :=
  match f.display with
  | .splash untilMs => if untilMs ≤ f.now then f.endSplash.showEvents else f
  | .following => f.showEvents

/-! ## All of them -/

/-- Runs each task once, in the order in which they were set up. -/
def pass (f : Firmware) : Firmware :=
  f.runTimer.runPlayer.runSampler.runWiring.runConsole.runHealth.runDisplay

def isIdle (f : Firmware) : Bool :=
  !(f.timerReady || !f.playerQueue.isEmpty || f.samplerReady || f.wiring.isSome ||
    !f.received.isEmpty || f.healthReady || f.displayReady)

/-- Runs the tasks until none has anything to do, in at most `limit` passes. -/
def settle (limit : Nat) (f : Firmware) : Firmware :=
  match limit with
  | 0 => f
  | n + 1 => if f.isIdle then f else settle n f.pass

/-- More passes than ever follow each other at one moment. -/
def passLimit : Nat := 1000

end RelayTimer.Firmware
