import Mathlib.Logic.Relation
import RelayTimer.Proofs.ConsoleLine
import RelayTimer.Proofs.Errands

set_option autoImplicit false

/-!
Whatever an engine or a console does with the stored programs comes down to a few calls on a
catalog, one after another. Texts are written and erased in the slots that are named, and nowhere
else.
-/
namespace RelayTimer

open scoped Function

/-- Wherever a step begins, it leads to a state so related to that. -/
def Leads {S α : Type} (R : S → S → Prop) (step : S → α × S) : Prop := ∀ s, R s (step s).2

namespace Leads

variable {S ε α β : Type} {R : S → S → Prop}

theorem pure [Std.Refl R] (a : α) : Leads R (Pure.pure a : StateM S α) := fun s => refl_of R s

theorem get_bind {next : S → StateM S α} (later : ∀ s, Leads R (next s)) :
    Leads R (get >>= next) := fun s => later s s

theorem modify {change : S → S} (changes : ∀ s, R s (change s)) :
    Leads R (modify change : StateM S Unit) := changes

theorem bind [IsTrans S R] {step : StateM S α} {next : α → StateM S β} (first : Leads R step)
    (later : ∀ a, Leads R (next a)) : Leads R (step >>= next) :=
  fun s => trans_of R (first s) (later (step s).1 (step s).2)

/-- What comes after a call that failed is left out. -/
theorem except_bind [IsTrans S R] {call : ExceptT ε (StateM S) α}
    {next : α → ExceptT ε (StateM S) β} (first : Leads R call) (later : ∀ a, Leads R (next a)) :
    Leads R (call >>= next) := by
  intro s
  have reached := first s
  change R s (match call s with | (a, after) => (ExceptT.bindCont next a) after).2
  cases done : call s with
  | mk answer after =>
    rw [done] at reached
    cases answer with
    | ok a => exact trans_of R reached (later a after)
    | error e => exact reached

theorem ite {p : Prop} [Decidable p] {yes no : S → α × S} (first : Leads R yes)
    (second : Leads R no) : Leads R (if p then yes else no) := by
  split
  · exact first
  · exact second

end Leads

namespace Catalog

variable {σ : Type} [ByteStore σ] {free : Nat → Prop} {c after : Catalog σ}

/-- A call on a catalog that writes and erases texts in free slots only. -/
inductive Call (free : Nat → Prop) (c : Catalog σ) : Catalog σ → Prop
  | read (slot : Nat) : Call free c (readRecord slot c).2
  | scan : Call free c (scan c).2
  | select (slot : Option Nat) : Call free c (c.select slot)
  | reassign (d : Designation) (slot : Option Nat) : Call free c (reassign d slot c).2
  | write {slot : Nat} (isFree : free slot) (text : String) : Call free c (write slot text c).2
  | erase {slot : Nat} (isFree : free slot) : Call free c (erase slot c).2

/-- Calls on a catalog, one after another. -/
abbrev Calls (free : Nat → Prop) : Catalog σ → Catalog σ → Prop := Relation.ReflTransGen (Call free)

/-- What every call leaves, all of them leave. -/
theorem Calls.keep {P : Catalog σ → Prop}
    (kept : ∀ {c after : Catalog σ}, Call free c after → P c → P after)
    (calls : Calls free c after) (holds : P c) : P after := by
  induction calls with
  | refl => exact holds
  | tail _ last ih => exact kept last ih

theorem leads_readRecord (slot : Nat) : Leads (Calls (σ := σ) free) (readRecord slot) :=
  fun _ => .single (.read slot)

theorem leads_programText (slot : Nat) : Leads (Calls (σ := σ) free) (programText slot) := by
  refine Leads.get_bind fun c => ?_
  split
  · exact (leads_readRecord slot).bind fun _ => .pure _
  · exact .pure _

/-- The program of a slot, if the text that is read there is one. -/
theorem program?_fst (c : Catalog σ) (slot : Nat) : (program? slot c).1 =
    match (programText slot c).1.map Request.ofLine with
    | some (.ok (.program p)) => some p
    | _ => none := by
  change ((match (programText slot c).1.map Request.ofLine with
    | some (.ok (.program p)) => pure (some p)
    | _ => pure none : StateM (Catalog σ) (Option Program)) (programText slot c).2).1 = _
  generalize (programText slot c).1.map Request.ofLine = answer
  rcases answer with _ | _ | request
  · rfl
  · rfl
  · cases request <;> rfl

theorem leads_program? (slot : Nat) : Leads (Calls (σ := σ) free) (program? slot) := by
  refine (leads_programText slot).bind fun text => ?_
  split <;> exact .pure _

end Catalog

namespace Engine

open Catalog (Calls)

variable {σ : Type} [ByteStore σ] {free : Nat → Prop} {α : Type}

theorem leads_onCatalog {call : Catalog σ → α × Catalog σ} (leads : Leads (Calls free) call) :
    Leads (Calls free on Engine.catalog) (onCatalog call) := fun e => leads e.catalog

theorem leads_load (slot : Nat) : Leads (Calls (σ := σ) free on Engine.catalog) (load slot) := by
  refine (leads_onCatalog (Catalog.leads_program? slot)).bind fun _ => ?_
  exact .modify fun _ => .refl

theorem leads_boot : Leads (Calls (σ := σ) free on Engine.catalog) boot := by
  refine (Leads.modify fun e => .single (.select _)).bind fun _ => ?_
  refine Leads.get_bind fun e => ?_
  split
  · exact (Leads.modify fun e => .single (.select _)).bind fun _ => leads_load _
  · exact .pure _

theorem leads_storeManual (isFree : free manualSlot) (times : ManualTimes) :
    Leads (Calls (σ := σ) free on Engine.catalog) (storeManual times) :=
  Leads.except_bind (leads_onCatalog fun _ => .single (.write isFree _)) fun _ =>
    leads_load manualSlot

end Engine

/-- The line does not ask to save to a slot that is not free, nor to delete one. -/
def Request.Within (free : Nat → Prop) (line : String) : Prop :=
  ∀ slot, ofLine line = .ok (.onSlot .save slot) ∨ ofLine line = .ok (.onSlot .delete slot) →
    free slot

/-- What is done writes and erases texts in free slots only. -/
def Errand.Within (free : Nat → Prop) : Errand → Prop
  | .shelf (.write slot _) | .shelf (.erase slot) => free slot
  | .storeManual _ => free manualSlot
  | .shelf (.scan) | .shelf (.designate ..) | .shelf (.select _) | .shelf (.load _) => True

theorem Errand.within_anywhere (errand : Errand) : errand.Within fun _ => True := by
  rcases errand with op | times
  · cases op <;> trivial
  · trivial

open Catalog (Calls)

theorem Errand.leads_perform {σ : Type} [ByteStore σ] {free : Nat → Prop} {errand : Errand}
    (within : errand.Within free) :
    Leads (Calls (σ := σ) free on Engine.catalog) errand.perform := by
  cases errand with
  | storeManual times => exact Engine.leads_storeManual within times
  | shelf op =>
      cases op with
      | scan => exact (Engine.leads_onCatalog fun _ => .single .scan).bind fun _ => .pure _
      | write slot text => exact Engine.leads_onCatalog fun _ => .single (.write within text)
      | erase slot => exact Engine.leads_onCatalog fun _ => .single (.erase within)
      | designate d slot => exact Engine.leads_onCatalog fun _ => .single (.reassign d slot)
      | select slot => exact (Leads.modify fun _ => .single (.select slot)).bind fun _ => .pure _
      | load slot => exact (Engine.leads_load slot).bind fun _ => .pure _

namespace Engine

/-- What an engine can be asked for. -/
inductive Use
  | errand (errand : Errand)
  | boot
  | readText (slot : Nat)
  | readTimes
  | onBoard (change : Board → Board)

namespace Use

/-- Texts are written and erased in free slots only. -/
def Within (free : Nat → Prop) : Use → Prop
  | errand e => e.Within free
  | boot | readText _ | readTimes | onBoard _ => True

theorem within_anywhere (u : Use) : u.Within fun _ => True := by
  cases u with
  | errand errand => exact errand.within_anywhere
  | _ => trivial

end Use

variable {σ : Type} [ByteStore σ] {free : Nat → Prop}

def use (e : Engine σ) : Use → Engine σ
  | .errand errand => (errand.perform e).2
  | .boot => (boot e).2
  | .readText slot => (onCatalog (Catalog.programText slot) e).2
  | .readTimes => (manualTimes e).2
  | .onBoard change => e.onBoard change

theorem calls_use (e : Engine σ) {u : Use} (within : u.Within free) :
    Calls free e.catalog (e.use u).catalog := by
  cases u with
  | errand errand => exact Errand.leads_perform within e
  | boot => exact leads_boot e
  | readText slot => exact leads_onCatalog (Catalog.leads_programText slot) e
  | readTimes =>
      exact ((leads_onCatalog (Catalog.leads_program? manualSlot)).bind fun _ => .pure _ :
        Leads (Calls (σ := σ) free on Engine.catalog) manualTimes) e
  | onBoard change => exact .refl

theorem calls_foldl_use (e : Engine σ) {uses : List Use} (within : ∀ u ∈ uses, u.Within free) :
    Calls free e.catalog (uses.foldl use e).catalog := by
  induction uses generalizing e with
  | nil => exact .refl
  | cons u rest ih =>
      exact (e.calls_use (within u List.mem_cons_self)).trans
        (ih (e.use u) fun other member => within other (List.mem_cons_of_mem _ member))

end Engine

namespace Desk

variable {σ α : Type}

theorem keepLine_engine (line : String) (d : Desk σ) : (keepLine line d).2.engine = d.engine := by
  unfold keepLine
  split <;> rfl

theorem playTyped_engine (p : Program) (line : String) (d : Desk σ) :
    (playTyped p line d).2.engine = d.engine.onBoard fun b =>
      (if d.console.owning then b else b.publish .consoleTook).play p := by
  rw [playTyped_apply, keepLine_engine]

variable [ByteStore σ] {free : Nat → Prop}

/-- A line is processed: calls are made on the catalog, and the program typed last stays. -/
structure Does (free : Nat → Prop) (d after : Desk σ) : Prop where
  calls : Calls free d.engine.catalog after.engine.catalog
  lastProgram : after.console.lastProgram = d.console.lastProgram

instance : Std.Refl (Does (σ := σ) free) := ⟨fun _ => ⟨.refl, rfl⟩⟩

instance : IsTrans (Desk σ) (Does free) :=
  ⟨fun _ _ _ first second => ⟨first.calls.trans second.calls,
    second.lastProgram.trans first.lastProgram⟩⟩

theorem leads_say (pieces : List String) : Leads (Does (σ := σ) free) (say pieces) :=
  fun _ => ⟨.refl, rfl⟩

theorem leads_onEngine {step : StateM (Engine σ) α}
    (leads : Leads (Calls free on Engine.catalog) step) : Leads (Does free) (onEngine step) :=
  fun d => ⟨leads d.engine, rfl⟩

theorem leads_onCatalog {call : StateM (Catalog σ) α} (leads : Leads (Calls free) call) :
    Leads (Does free) (onEngine (Engine.onCatalog call)) :=
  leads_onEngine (Engine.leads_onCatalog leads)

theorem leads_onStorage {call : StoreCall (Catalog σ) Unit} (leads : Leads (Calls free) call) :
    Leads (Does free) (onStorage call) := by
  refine Leads.except_bind (leads_onEngine (Engine.leads_onCatalog leads)) fun answer => ?_
  cases answer with
  | ok => exact fun d => refl_of _ d
  | error e => exact leads_say _

theorem leads_listSlots (autostart lastUsed : Option Nat) (slots : List Nat) :
    Leads (Does (σ := σ) free) (listSlots autostart lastUsed slots) := by
  induction slots with
  | nil => exact fun d => refl_of _ d
  | cons slot rest ih =>
      exact Leads.except_bind (leads_onCatalog (Catalog.leads_programText slot)) fun _ =>
        Leads.except_bind (leads_say _) fun _ => ih

theorem leads_listPrograms : Leads (Does (σ := σ) free) listPrograms :=
  Leads.except_bind (leads_onCatalog fun _ => .single .scan) fun _ d => leads_listSlots _ _ _ d

theorem leads_quit : Leads (Does (σ := σ) free) quit := by
  rintro ⟨⟨lastProgram, owning⟩, engine, output⟩
  cases owning <;> exact ⟨.refl, rfl⟩

theorem leads_save {slot : Nat} (isFree : free slot) : Leads (Does (σ := σ) free) (save slot) :=
  fun d => Leads.ite (leads_say _) (.ite (leads_say _) (.ite (leads_say _)
    (leads_onStorage fun _ => .single (.write isFree _)))) d

theorem leads_delete {slot : Nat} (isFree : free slot) : Leads (Does (σ := σ) free) (delete slot) :=
  .ite (leads_say _) (leads_onStorage fun _ => .single (.erase isFree))

theorem leads_whenOccupied {slot : Nat} {act : Reply σ Unit} (leads : Leads (Does free) act) :
    Leads (Does free) (whenOccupied slot act) :=
  fun d => Leads.ite leads (leads_say _) d

theorem leads_run (slot : Nat) : Leads (Does (σ := σ) free) (run slot) :=
  leads_whenOccupied (Leads.except_bind (leads_onEngine (Engine.leads_load slot)) fun _ =>
    Leads.except_bind (leads_onEngine (Leads.modify fun _ => .single (.select _))) fun _ =>
      leads_onStorage fun _ => .single (.reassign _ _))

theorem leads_autostart (slot : Nat) : Leads (Does (σ := σ) free) (autostart slot) :=
  leads_whenOccupied (leads_onStorage fun _ => .single (.reassign _ _))

/-- A line that is no program. -/
theorem leads_process {line : String} (within : Request.Within free line)
    (command : ∀ p, Request.ofLine line ≠ .ok (.program p)) :
    Leads (Does (σ := σ) free) (process line) := by
  unfold process
  cases reads : Request.ofLine line with
  | error e => exact leads_say _
  | ok request =>
    cases request with
    | nothing => exact fun d => refl_of _ d
    | program p => exact absurd reads (command p)
    | help => exact leads_say _
    | list => exact leads_listPrograms
    | quit => exact leads_quit
    | onSlot verb slot =>
      cases verb with
      | save => exact leads_save (within slot (.inl reads))
      | delete => exact leads_delete (within slot (.inr reads))
      | run => exact leads_run slot
      | autostart => exact leads_autostart slot

/-- Any line. -/
theorem calls_process {line : String} (within : Request.Within free line) (d : Desk σ) :
    Calls free d.engine.catalog (process line d).2.engine.catalog := by
  by_cases typed : ∃ p, Request.ofLine line = .ok (.program p)
  · obtain ⟨p, reads⟩ := typed
    have engine := playTyped_engine p line d
    unfold process
    rw [reads]
    dsimp only
    rw [engine]
    exact .refl
  · exact (leads_process within (not_exists.mp typed) d).calls

end Desk

namespace Session

/-- What a session can be told to do. -/
inductive Order
  | line (text : String) (room : Option Nat)
  | play (p : Program)
  | stop
  | resume
  | boot
  | errand (e : Errand)

namespace Order

/-- Texts are written and erased in free slots only. -/
def Within (free : Nat → Prop) : Order → Prop
  | line text _ => Request.Within free text
  | errand e => e.Within free
  | play _ | stop | resume | boot => True

end Order

variable {σ : Type} [ByteStore σ] {free : Nat → Prop}

def order (s : Session σ) : Order → Session σ
  | .line text room => (s.processLine text room).2
  | .play p => s.onBoard (·.play p)
  | .stop => s.onBoard Board.stop
  | .resume => s.onBoard Board.resume
  | .boot => (s.onEngine Engine.boot).2
  | .errand e => (s.onEngine e.perform).2

/-- The desk at which a session processes a line. -/
def deskFor (s : Session σ) (room : Option Nat) : Desk σ :=
  { console := s.console, engine := s.engine, output := { room } }

theorem processLine_apply {s : Session σ} {line : String} {room : Option Nat}
    {after : Desk σ} (done : Desk.process line (s.deskFor room) = (.ok (), after)) :
    s.processLine line room = (.ok after.output.text,
      { s with console := after.console, engine := after.engine }.collect) := by
  have run : (Desk.process line).run (s.deskFor room) = (.ok (), after) := done
  unfold deskFor at run
  simp only [processLine, run, Except.map]

theorem calls_order (s : Session σ) {o : Order} (within : o.Within free) :
    Calls free s.engine.catalog (s.order o).engine.catalog := by
  cases o with
  | line text room =>
      exact Desk.calls_process within (s.deskFor room)
  | play p => exact .refl
  | stop => exact .refl
  | resume => exact .refl
  | boot => exact Engine.leads_boot (σ := σ) s.engine
  | errand e => exact Errand.leads_perform within s.engine

end Session

end RelayTimer
