import RelayTimer.Board

set_option autoImplicit false

/-!
Whether the contact is open is read off the relay and the wiring, while what is told about it hangs
on what it was asked to be. The two agree as long as it stands as it was asked to, which everything
that is done to it leaves so: whoever looks at the contact when it is said to have changed, and at
no other time, knows how it stands.
-/
namespace RelayTimer

/-- Whether a contact that was asked to be so is to be open. -/
def Intent.open? : Intent → Option Bool
  | opened => some true
  | closed => some false
  | leaveAsIs => none

namespace Contact

/-- What can be done to a contact. -/
inductive Act
  | set (intent : Intent)
  | flip
  | unmanage
  | rewire (wiring : Wiring)
  deriving Repr, DecidableEq

variable {c : Contact}

def act (c : Contact) : Act → Contact × List Event
  | .set intent => c.set intent
  | .flip => c.flip
  | .unmanage => (c.unmanage, [])
  | .rewire wiring => c.rewire wiring

/-- Whether the relay is driven by it. -/
def drives (c : Contact) : Act → Bool
  | .set intent => intent ≠ .leaveAsIs
  | .flip => true
  | .unmanage => false
  | .rewire _ => c.intent ≠ .leaveAsIs

/-- A contact that was asked to be open or closed is. -/
def Obeys (c : Contact) : Prop := ∀ isOpen ∈ c.intent.open?, c.isOpen = isOpen

theorem isOpen_set (c : Contact) (intent : Intent) :
    (c.set intent).1.isOpen = intent.open?.getD c.isOpen := by
  obtain ⟨relay, wiring, own⟩ := c
  cases intent with
  | leaveAsIs => rfl
  | opened => cases wiring <;> simp [set, isOpen, isNormallyOpen, Intent.open?]
  | closed => cases wiring <;> simp [set, isOpen, isNormallyOpen, Intent.open?]

theorem relay_set (c : Contact) (intent : Intent) :
    (c.set intent).1.relay.writes = c.relay.writes + (c.drives (.set intent)).toNat ∧
      (intent = .leaveAsIs → (c.set intent).1.relay = c.relay) := by
  cases intent with
  | leaveAsIs => exact ⟨rfl, fun _ => rfl⟩
  | opened => exact ⟨rfl, nofun⟩
  | closed => exact ⟨rfl, nofun⟩

theorem contactChanged_mem_set (c : Contact) (intent : Intent) :
    .contactChanged ∈ (c.set intent).2 ↔ c.intent ≠ intent := by
  simp only [set]
  split
  · rename_i same
    simp [same]
  · rename_i apart
    simp [apart]

/-- What was asked for is what there is from then on. -/
theorem obeys_set (c : Contact) (intent : Intent) : (c.set intent).1.Obeys := by
  intro isOpen asked
  have asked : intent.open? = some isOpen := asked
  rw [isOpen_set, asked]
  rfl

@[simp]
theorem isOpen_unmanage (c : Contact) : c.unmanage.isOpen = c.isOpen := rfl

/-- Of whom nothing is asked obeys. -/
theorem obeys_of_leaveAsIs (free : c.intent = .leaveAsIs) : c.Obeys := by
  intro isOpen asked
  rw [free] at asked
  cases asked

theorem isOpen_flip (c : Contact) : c.flip.1.isOpen = !c.isOpen := by
  simp only [flip, isOpen_unmanage, isOpen_set]
  cases c.isOpen <;> rfl

theorem relay_flip (c : Contact) : c.flip.1.relay.writes = c.relay.writes + 1 := by
  have driven := (relay_set c (if c.isOpen then .closed else .opened)).1
  have moves : c.drives (.set (if c.isOpen then .closed else .opened)) = true := by
    cases c.isOpen <;> rfl
  rw [moves] at driven
  exact driven

/-- To turn a contact over is to ask for what it is not, so it is never asked for again. -/
theorem contactChanged_mem_flip (obeys : c.Obeys) : .contactChanged ∈ c.flip.2 := by
  refine (contactChanged_mem_set c _).2 fun same => ?_
  cases stands : c.isOpen with
  | true =>
    rw [stands] at same
    have closed := obeys false (by rw [same]; rfl)
    rw [stands] at closed
    cases closed
  | false =>
    rw [stands] at same
    have opened := obeys true (by rw [same]; rfl)
    rw [stands] at opened
    cases opened

theorem obeys_rewire (c : Contact) (wiring : Wiring) : (c.rewire wiring).1.Obeys :=
  obeys_set { c with wiring } c.intent

/-- What was asked for is what there is under the new wiring too. -/
theorem isOpen_rewire (obeys : c.Obeys) (held : c.intent ≠ .leaveAsIs) (wiring : Wiring) :
    (c.rewire wiring).1.isOpen = c.isOpen := by
  have stands : (c.rewire wiring).1.isOpen =
      c.intent.open?.getD ({ c with wiring } : Contact).isOpen :=
    isOpen_set { c with wiring } c.intent
  cases asked : c.intent with
  | leaveAsIs => exact absurd asked held
  | opened => rw [stands, obeys true (by rw [asked]; rfl), asked]; rfl
  | closed => rw [stands, obeys false (by rw [asked]; rfl), asked]; rfl

theorem relay_rewire (c : Contact) (wiring : Wiring) :
    (c.rewire wiring).1.relay.writes = c.relay.writes + (c.drives (.rewire wiring)).toNat ∧
      (c.intent = .leaveAsIs → (c.rewire wiring).1.relay = c.relay) :=
  relay_set { c with wiring } c.intent

theorem contactChanged_mem_rewire (c : Contact) (wiring : Wiring) :
    .contactChanged ∈ (c.rewire wiring).2 ↔ (c.rewire wiring).1.isOpen ≠ c.isOpen := by
  have quiet : .contactChanged ∉ (({ c with wiring } : Contact).set c.intent).2 := fun told =>
    (contactChanged_mem_set { c with wiring } c.intent).1 told rfl
  show .contactChanged ∈ (({ c with wiring } : Contact).set c.intent).2 ++
    (if c.isOpen = (c.rewire wiring).1.isOpen then [] else [.contactChanged]) ++
      [.wiringChanged] ↔ _
  by_cases same : c.isOpen = (c.rewire wiring).1.isOpen
  · simp [quiet, same]
  · simp [same, Ne.symm same]

/-- What an act makes of a contact, and what is told about it. -/
structure Fair (c : Contact) (a : Act) (after : Contact) (events : List Event) : Prop where
  told : after.isOpen ≠ c.isOpen → .contactChanged ∈ events
  flipped : a = .flip → after.isOpen = !c.isOpen
  rewired : ∀ wiring, a = .rewire wiring →
    (.contactChanged ∈ events ↔ after.isOpen ≠ c.isOpen)
  /-- A change of the wiring leaves the contact as it was asked to be. -/
  held : ∀ wiring, a = .rewire wiring → c.intent ≠ .leaveAsIs → after.isOpen = c.isOpen
  driven : after.relay.writes = c.relay.writes + (c.drives a).toNat
  kept : c.drives a = false → after.relay = c.relay

/-- Asked for what it already was, a contact that obeys stands still. -/
theorem told_set (obeys : c.Obeys) (intent : Intent) (turns : (c.set intent).1.isOpen ≠ c.isOpen) :
    .contactChanged ∈ (c.set intent).2 := by
  refine (contactChanged_mem_set c intent).2 fun same => turns ?_
  rw [isOpen_set]
  cases asked : intent.open? with
  | none => rfl
  | some isOpen => exact (obeys isOpen (by rw [same]; exact asked)).symm

theorem obeys_act (c : Contact) (a : Act) : (c.act a).1.Obeys := by
  cases a with
  | set intent => exact obeys_set c intent
  | flip => exact obeys_of_leaveAsIs rfl
  | unmanage => exact obeys_of_leaveAsIs rfl
  | rewire wiring => exact obeys_rewire c wiring

theorem fair_act (obeys : c.Obeys) (a : Act) : c.Fair a (c.act a).1 (c.act a).2 := by
  cases a with
  | set intent =>
    exact {
      told := told_set obeys intent
      flipped := nofun
      rewired := nofun
      held := nofun
      driven := (relay_set c intent).1
      kept := fun still => (relay_set c intent).2 (by simpa [drives] using still) }
  | flip =>
    exact {
      told := fun _ => contactChanged_mem_flip obeys
      flipped := fun _ => isOpen_flip c
      rewired := nofun
      held := nofun
      driven := relay_flip c
      kept := nofun }
  | unmanage =>
    exact {
      told := fun turns => absurd rfl turns
      flipped := nofun
      rewired := nofun
      held := nofun
      driven := rfl
      kept := fun _ => rfl }
  | rewire wiring =>
    exact {
      told := (contactChanged_mem_rewire c wiring).2
      flipped := nofun
      rewired := fun _ same => by cases same; exact contactChanged_mem_rewire c wiring
      held := fun _ same held => by cases same; exact isOpen_rewire obeys held wiring
      driven := (relay_rewire c wiring).1
      kept := fun still => (relay_rewire c wiring).2 (by simpa [drives] using still) }

end Contact

/-- What is done to the contact of a board. -/
def Board.actOnContact (b : Board) : Contact.Act → Board
  | .set intent => b.driveContact intent
  | .flip => b.flipContact
  | .unmanage => { b with contact := b.contact.unmanage }
  | .rewire wiring => b.rewireContact wiring

theorem Board.actOnContact_eq (b : Board) (a : Contact.Act) :
    b.actOnContact a = b.withContact (b.contact.act a) := by
  cases a with
  | unmanage => simp [actOnContact, withContact, Contact.act]
  | _ => rfl

/-- Someone who looks at the contact of a board only when it is said to have changed. -/
structure Onlooker where
  board : Board
  /-- Whether the contact was open when it was looked at last. -/
  seen : Bool

namespace Onlooker

/-- A look at the contact of a board, before anything is done to it. -/
def look (board : Board) : Onlooker := { board, seen := board.contact.isOpen }

/-- Something is done to the contact, which is looked at again if that is said to have changed
it. -/
def watch (o : Onlooker) (a : Contact.Act) : Onlooker :=
  let after := o.board.actOnContact a
  let news := after.published.drop o.board.published.length
  { board := after, seen := if .contactChanged ∈ news then after.contact.isOpen else o.seen }

/-- What is seen is what there is, and that is what was asked for. -/
structure Sees (o : Onlooker) : Prop where
  right : o.seen = o.board.contact.isOpen
  obeys : o.board.contact.Obeys

theorem sees_watch {o : Onlooker} (sees : o.Sees) (a : Contact.Act) : (o.watch a).Sees := by
  have fair := Contact.fair_act sees.obeys a
  have contact : (o.board.actOnContact a).contact = (o.board.contact.act a).1 := by
    rw [Board.actOnContact_eq]; rfl
  have news : (o.board.actOnContact a).published.drop o.board.published.length =
      (o.board.contact.act a).2 := by
    rw [Board.actOnContact_eq]; exact List.drop_left
  refine ⟨?_, by simpa only [watch, contact] using Contact.obeys_act _ a⟩
  simp only [watch, news, contact]
  split
  · rfl
  · rename_i quiet
    rw [sees.right]
    exact Decidable.byContradiction fun turns => quiet (fair.told (Ne.symm turns))

theorem sees_run {o : Onlooker} (sees : o.Sees) (acts : List Contact.Act) :
    (acts.foldl watch o).Sees := by
  induction acts generalizing o with
  | nil => exact sees
  | cons a rest ih => exact ih (sees_watch sees a)

/-- Whatever is done to a contact that nothing was asked of yet, whoever looks at it only when it is
said to have changed is right about it after each act, and it stands as it was asked to. Whatever
is done next is told if it turns the contact over and drives the relay only where it is to. -/
theorem sees_contact (relay : RelayOutput) (board : Board) (acts : List Contact.Act) :
    let o := acts.foldl watch (look { board with contact := { relay } })
    o.seen = o.board.contact.isOpen ∧
      (o.board.contact.intent = .opened → o.board.contact.isOpen = true) ∧
      (o.board.contact.intent = .closed → o.board.contact.isOpen = false) ∧
      ∀ a, ∃ events, (o.board.actOnContact a).published = o.board.published ++ events ∧
        o.board.contact.Fair a (o.board.actOnContact a).contact events := by
  intro o
  have sees : o.Sees := sees_run ⟨rfl, Contact.obeys_of_leaveAsIs rfl⟩ acts
  refine ⟨sees.right, fun asked => ?_, fun asked => ?_,
    fun a => ⟨(o.board.contact.act a).2, ?_, ?_⟩⟩
  · exact sees.obeys true (by rw [asked]; rfl)
  · exact sees.obeys false (by rw [asked]; rfl)
  · rw [Board.actOnContact_eq]; rfl
  · rw [Board.actOnContact_eq]; exact Contact.fair_act sees.obeys a

end Onlooker

end RelayTimer
