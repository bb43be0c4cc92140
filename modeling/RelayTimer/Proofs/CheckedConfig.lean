import Mathlib.Data.List.Nodup
import RelayTimer.Firmware.Power
import RelayTimer.Proofs.WrittenConfig

set_option autoImplicit false

/-!
A configuration that the check has nothing against: its file reads as the board that it stands for,
unless a pin that it names is the one that another setting, which it leaves out, has by default.
-/
namespace RelayTimer

open ConfigValue (inOrder)

/-- The settings of pins, with the pins that they have by default. -/
def defaultPins : List (Setting × Nat) :=
  [(.relayPin, ({} : BoardConfig).relay.gpio), (.noPin, ({} : BoardConfig).noPin.gpio),
    (.ncPin, ({} : BoardConfig).ncPin.gpio)]

/-- A pin is named that a setting has by default which is left out. -/
def ConfigValue.TakesDefault (config : ConfigValue) : Prop :=
  ∃ absent ∈ defaultPins, config.setting? absent.1 = none ∧
    ∃ given ∈ defaultPins, ∃ value, config.setting? given.1 = some value ∧
      BoardCheck.pinNumber? value = some (absent.2 : Int)

namespace BoardCheck

variable {config : ConfigValue} {entries : List (String × ConfigValue)}

section layout

theorem mem_inOrder {entry : String × ConfigValue} : entry ∈ inOrder entries ↔ entry ∈ entries :=
  List.mem_mergeSort

/-- A section without faults is a table of keys that it has. -/
theorem sectionFaults_eq_nil_iff {name : String} {value : ConfigValue} :
    sectionFaults (name, value) = [] ↔
      ∃ (s : Setting) (inner : List (String × ConfigValue)), s.group = name ∧ value = .table inner ∧
        ∀ line ∈ inner, ∃ t : Setting, t.group = name ∧ t.key = line.1 := by
  have listed (t : Setting) : t ∈ Setting.all := by cases t <;> decide
  have group_iff : Setting.all.any (·.group == name) = true ↔ ∃ s : Setting, s.group = name := by
    simp [listed]
  simp only [sectionFaults]
  constructor
  · intro faultless
    split at faultless
    · rename_i known
      obtain ⟨s, named⟩ := group_iff.mp known
      cases value with
      | table inner =>
          refine ⟨s, inner, named, rfl, ?_⟩
          rw [List.map_eq_nil_iff, List.filter_eq_nil_iff] at faultless
          intro line member
          simpa [listed] using faultless line (mem_inOrder.mpr member)
      | _ => cases faultless
    · cases faultless
  · rintro ⟨s, inner, named, rfl, keys⟩
    rw [if_pos (group_iff.mpr ⟨s, named⟩), List.map_eq_nil_iff, List.filter_eq_nil_iff]
    intro line member
    simpa [listed] using keys line (mem_inOrder.mp member)

theorem layoutFaults_table : layoutFaults (.table entries) = [] ↔
    ∀ entry ∈ entries, sectionFaults entry = [] := by
  rw [layoutFaults, List.flatMap_eq_nil_iff]
  simp only [mem_inOrder]

end layout

section pins

/-- A pin without a fault is there, is not the console's and is not used yet. -/
theorem of_pinFault? {used : List (Int × Setting)} {s : Setting} {gpio : Int}
    (faultless : pinFault? used s gpio = none) :
    (∃ n : Nat, gpio = n ∧ n < pinCount ∧ n ∉ consolePins) ∧ ∀ other ∈ used, other.1 ≠ gpio := by
  unfold pinFault? at faultless
  split at faultless
  · cases faultless
  · rename_i inside
    split at faultless
    · cases faultless
    · rename_i free
      obtain ⟨low, high⟩ := Decidable.not_not.mp inside
      have whole : gpio = (gpio.toNat : Int) := (Int.toNat_of_nonneg low).symm
      refine ⟨⟨gpio.toNat, whole, by omega, free⟩, ?_⟩
      simpa using faultless

/-- Where there are no faults, a setting is left out or has a pin without one. -/
theorem of_pinFaultsFrom_cons {used : List (Int × Setting)} {s : Setting} {rest : List Setting}
    (faultless : pinFaultsFrom config used (s :: rest) = []) :
    (config.setting? s = none ∧ pinFaultsFrom config used rest = []) ∨
    ∃ value gpio, config.setting? s = some value ∧ pinNumber? value = some gpio ∧
      pinFault? used s gpio = none ∧ pinFaultsFrom config (used ++ [(gpio, s)]) rest = [] := by
  rw [pinFaultsFrom] at faultless
  split at faultless
  · rename_i absent
    exact .inl ⟨absent, faultless⟩
  · rename_i value given
    split at faultless
    · cases faultless
    · rename_i gpio named
      obtain ⟨fine, later⟩ := List.append_eq_nil_iff.mp faultless
      exact .inr ⟨value, gpio, given, named, by simpa using fine, later⟩

/-- Each pin that is named can be had, and is not among those used before. -/
theorem pin_of_faultless {used : List (Int × Setting)} {settings : List Setting}
    (faultless : pinFaultsFrom config used settings = []) :
    ∀ s ∈ settings, ∀ value, config.setting? s = some value → ∃ n : Nat,
      pinNumber? value = some (n : Int) ∧ n < pinCount ∧ n ∉ consolePins ∧
      ∀ other ∈ used, other.1 ≠ n := by
  induction settings generalizing used with
  | nil => nofun
  | cons first rest ih =>
      intro s member value given
      rcases of_pinFaultsFrom_cons faultless with
        ⟨absent, later⟩ | ⟨own, gpio, has, named, fine, later⟩
      · rcases List.mem_cons.mp member with rfl | among
        · rw [absent] at given
          cases given
        · exact ih later s among value given
      · rcases List.mem_cons.mp member with rfl | among
        · rw [has] at given
          cases given
          obtain ⟨⟨n, rfl, small, free⟩, unused⟩ := of_pinFault? fine
          exact ⟨n, named, small, free, unused⟩
        · obtain ⟨n, names, small, free, unused⟩ := ih later s among value given
          exact ⟨n, names, small, free, fun other used => unused other (List.mem_append_left _ used)⟩

/-- The pin of a setting is used before any later one is looked at. -/
theorem pin_ne_later {used : List (Int × Setting)} {first t : Setting} {rest : List Setting}
    (faultless : pinFaultsFrom config used (first :: rest) = []) (among : t ∈ rest)
    {value other : ConfigValue} {gpio : Int} (given : config.setting? first = some value)
    (gives : config.setting? t = some other) (names : pinNumber? value = some gpio) :
    pinNumber? other ≠ some gpio := by
  rcases of_pinFaultsFrom_cons faultless with ⟨absent, -⟩ | ⟨own, pin, has, named, -, later⟩
  · rw [absent] at given
    cases given
  · rw [has] at given
    cases given
    obtain ⟨n, differs, -, -, unused⟩ := pin_of_faultless later t among other gives
    have apart : pin ≠ n := unused (pin, first) (by simp)
    rw [named] at names
    rw [differs]
    exact fun same => apart (Option.some.inj (names.trans same.symm))

/-- No two settings name one pin. -/
theorem pins_apart_of_faultless {used : List (Int × Setting)} {settings : List Setting}
    (faultless : pinFaultsFrom config used settings = []) :
    ∀ s ∈ settings, ∀ t ∈ settings, ∀ value other gpio, config.setting? s = some value →
      config.setting? t = some other → pinNumber? value = some gpio →
      pinNumber? other = some gpio → s = t := by
  induction settings generalizing used with
  | nil => nofun
  | cons first rest ih =>
      have later : ∃ used, pinFaultsFrom config used rest = [] := by
        rcases of_pinFaultsFrom_cons faultless with ⟨-, fine⟩ | ⟨_, _, -, -, -, fine⟩
        · exact ⟨_, fine⟩
        · exact ⟨_, fine⟩
      obtain ⟨before, fine⟩ := later
      intro s isPin t isOther value other gpio given gives names same
      rcases List.mem_cons.mp isPin with rfl | sLater
      · rcases List.mem_cons.mp isOther with rfl | tLater
        · rfl
        · exact absurd same (pin_ne_later faultless tLater given gives names)
      · rcases List.mem_cons.mp isOther with rfl | tLater
        · exact absurd names (pin_ne_later faultless sLater gives given same)
        · exact ih fine s sLater t tLater value other gpio given gives names same

end pins

section numbers

theorem of_integerFaults {s : Setting} {value : ConfigValue} {found : Int → List BoardFault}
    (faultless : integerFaults config s found = []) (given : config.setting? s = some value) :
    ∃ n, value = .integer n ∧ found n = [] := by
  unfold integerFaults at faultless
  rw [given] at faultless
  split at faultless
  · rename_i noFault
    cases noFault
  · rename_i n whole
    exact ⟨n, Option.some.inj whole, faultless⟩
  · cases faultless

theorem of_rangeFaults {s : Setting} {value : ConfigValue} {low high : Nat}
    (faultless : rangeFaults config s low high = []) (given : config.setting? s = some value) :
    NumberIn low high value := by
  obtain ⟨n, rfl, inside⟩ := of_integerFaults faultless given
  split at inside
  · rename_i bounds
    have whole : n = (n.toNat : Int) := (Int.toNat_of_nonneg (by omega)).symm
    exact ⟨n.toNat, by rw [← whole], by omega, by omega⟩
  · cases inside

theorem accepts_of_storageFaults {value : ConfigValue}
    (faultless : integerFaults config .storageOffset storageFaults = [])
    (given : config.setting? .storageOffset = some value) : Setting.storageOffset.Accepts value := by
  obtain ⟨n, rfl, fine⟩ := of_integerFaults faultless given
  obtain ⟨aligned, inside⟩ := List.append_eq_nil_iff.mp fine
  have aligned : n % (sectorSize : Int) = 0 := by
    by_contra off
    simp [off] at aligned
  have inside : storageStart ≤ n ∧ n ≤ flashSize - 2 * sectorSize := by
    by_contra outside
    rw [if_neg outside] at inside
    cases inside
  simp only [storageStart, flashSize, sectorSize] at inside aligned
  have whole : n = (n.toNat : Int) := (Int.toNat_of_nonneg (by omega)).symm
  refine ⟨⟨n.toNat, by rw [← whole], by omega, ?_⟩, ?_⟩
  · simp only [flashSize, sectorSize]
    omega
  · intro m same
    cases same
    simp only [sectorSize]
    omega

theorem accepts_of_flagFaults {value : ConfigValue} (faultless : flagFaults config .banner = [])
    (given : config.setting? .banner = some value) : Setting.banner.Accepts value := by
  unfold flagFaults at faultless
  rw [given] at faultless
  split at faultless
  · rename_i noFault
    cases noFault
  · rename_i b flag
    exact ⟨b, Option.some.inj flag⟩
  · cases faultless

end numbers

/-- A configuration without faults has values that its settings may have. -/
theorem accepts_of_faults {s : Setting} {value : ConfigValue} (faultless : faults config = [])
    (given : config.setting? s = some value) : s.Accepts value := by
  unfold faults numberFaults at faultless
  simp only [List.append_eq_nil_iff] at faultless
  obtain ⟨⟨-, pins⟩, ⟨⟨⟨⟨sampleHz, baudrate⟩, banner⟩, splashMs⟩, healthIntervalMs⟩, storage⟩ :=
    faultless
  have pin (member : s ∈ [Setting.relayPin, .noPin, .ncPin]) : NamesPin value := by
    obtain ⟨n, names, small, free, -⟩ := pin_of_faultless pins s member value given
    cases value with
    | text text => exact ⟨text, n, rfl, names, small, free⟩
    | _ => cases names
  cases s with
  | relayPin => exact pin (by decide)
  | noPin => exact pin (by decide)
  | ncPin => exact pin (by decide)
  | sampleHz => exact of_rangeFaults sampleHz given
  | baudrate => exact of_rangeFaults baudrate given
  | banner => exact accepts_of_flagFaults banner given
  | splashMs => exact of_rangeFaults splashMs given
  | healthIntervalMs => exact of_rangeFaults healthIntervalMs given
  | storageOffset => exact accepts_of_storageFaults storage given

/-- A configuration without faults has sections that there are, with keys that they have. -/
theorem layout_of_faults (proper : config.Proper) (faultless : faults config = []) :
    ∃ entries, config = .table entries ∧ Layout entries := by
  have layout := (List.append_eq_nil_iff.mp (List.append_eq_nil_iff.mp faultless).1).1
  cases config with
  | table entries =>
    refine ⟨entries, rfl, ?_⟩
    rintro ⟨name, value⟩ member
    obtain ⟨s, inner, rfl, rfl, keys⟩ :=
      sectionFaults_eq_nil_iff.mp (layoutFaults_table.mp layout _ member)
    refine ⟨s, inner, rfl, ?_⟩
    rintro ⟨key, value⟩ among
    obtain ⟨t, group, rfl⟩ := keys _ among
    refine ⟨t, group, rfl, accepts_of_faults faultless ?_⟩
    rw [ConfigValue.setting?, group, ConfigValue.get?_of_mem proper.1 member]
    exact ConfigValue.get?_of_mem (proper.2 _ _ member) among
  | _ => cases layout

section board

/-- The pin of a setting, which is its default one where nothing else is named. -/
def gpioOf (config : ConfigValue) (setting : Setting × Nat) : Nat :=
  match config.setting? setting.1 with
  | none => setting.2
  | some value => ((pinNumber? value).getD 0).toNat

theorem gpioOf_of_none {setting : Setting × Nat} (absent : config.setting? setting.1 = none) :
    gpioOf config setting = setting.2 := by
  simp only [gpioOf, absent]

theorem gpioOf_of_some {setting : Setting × Nat} {value : ConfigValue} {n : Nat}
    (given : config.setting? setting.1 = some value) (named : pinNumber? value = some (n : Int)) :
    gpioOf config setting = n := by
  simp only [gpioOf, given, named, Option.getD_some, Int.toNat_natCast]

theorem pin?_of_names {value : ConfigValue} (names : NamesPin value) :
    ∃ pin, value.pin? = some pin ∧ pin.gpio = ((pinNumber? value).getD 0).toNat ∧
      pin.gpio < pinCount := by
  obtain ⟨s, gpio, rfl, named, small, -⟩ := names
  refine ⟨⟨gpio, s.toList.head? = some '!'⟩, ?_, ?_, small⟩
  · simp only [ConfigValue.pin?, named, Option.map_some, Int.toNat_natCast]
  · rw [named]
    rfl

/-- The pins of the board that a configuration without faults stands for. -/
theorem board_pins (faultless : faults config = []) :
    config.board.pins = defaultPins.map (gpioOf config) ∧
      ∀ gpio ∈ config.board.pins, gpio < pinCount := by
  have pin (s : Setting) (own : PinSetting)
      (accepts : ∀ value, config.setting? s = some value → NamesPin value)
      (small : own.gpio < pinCount) :
      (((config.setting? s).bind ConfigValue.pin?).getD own).gpio = gpioOf config (s, own.gpio) ∧
        (((config.setting? s).bind ConfigValue.pin?).getD own).gpio < pinCount := by
    unfold gpioOf
    cases given : config.setting? s with
    | none => exact ⟨rfl, small⟩
    | some value =>
        obtain ⟨pin, named, same, inside⟩ := pin?_of_names (accepts value given)
        simp only [Option.bind_some, named, Option.getD_some]
        exact ⟨same, inside⟩
  have relay := pin .relayPin ({} : BoardConfig).relay
    (fun _ given => accepts_of_faults faultless given) (by decide)
  have no := pin .noPin ({} : BoardConfig).noPin
    (fun _ given => accepts_of_faults faultless given) (by decide)
  have nc := pin .ncPin ({} : BoardConfig).ncPin
    (fun _ given => accepts_of_faults faultless given) (by decide)
  have pins : config.board.pins = defaultPins.map (gpioOf config) := by
    simp only [defaultPins, List.map_cons, List.map_nil, ← relay.1, ← no.1, ← nc.1]
    rfl
  refine ⟨pins, ?_⟩
  rw [pins]
  simp only [defaultPins, List.map_cons, List.map_nil, ← relay.1, ← no.1, ← nc.1, List.mem_cons,
    List.not_mem_nil, or_false]
  rintro gpio (rfl | rfl | rfl)
  · exact relay.2
  · exact no.2
  · exact nc.2

/-- A pin is the one that is named, or the default one. -/
theorem gpioOf_cases {pin : Setting × Nat} (faultless : pinFaults config = [])
    (isPin : pin ∈ defaultPins) :
    (config.setting? pin.1 = none ∧ gpioOf config pin = pin.2) ∨
      ∃ value, config.setting? pin.1 = some value ∧
        pinNumber? value = some (gpioOf config pin : Int) := by
  cases given : config.setting? pin.1 with
  | none => exact .inl ⟨rfl, gpioOf_of_none given⟩
  | some value =>
      have settings : ∀ pin ∈ defaultPins, pin.1 ∈ [Setting.relayPin, .noPin, .ncPin] := by decide
      obtain ⟨n, named, -⟩ := pin_of_faultless faultless pin.1 (settings pin isPin) value given
      exact .inr ⟨value, rfl, by rw [gpioOf_of_some given named, named]⟩

/-- Two pins are one only where the one that is named is another's default. -/
theorem pins_nodup_iff (faultless : faults config = []) :
    config.board.pins.Nodup ↔ ¬ config.TakesDefault := by
  rw [(board_pins faultless).1]
  have pins := (List.append_eq_nil_iff.mp (List.append_eq_nil_iff.mp faultless).1).2
  constructor
  · rintro distinct ⟨absent, isAbsent, omitted, given, isGiven, value, stated, named⟩
    have same : gpioOf config given = gpioOf config absent := by
      rw [gpioOf_of_none omitted, gpioOf_of_some stated named]
    have one := List.inj_on_of_nodup_map distinct isGiven isAbsent same
    rw [one, omitted] at stated
    cases stated
  · intro apart
    refine List.Nodup.map_on ?_ (by decide)
    intro first isFirst second isSecond same
    have distinct : ∀ one ∈ defaultPins, ∀ other ∈ defaultPins,
        one.1 = other.1 ∨ one.2 = other.2 → one = other := by decide
    rcases gpioOf_cases pins isFirst with ⟨absent, own⟩ | ⟨value, given, names⟩ <;>
      rcases gpioOf_cases pins isSecond with ⟨missing, default⟩ | ⟨other, gives, named⟩
    · exact distinct first isFirst second isSecond (.inr (own.symm.trans (same.trans default)))
    · rw [← same, own] at named
      exact absurd ⟨first, isFirst, absent, second, isSecond, other, gives, named⟩ apart
    · rw [same, default] at names
      exact absurd ⟨second, isSecond, missing, first, isFirst, value, given, names⟩ apart
    · have settings : ∀ pin ∈ defaultPins, pin.1 ∈ [Setting.relayPin, .noPin, .ncPin] := by decide
      rw [← same] at named
      exact distinct first isFirst second isSecond (.inl (pins_apart_of_faultless pins first.1
        (settings first isFirst) second.1 (settings second isSecond) value other _ given gives names
        named))

/-- A number that may be set is a number whether it is set or not. -/
theorem number_of_faultless {P : Nat → Prop} (faultless : faults config = []) (s : Setting)
    {own : Nat} (default : P own)
    (accepted : ∀ value, s.Accepts value → ∃ n : Nat, value = .integer n ∧ P n) :
    P (((config.setting? s).bind ConfigValue.number?).getD own) := by
  cases given : config.setting? s with
  | none => exact default
  | some value =>
      obtain ⟨n, rfl, fine⟩ := accepted value (accepts_of_faults faultless given)
      exact fine

/-- The store that a configuration without faults asks for starts a sector and is on the chip. -/
theorem board_store (faultless : faults config = []) :
    config.board.storageOffset % sectorSize = 0 ∧
      config.board.storageOffset + 2 * sectorSize ≤ flashSize := by
  refine number_of_faultless
    (P := fun n => n % sectorSize = 0 ∧ n + 2 * sectorSize ≤ flashSize)
    faultless .storageOffset (by decide) ?_
  rintro value ⟨⟨n, rfl, -, small⟩, aligned⟩
  refine ⟨n, rfl, by exact_mod_cast aligned n rfl, ?_⟩
  simp only [sectorSize, flashSize] at small ⊢
  omega

/-- The board of a configuration without faults can be run if its pins differ. -/
theorem validate_of_faultless (faultless : faults config = []) :
    config.board.validate = if config.board.pins.Nodup then .ok () else .error .invalidPin := by
  have sampleHz : config.board.sampleHz ≠ 0 := by
    refine number_of_faultless (P := fun n => n ≠ 0) faultless .sampleHz (by decide) ?_
    rintro value ⟨n, rfl, low, -⟩
    exact ⟨n, rfl, by omega⟩
  have baudrate : config.board.baudrate ≠ 0 := by
    refine number_of_faultless (P := fun n => n ≠ 0) faultless .baudrate (by decide) ?_
    rintro value ⟨n, rfl, low, -⟩
    exact ⟨n, rfl, by omega⟩
  have health : config.board.healthIntervalMs ≠ 0 := by
    refine number_of_faultless (P := fun n => n ≠ 0) faultless .healthIntervalMs (by decide) ?_
    rintro value ⟨n, rfl, low, -⟩
    exact ⟨n, rfl, by omega⟩
  have storage := (board_store faultless).1
  have inside := (board_pins faultless).2
  unfold BoardConfig.validate
  by_cases distinct : config.board.pins.Nodup
  · rw [if_neg (by simp [distinct]; exact inside), if_neg (by simp [sampleHz, baudrate, health, storage]),
      if_pos distinct]
  · rw [if_pos (.inr distinct), if_neg distinct]

end board

/-- The firmware runs with the board that a checked configuration stands for, which its file reads
as, unless a pin is named that a setting has by default which is left out. Then there are two of one
pin, which the check does not see, and the firmware runs with the default board. -/
theorem checked_file_reads (proper : config.Proper) (checked : faults config = []) :
    (¬ config.TakesDefault →
      config.board.validate = .ok () ∧ BoardConfig.ofText config.file = .ok config.board ∧
        (Firmware.loadConfig config.file).1 = config.board) ∧
    (config.TakesDefault →
      config.board.validate = .error .invalidPin ∧
        BoardConfig.ofText config.file = .error .invalidPin ∧
        (Firmware.loadConfig config.file).1 = {}) := by
  obtain ⟨entries, table, layout⟩ := layout_of_faults proper checked
  have reads : BoardConfig.ofText config.file =
      config.board.validate.map fun _ => config.board := by
    subst table
    exact BoardConfig.ofText_file proper layout
  have valid := validate_of_faultless checked
  constructor
  · intro apart
    rw [if_pos ((pins_nodup_iff checked).mpr apart)] at valid
    rw [valid] at reads
    have read : BoardConfig.ofText config.file = .ok config.board := reads
    refine ⟨valid, read, ?_⟩
    simp only [Firmware.loadConfig, read]
  · intro taken
    rw [if_neg fun distinct => (pins_nodup_iff checked).mp distinct taken] at valid
    rw [valid] at reads
    have read : BoardConfig.ofText config.file = .error .invalidPin := reads
    refine ⟨valid, read, ?_⟩
    simp only [Firmware.loadConfig, read]

/-- The relay is moved to a default pin, whose setting is moved too. -/
def moved : ConfigValue :=
  .table [("relay", .table [("pin", .text "gpio3")]),
    ("nonc", .table [("sample_hz", .integer 100), ("nc_pin", .text "!gpio+07")]),
    ("ui", .table [("splash_ms", .integer 0)])]

theorem moved_proper : moved.Proper := by
  refine ⟨by decide +kernel, ?_⟩
  intro name inner member
  simp only [List.mem_cons, Prod.mk.injEq, ConfigValue.table.injEq, List.not_mem_nil, or_false]
    at member
  rcases member with ⟨-, rfl⟩ | ⟨-, rfl⟩ | ⟨-, rfl⟩ <;> decide +kernel

theorem moved_checked : faults moved = [] := by
  have layout : layoutFaults moved = [] := by
    refine layoutFaults_table.mpr ?_
    simp only [List.forall_mem_cons, sectionFaults_eq_nil_iff, List.not_mem_nil, false_implies,
      implies_true, and_true]
    refine ⟨⟨.relayPin, _, rfl, rfl, ?_⟩, ⟨.noPin, _, rfl, rfl, ?_⟩, ⟨.splashMs, _, rfl, rfl, ?_⟩⟩
    · simpa using ⟨.relayPin, rfl, rfl⟩
    · simpa using ⟨⟨.sampleHz, rfl, rfl⟩, .ncPin, rfl, rfl⟩
    · simpa using ⟨.splashMs, rfl, rfl⟩
  have rest : pinFaults moved ++ numberFaults moved = [] := by decide +kernel
  rw [faults, layout, List.nil_append, rest]

theorem checked_file_reads_moved :
    moved.Proper ∧ faults moved = [] ∧ ¬ moved.TakesDefault ∧
      moved.board = { relay := ⟨3, false⟩, ncPin := ⟨7, true⟩, sampleHz := 100, splashMs := 0 } ∧
      BoardConfig.ofText moved.file = .ok moved.board := by
  have apart : ¬ moved.TakesDefault := (pins_nodup_iff moved_checked).mp (by decide +kernel)
  exact ⟨moved_proper, moved_checked, apart, by decide +kernel,
    ((checked_file_reads moved_proper moved_checked).1 apart).2.1⟩

/-- The relay is moved to a default pin, whose setting is left out. -/
def crossed : ConfigValue := .table [("relay", .table [("pin", .text "gpio2")])]

/-- The check finds nothing, and the file is refused: the relay stays where it is by default. -/
theorem crossed_file_refused :
    faults crossed = [] ∧ crossed.file = "[relay]\npin = \"gpio2\"\n\n" ∧
      crossed.board = { relay := ⟨2, false⟩ } ∧ crossed.board.validate = .error .invalidPin ∧
      BoardConfig.ofText crossed.file = .error .invalidPin ∧
      (Firmware.loadConfig crossed.file).1.relay = ⟨23, false⟩ := by
  refine ⟨?_, ?_, ?_, ?_, ?_, ?_⟩ <;> decide +kernel

end BoardCheck

end RelayTimer
