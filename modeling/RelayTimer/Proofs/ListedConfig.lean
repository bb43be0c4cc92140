import RelayTimer.Proofs.EditedConfig

set_option autoImplicit false

/-!
Texts that list the settings of a board, section by section: in any order, with sections begun
again, numbers with low lines in them and pins with or without quotation marks. Such a text reads
as the board, and where settings are left out as the board with their defaults, if that can be run.
-/
namespace RelayTimer

/-- The decimal digits of a number, perhaps with zeros in front. -/
structure Digits (text : List Char) (n : Nat) : Prop where
  nonempty : text ≠ []
  decimal : ∀ c ∈ text, c.isDigit = true
  value : Nat.ofDigitChars 10 text 0 = n

/-- At most twenty-four digits with low lines among them. -/
structure SpellsNumber (text : List Char) (n : Nat) : Prop where
  digits : Digits (text.filter (· ≠ '_')) n
  short : (text.filter (· ≠ '_')).length ≤ 24

/-- The name of a pin by its number, behind a mark if it is inverted, perhaps in quotation marks. -/
def SpellsPin (text : List Char) (pin : PinSetting) : Prop :=
  ∃ digits, Digits digits pin.gpio ∧
    let name := (if pin.inverted then ['!'] else []) ++ "gpio".toList ++ digits
    text = name ∨ text = '"' :: (name ++ ['"'])

section spellings

variable {text : List Char} {n : Nat} {pin : PinSetting}

theorem Digits.read (digits : Digits text n) : Text.readDigits? text = some n := by
  unfold Text.readDigits?
  rw [List.all_eq_true.mpr digits.decimal, List.isEmpty_eq_false_iff.mpr digits.nonempty,
    digits.value]
  rfl

theorem SpellsPin.cases (spells : SpellsPin text pin) :
    ∃ name, PinSpelling name pin.inverted pin.gpio ∧ (text = name ∨ text = '"' :: (name ++ ['"'])) := by
  obtain ⟨digits, own, written⟩ := spells
  exact ⟨_, ⟨digits, digits, .inl rfl, rfl, own.read⟩, written⟩

theorem SpellsPin.solid (spells : SpellsPin text pin) : Solid text := by
  obtain ⟨name, spelling, rfl | rfl⟩ := spells.cases
  · exact spelling.solid
  · exact spelling.solid.quoted

theorem SpellsNumber.solid (spells : SpellsNumber text n) : Solid text where
  nonempty := by
    rintro rfl
    exact spells.digits.nonempty rfl
  plain c member := by
    by_cases line : c = '_'
    · subst line
      decide
    · refine isSolid_of_isDigit (spells.digits.decimal c (List.mem_filter.mpr ⟨member, ?_⟩))
      simpa using line

theorem SpellsNumber.read {bound : Nat} (spells : SpellsNumber text n) (small : n < bound) :
    ConfigText.readNumber bound text = .ok n :=
  readNumber_of_digits spells.digits.read spells.short small

theorem SpellsPin.read (spells : SpellsPin text pin) (small : pin.gpio < pinCount) :
    ConfigText.readPin text = .ok pin := by
  obtain ⟨name, spelling, rfl | rfl⟩ := spells.cases
  · exact (readPin_of_spelling spelling small).1
  · exact (readPin_of_spelling spelling small).2

theorem digits_decimal (n : Nat) : Digits (decimal n) n where
  nonempty := Nat.toDigits_ne_nil
  decimal _ := isDigit_of_mem_decimal
  value := ofDigitChars_decimal n

theorem spellsNumber_decimal (short : n < 10 ^ 24) : SpellsNumber (decimal n) n := by
  constructor
  · rw [filter_decimal]
    exact digits_decimal n
  · rw [filter_decimal]
    exact (Nat.length_toDigits_le_iff (by decide) (by decide)).mpr short

/-- The name of a pin, without quotation marks. -/
def PinSetting.name (pin : PinSetting) : List Char :=
  (if pin.inverted then ['!'] else []) ++ "gpio".toList ++ decimal pin.gpio

theorem spellsPin_name (pin : PinSetting) : SpellsPin pin.name pin :=
  ⟨decimal pin.gpio, digits_decimal pin.gpio, .inl rfl⟩

end spellings

namespace BoardConfig

open ConfigText (Progress IsQuiet assign)

/-- The value of a setting as it may be written. -/
def Spells (c : BoardConfig) (s : Setting) (text : List Char) : Prop :=
  match s with
  | .relayPin => SpellsPin text c.relay
  | .noPin => SpellsPin text c.noPin
  | .ncPin => SpellsPin text c.ncPin
  | .sampleHz => SpellsNumber text c.sampleHz
  | .baudrate => SpellsNumber text c.baudrate
  | .banner => text = (toString c.banner).toList
  | .splashMs => SpellsNumber text c.splashMs
  | .healthIntervalMs => SpellsNumber text c.healthIntervalMs
  | .storageOffset => SpellsNumber text c.storageOffset

/-- Lines that list settings of a board, each in its section, and which ones they list. -/
inductive Lists (c : BoardConfig) : Option String → List (List Char) → List Setting → Prop
  | done (group : Option String) : Lists c group [] []
  | quiet {group : Option String} {line : List Char} {lines : List (List Char)}
    {listed : List Setting} (silent : IsQuiet line) (rest : Lists c group lines listed) :
    Lists c group (line :: lines) listed
  /-- A section is begun, perhaps not for the first time. -/
  | header {group : Option String} {line : List Char} {lines : List (List Char)}
    {listed : List Setting} (s : Setting)
    (written : Text.trim line = "[".toList ++ s.group.toList ++ "]".toList)
    (rest : Lists c (some s.group) lines listed) : Lists c group (line :: lines) listed
  /-- A setting is listed in its section. -/
  | key {line value before behind : List Char} {lines : List (List Char)} {listed : List Setting}
    (s : Setting) (spelled : c.Spells s value) (blank : Text.AllBlank before)
    (alsoBlank : Text.AllBlank behind)
    (written : Text.trim line = s.key.toList ++ before ++ '=' :: (behind ++ value))
    (rest : Lists c (some s.group) lines listed) :
    Lists c (some s.group) (line :: lines) (s :: listed)

/-- The numbers of a board that its fields can hold. -/
structure Sized (c : BoardConfig) : Prop where
  sampleHz : c.sampleHz < UInt16.size
  baudrate : c.baudrate < UInt32.size
  splashMs : c.splashMs < UInt32.size
  healthIntervalMs : c.healthIntervalMs < UInt32.size
  storageOffset : c.storageOffset < UInt32.size

/-- The board with some settings taken from another one. -/
def taking (own c : BoardConfig) (listed : List Setting) : BoardConfig where
  relay := if .relayPin ∈ listed then c.relay else own.relay
  noPin := if .noPin ∈ listed then c.noPin else own.noPin
  ncPin := if .ncPin ∈ listed then c.ncPin else own.ncPin
  sampleHz := if .sampleHz ∈ listed then c.sampleHz else own.sampleHz
  baudrate := if .baudrate ∈ listed then c.baudrate else own.baudrate
  banner := if .banner ∈ listed then c.banner else own.banner
  splashMs := if .splashMs ∈ listed then c.splashMs else own.splashMs
  healthIntervalMs :=
    if .healthIntervalMs ∈ listed then c.healthIntervalMs else own.healthIntervalMs
  storageOffset := if .storageOffset ∈ listed then c.storageOffset else own.storageOffset

variable {c own : BoardConfig} {s : Setting} {text : List Char} {listed : List Setting}

theorem taking_of_all (all : ∀ s, s ∈ listed) (own : BoardConfig) : own.taking c listed = c := by
  simp only [taking, all, ↓reduceIte]

/-- Settings can be taken one after another. -/
theorem taking_taking (own c : BoardConfig) (s : Setting) (listed : List Setting) :
    (own.taking c [s]).taking c listed = own.taking c (s :: listed) := by
  have one {α : Type} (t : Setting) (mine theirs : α) :
      (if t ∈ listed then theirs else if t ∈ [s] then theirs else mine) =
        if t ∈ s :: listed then theirs else mine := by
    by_cases later : t ∈ listed
    · rw [if_pos later, if_pos (List.mem_cons_of_mem _ later)]
    · by_cases here : t = s
      · simp [here]
      · simp [later, here]
  simp only [taking, one]

section values

theorem solid_of_spells (spells : c.Spells s text) : Solid text := by
  cases s with
  | relayPin | noPin | ncPin => exact SpellsPin.solid spells
  | sampleHz | baudrate | splashMs | healthIntervalMs | storageOffset =>
      exact SpellsNumber.solid spells
  | banner =>
      obtain rfl : text = _ := spells
      cases c.banner <;> exact ⟨by decide, forall_mem_of_all (by decide)⟩

/-- What is listed is set. -/
theorem assign_of_spells (valid : c.validate = .ok ()) (sized : c.Sized)
    (spells : c.Spells s text) (own : BoardConfig) :
    assign own s text = .ok (own.taking c [s]) := by
  have small := (pins_of_validate valid).1
  simp only [pins, List.forall_mem_cons] at small
  cases s with
  | relayPin => simp [assign, SpellsPin.read spells small.1, taking]
  | noPin => simp [assign, SpellsPin.read spells small.2.1, taking]
  | ncPin => simp [assign, SpellsPin.read spells small.2.2.1, taking]
  | sampleHz => simp [assign, SpellsNumber.read spells sized.sampleHz, taking]
  | baudrate => simp [assign, SpellsNumber.read spells sized.baudrate, taking]
  | banner =>
      obtain rfl : text = _ := spells
      have read : ConfigText.readFlag (toString c.banner).toList = .ok c.banner :=
        readFlag_written c.banner
      simp [assign, read, taking]
  | splashMs => simp [assign, SpellsNumber.read spells sized.splashMs, taking]
  | healthIntervalMs => simp [assign, SpellsNumber.read spells sized.healthIntervalMs, taking]
  | storageOffset => simp [assign, SpellsNumber.read spells sized.storageOffset, taking]

end values

section lines

variable {group : Option String} {lines : List (List Char)}

theorem take_trimmed_header {line : List Char}
    (written : Text.trim line = "[".toList ++ s.group.toList ++ "]".toList) (p : Progress) :
    p.take line = .ok { p with group := some s.group } := by
  have own : Text.trim ("[".toList ++ s.group.toList ++ "]".toList) =
      "[".toList ++ s.group.toList ++ "]".toList := by
    cases s <;> rfl
  rw [ConfigText.take_congr (written.trans own.symm), take_header]

/-- Lines that list settings set them. -/
theorem Lists.foldlM (valid : c.validate = .ok ()) (sized : c.Sized)
    (lists : Lists c group lines listed) (own : BoardConfig) :
    ∃ last, lines.foldlM Progress.take ⟨own, group⟩ = .ok ⟨own.taking c listed, last⟩ := by
  induction lists generalizing own with
  | done group => exact ⟨group, rfl⟩
  | quiet silent rest ih =>
      rw [List.foldlM_cons, ConfigText.take_of_quiet silent]
      exact ih own
  | header s written rest ih =>
      rw [List.foldlM_cons, take_trimmed_header written]
      exact ih own
  | @key line value before behind lines listed s spelled blank alsoBlank written rest ih =>
      obtain ⟨last, later⟩ := ih (own.taking c [s])
      refine ⟨last, ?_⟩
      rw [taking_taking] at later
      rw [List.foldlM_cons, take_key (solid_of_spells spelled) blank alsoBlank written
        (assign_of_spells valid sized spelled own)]
      exact later

/-- The value of a setting in plain words. -/
def plainValue (c : BoardConfig) : Setting → List Char
  | .relayPin => c.relay.name
  | .noPin => c.noPin.name
  | .ncPin => c.ncPin.name
  | .sampleHz => decimal c.sampleHz
  | .baudrate => decimal c.baudrate
  | .banner => (toString c.banner).toList
  | .splashMs => decimal c.splashMs
  | .healthIntervalMs => decimal c.healthIntervalMs
  | .storageOffset => decimal c.storageOffset

/-- The lines of a setting, which stands in a section of its own. -/
def plainLines (c : BoardConfig) (s : Setting) : List (List Char) :=
  ["[".toList ++ s.group.toList ++ "]".toList,
    s.key.toList ++ " = ".toList ++ c.plainValue s]

theorem spells_plainValue (sized : c.Sized) (s : Setting) : c.Spells s (c.plainValue s) := by
  have short {n : Nat} (small : n < UInt32.size) : n < 10 ^ 24 :=
    Nat.lt_trans small (by decide)
  cases s with
  | relayPin | noPin | ncPin => exact spellsPin_name _
  | sampleHz => exact spellsNumber_decimal (short (Nat.lt_trans sized.sampleHz (by decide)))
  | baudrate => exact spellsNumber_decimal (short sized.baudrate)
  | banner => rfl
  | splashMs => exact spellsNumber_decimal (short sized.splashMs)
  | healthIntervalMs => exact spellsNumber_decimal (short sized.healthIntervalMs)
  | storageOffset => exact spellsNumber_decimal (short sized.storageOffset)

theorem lists_plainLines (sized : c.Sized) (listed : List Setting) (group : Option String) :
    Lists c group (listed.flatMap c.plainLines) listed := by
  induction listed generalizing group with
  | nil => exact .done group
  | cons s rest ih =>
      have spelled := spells_plainValue sized s
      have solid := solid_of_spells spelled
      have blank : Text.AllBlank [' '] := forall_mem_of_all rfl
      have header : Text.trim ("[".toList ++ s.group.toList ++ "]".toList) =
          "[".toList ++ s.group.toList ++ "]".toList := by
        cases s <;> rfl
      have trimmed := s.solid_key.trimmed.append s.solid_key.nonempty " = ".toList solid.nonempty
        solid.trimmed.last
      refine .header s header (.key s spelled blank blank ?_ (ih _))
      rw [trimmed.trim]
      simp

theorem unbroken_plainLines (sized : c.Sized) (listed : List Setting) :
    ∀ line ∈ listed.flatMap c.plainLines, ∀ d ∈ line, d ≠ '\n' ∧ d ≠ '\r' := by
  intro line member
  obtain ⟨s, -, inside⟩ := List.mem_flatMap.mp member
  simp only [plainLines, List.mem_cons, List.not_mem_nil, or_false] at inside
  rcases inside with rfl | rfl
  · cases s <;> exact forall_mem_of_all (by decide)
  · have equals : ∀ d ∈ " = ".toList, d ≠ '\n' ∧ d ≠ '\r' := forall_mem_of_all (by decide)
    simp only [List.forall_mem_append]
    exact ⟨⟨s.solid_key.unbroken, equals⟩, (solid_of_spells (spells_plainValue sized s)).unbroken⟩

end lines

/-- Every board that can be run can be listed. A text that lists all of its settings reads as the
board, and one that lists some of them as the board that has these and otherwise its defaults, or
as what is wrong with that. What is read can be run. -/
theorem ofText_listed :
    (∀ c : BoardConfig, c.validate = .ok () → c.Sized →
      (∃ text : String, Lists c none (Text.lines text.toList) Setting.all) ∧
      ∀ (text : String) (listed : List Setting), Lists c none (Text.lines text.toList) listed →
        ((∀ s, s ∈ listed) → ofText text = .ok c) ∧
        ofText text =
          (({} : BoardConfig).taking c listed).validate.map fun _ => taking {} c listed) ∧
    ∀ (text : String) (c : BoardConfig), ofText text = .ok c → c.validate = .ok () := by
  refine ⟨fun c valid sized => ⟨?_, fun text listed lists => ?_⟩, fun text c reads => ?_⟩
  · refine ⟨String.ofList ((Setting.all.flatMap c.plainLines).flatMap (· ++ ['\n'])), ?_⟩
    rw [String.toList_ofList, Text.lines_of_lines (unbroken_plainLines sized Setting.all)]
    exact lists_plainLines sized Setting.all none
  · obtain ⟨last, read⟩ := lists.foldlM valid sized {}
    have reads : ofText text =
        (({} : BoardConfig).taking c listed).validate.map fun _ => taking {} c listed := by
      unfold ofText ofChars
      rw [read]
      change (do
        (({} : BoardConfig).taking c listed).validate
        return ({} : BoardConfig).taking c listed) = _
      cases (({} : BoardConfig).taking c listed).validate <;> rfl
    refine ⟨fun all => ?_, reads⟩
    rw [reads, taking_of_all all, valid]
    rfl
  · obtain ⟨p, -, rfl, valid⟩ := ofText_eq_ok_iff.mp reads
    exact valid

/-- Three settings in an order of their own, a section begun again, a low line in a number and pins
with and without quotation marks; and the same without the pin of the relay, whose default is then
another pin's. -/
theorem ofText_listed_shuffled :
    let c : BoardConfig :=
      { relay := ⟨22, true⟩, noPin := ⟨23, false⟩, baudrate := 9600, banner := false }
    let lines := ["[console]", "banner = false", "", "[nonc]", " no_pin=gpio23\t", "# slow",
      "[console]", "baudrate = 00_9_600"]
    let text (lines : List String) :=
      String.ofList ((lines.map String.toList).flatMap (· ++ ['\n']))
    c.validate = .ok () ∧ c.Sized ∧
      (∃ text, Lists c none (Text.lines text.toList) Setting.all ∧ ofText text = .ok c) ∧
      ofText (text (lines ++ ["[relay]", "pin = \"!gpio22\""])) = .ok c ∧
      ofText (text lines) = .error .invalidPin := by
  intro c lines text
  have valid : c.validate = .ok () := by decide
  have sized : c.Sized := ⟨by decide, by decide, by decide, by decide, by decide⟩
  have banner : c.Spells .banner "false".toList := rfl
  have noPin : c.Spells .noPin "gpio23".toList :=
    ⟨"23".toList, ⟨by decide, forall_mem_of_all (by decide), by decide⟩, .inl rfl⟩
  have baudrate : c.Spells .baudrate "00_9_600".toList :=
    ⟨⟨by decide, forall_mem_of_all (by decide), by decide⟩, by decide⟩
  have relayPin : c.Spells .relayPin "\"!gpio22\"".toList :=
    ⟨"22".toList, ⟨by decide, forall_mem_of_all (by decide), by decide⟩, .inr rfl⟩
  have noted : IsQuiet "# slow".toList := by
    intro d first
    exact (Option.some.inj first).symm
  have space : Text.AllBlank [' '] := forall_mem_of_all rfl
  have nothing : Text.AllBlank [] := nofun
  have lists {last : List (List Char)} {listed : List Setting}
      (rest : Lists c (some "console") last listed) :
      Lists c none (lines.map String.toList ++ last)
        (.banner :: .noPin :: .baudrate :: listed) :=
    .header .banner rfl <|
      .key .banner banner space space rfl <|
      .quiet nofun <|
      .header .noPin rfl <|
      .key .noPin noPin nothing nothing rfl <|
      .quiet noted <|
      .header .baudrate rfl <|
      .key .baudrate baudrate space space rfl rest
  have whole : Lists c none (lines.map String.toList ++
      ["[relay]".toList, "pin = \"!gpio22\"".toList]) [.banner, .noPin, .baudrate, .relayPin] :=
    lists <| .header .relayPin rfl <| .key .relayPin relayPin space space rfl <| .done _
  obtain ⟨⟨all, listsAll⟩, reads⟩ := ofText_listed.1 c valid sized
  refine ⟨valid, sized, ⟨all, listsAll, (reads all _ listsAll).1 fun s => by cases s <;> decide⟩,
    ?_, ?_⟩
  · have split : Text.lines (text (lines ++ ["[relay]", "pin = \"!gpio22\""])).toList =
        lines.map String.toList ++ ["[relay]".toList, "pin = \"!gpio22\"".toList] := by
      decide +kernel
    rw [(reads _ _ (split ▸ whole)).2]
    decide
  · have split : Text.lines (text lines).toList = lines.map String.toList ++ [] := by
      decide +kernel
    rw [(reads _ _ (split ▸ lists (.done _))).2]
    decide

end BoardConfig

end RelayTimer
