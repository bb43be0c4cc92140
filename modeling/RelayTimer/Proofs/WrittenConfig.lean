import Mathlib.Algebra.Ring.Nat
import RelayTimer.Config.Check
import RelayTimer.Config.Reader
import RelayTimer.Proofs.BlankEnds

set_option autoImplicit false

/-!
What a configuration stands for, written as a file of sections, reads as that again: each section has
its header and a line for each of its keys.
-/
namespace RelayTimer

namespace ConfigValue

/-- A value behind its key. Text is in quotation marks, and numbers are decimal. -/
def written : ConfigValue → List Char
  | text s => ['"'] ++ s.toList ++ ['"']
  | integer (.ofNat n) => decimal n
  | integer (.negSucc n) => '-' :: decimal (n + 1)
  | flag b => (toString b).toList
  | real | array | table _ => []

def keyLine (entry : String × ConfigValue) : List Char :=
  entry.1.toList ++ " = ".toList ++ entry.2.written

/-- The lines of a section, and a blank one behind it. -/
def sectionLines (entry : String × ConfigValue) : List (List Char) :=
  ["[".toList ++ entry.1.toList ++ "]".toList] ++
    (match entry.2 with
      | table inner => inner.map keyLine
      | _ => []) ++
    [[]]

/-- A configuration as a file, with its sections and keys in the order in which they stand. -/
def file : ConfigValue → String
  | table entries => String.ofList ((entries.flatMap sectionLines).flatMap (· ++ ['\n']))
  | _ => ""

def pin? (value : ConfigValue) : Option PinSetting :=
  match value with
  | text s => (BoardCheck.pinNumber? (text s)).map fun gpio =>
      { gpio := gpio.toNat, inverted := s.toList.head? = some '!' }
  | _ => none

def number? : ConfigValue → Option Nat
  | integer n => some n.toNat
  | _ => none

def flag? : ConfigValue → Option Bool
  | flag b => some b
  | _ => none

end ConfigValue

namespace BoardConfig

/-- The board with the settings that are given in place of its own. -/
def overlay (c : BoardConfig) (given : Setting → Option ConfigValue) : BoardConfig where
  relay := ((given .relayPin).bind ConfigValue.pin?).getD c.relay
  noPin := ((given .noPin).bind ConfigValue.pin?).getD c.noPin
  ncPin := ((given .ncPin).bind ConfigValue.pin?).getD c.ncPin
  sampleHz := ((given .sampleHz).bind ConfigValue.number?).getD c.sampleHz
  baudrate := ((given .baudrate).bind ConfigValue.number?).getD c.baudrate
  banner := ((given .banner).bind ConfigValue.flag?).getD c.banner
  splashMs := ((given .splashMs).bind ConfigValue.number?).getD c.splashMs
  healthIntervalMs := ((given .healthIntervalMs).bind ConfigValue.number?).getD c.healthIntervalMs
  storageOffset := ((given .storageOffset).bind ConfigValue.number?).getD c.storageOffset

theorem overlay_none (c : BoardConfig) : c.overlay (fun _ => none) = c := rfl

/-- Settings that do not meet can be given one after another. -/
theorem overlay_overlay (c : BoardConfig) {first second : Setting → Option ConfigValue}
    (apart : ∀ s, first s = none ∨ second s = none) :
    (c.overlay first).overlay second = c.overlay fun s => second s <|> first s := by
  have one {α : Type} (read : ConfigValue → Option α) (own : α) (s : Setting) :
      ((second s).bind read).getD (((first s).bind read).getD own) =
        ((second s <|> first s).bind read).getD own := by
    rcases apart s with none | none
    · rw [none]
      cases second s <;> rfl
    · rw [none]
      rfl
  simp only [overlay, one]

end BoardConfig

/-- The board that a configuration stands for: what it does not set is as it is by default. -/
def ConfigValue.board (config : ConfigValue) : BoardConfig := BoardConfig.overlay {} config.setting?

/-- No key stands twice in some entries. -/
def KeysOnce (entries : List (String × ConfigValue)) : Prop := (entries.map (·.1)).Nodup

instance (entries : List (String × ConfigValue)) : Decidable (KeysOnce entries) :=
  inferInstanceAs (Decidable (List.Nodup _))

/-- No table has a key twice. -/
def ConfigValue.Proper : ConfigValue → Prop
  | table entries =>
    KeysOnce entries ∧ ∀ name inner, (name, table inner) ∈ entries → KeysOnce inner
  | _ => True

section lines

open Text (isBlank AllBlank)

/-- A character that a line is not cut at: it is no blank, begins no comment and ends no key. -/
def IsSolid (c : Char) : Prop := isBlank c = false ∧ c ≠ '#' ∧ c ≠ '='

instance (c : Char) : Decidable (IsSolid c) := inferInstanceAs (Decidable (_ ∧ _))

structure Solid (text : List Char) : Prop where
  nonempty : text ≠ []
  plain : ∀ c ∈ text, IsSolid c

/-- What holds of all characters of a text is found by going through the text. -/
theorem forall_mem_of_all {text : List Char} {P : Char → Prop} [DecidablePred P]
    (all : (text.all fun c => P c) = true) : ∀ c ∈ text, P c := by
  simpa using all

theorem Text.lines_of_lines {lines : List (List Char)}
    (unbroken : ∀ line ∈ lines, ∀ c ∈ line, c ≠ '\n' ∧ c ≠ '\r') :
    Text.lines (lines.flatMap (· ++ ['\n'])) = lines := by
  induction lines with
  | nil => rfl
  | cons line others ih =>
      rw [List.forall_mem_cons] at unbroken
      have noFeed : '\n' ∉ line := fun member => (unbroken.1 _ member).1 rfl
      have noReturn : line.getLast? ≠ some '\r' := fun last =>
        (unbroken.1 _ (List.mem_of_getLast? last)).2 rfl
      rw [List.flatMap_cons, List.append_assoc, List.singleton_append,
        Text.lines_append_newline noFeed noReturn, ih unbroken.2]

theorem Solid.trimmed {text : List Char} (solid : Solid text) : Text.Trimmed text where
  first c here := (solid.plain c (List.mem_of_mem_head? here)).1
  last c here := (solid.plain c (List.mem_of_getLast? here)).1

namespace ConfigText

theorem splitAt?_append {c : Char} {before : List Char} (absent : c ∉ before) (after : List Char) :
    splitAt? c (before ++ c :: after) = some (before, after) := by
  induction before with
  | nil => simp [splitAt?]
  | cons d rest ih =>
      rw [List.mem_cons, not_or] at absent
      rw [List.cons_append, splitAt?, if_neg (Ne.symm absent.1), ih absent.2]
      rfl

theorem splitAt?_none {c : Char} {text : List Char} (absent : c ∉ text) : splitAt? c text = none := by
  induction text with
  | nil => rfl
  | cons d rest ih =>
      rw [List.mem_cons, not_or] at absent
      rw [splitAt?, if_neg (Ne.symm absent.1), ih absent.2]
      rfl

/-- The line of a key is cut into the key and its value, whatever blanks there are around the equals
sign. -/
theorem keyValue?_of_solid {key value before behind : List Char} (solidKey : Solid key)
    (solidValue : Solid value) (blank : AllBlank before) (alsoBlank : AllBlank behind) :
    keyValue? (key ++ before ++ '=' :: (behind ++ value)) = some (key, value) := by
  have noEquals : '=' ∉ key ++ before := by
    rw [List.mem_append, not_or]
    exact ⟨fun member => (solidKey.plain '=' member).2.2 rfl, blank.absent rfl⟩
  have noSign : '#' ∉ value := fun member => (solidValue.plain '#' member).2.1 rfl
  have uncommented : uncomment value = value := by
    unfold uncomment
    rw [splitAt?_none noSign]
  have ownKey : Text.trim (key ++ before) = key :=
    solidKey.trimmed.trim_around Text.allBlank_nil blank
  have ownValue : Text.trim (behind ++ value) = value := by
    have around := solidValue.trimmed.trim_around alsoBlank Text.allBlank_nil
    rwa [List.append_nil] at around
  unfold keyValue?
  rw [splitAt?_append noEquals]
  simp only [ownKey, ownValue, uncommented]
  simp [solidKey.nonempty, solidValue.nonempty]

end ConfigText

end lines

section values

open ConfigText (readNumber readFlag readPin assign)

/-- A whole number between two bounds. -/
def NumberIn (low high : Nat) (value : ConfigValue) : Prop :=
  ∃ n : Nat, value = .integer n ∧ low ≤ n ∧ n ≤ high

/-- The name of a pin that the console does not use. -/
def NamesPin (value : ConfigValue) : Prop :=
  ∃ (s : String) (gpio : Nat), value = .text s ∧ BoardCheck.pinNumber? value = some (gpio : Int) ∧
    gpio < pinCount ∧ gpio ∉ consolePins

/-- The values that a setting may have. -/
def Setting.Accepts (s : Setting) (value : ConfigValue) : Prop :=
  match s with
  | relayPin | noPin | ncPin => NamesPin value
  | sampleHz => NumberIn 1 1000 value
  | baudrate => NumberIn 1200 921600 value
  | banner => ∃ b, value = .flag b
  | splashMs => NumberIn 0 60000 value
  | healthIntervalMs => NumberIn 100 600000 value
  | storageOffset =>
    NumberIn 0x1F0000 (flashSize - 2 * sectorSize) value ∧
      ∀ n, value = .integer n → n % sectorSize = 0

theorem isSolid_of_isDigit {c : Char} (digit : c.isDigit = true) : IsSolid c := by
  refine ⟨(Text.isPlain_of_isDigit digit).1, ?_, ?_⟩
  · rintro rfl
    cases digit
  · rintro rfl
    cases digit

theorem solid_decimal (n : Nat) : Solid (decimal n) where
  nonempty := Nat.toDigits_ne_nil
  plain _ member := isSolid_of_isDigit (isDigit_of_mem_decimal member)

theorem readDigits?_decimal (n : Nat) : Text.readDigits? (decimal n) = some n := by
  have nonempty : decimal n ≠ [] := Nat.toDigits_ne_nil
  have digits : (decimal n).all Char.isDigit = true :=
    List.all_eq_true.mpr fun c => isDigit_of_mem_decimal
  unfold Text.readDigits?
  rw [digits, ofDigitChars_decimal, List.isEmpty_eq_false_iff.mpr nonempty]
  rfl

theorem isDigit_of_readDigits? {digits : List Char} {n : Nat} (read : Text.readDigits? digits = some n) :
    ∀ c ∈ digits, c.isDigit = true := by
  unfold Text.readDigits? at read
  split at read
  · rename_i decimal
    exact List.all_eq_true.mp (Bool.and_eq_true_iff.mp decimal).2
  · cases read

/-- Digits, with or without a plus sign, are a number below any larger one. -/
theorem readBelow?_of_digits {text digits : List Char} {bound n : Nat}
    (signed : text = digits ∨ text = '+' :: digits) (read : Text.readDigits? digits = some n)
    (small : n < bound) : Text.readBelow? bound text = some n := by
  have value : (Text.readDigits? digits).filter (· < bound) = some n := by
    rw [read]
    simp [small]
  rcases signed with rfl | rfl
  · unfold Text.readBelow?
    split
    · cases read
    · exact value
  · exact value

/-- A number is read without the low lines in it. -/
theorem readNumber_of_digits {bound n : Nat} {text : List Char}
    (read : Text.readDigits? (text.filter (· ≠ '_')) = some n)
    (short : (text.filter (· ≠ '_')).length ≤ ConfigText.maxNumberBytes) (small : n < bound) :
    readNumber bound text = .ok n := by
  have room : ¬ ConfigText.maxNumberBytes < Text.byteLength (text.filter (· ≠ '_')) := by
    rw [Text.byteLength_digits (isDigit_of_readDigits? read), Nat.not_lt]
    exact short
  unfold readNumber
  simp only [room, ↓reduceIte, readBelow?_of_digits (.inl rfl) read small]

theorem filter_decimal (n : Nat) : (decimal n).filter (· ≠ '_') = decimal n := by
  rw [List.filter_eq_self]
  intro c member
  have digit := isDigit_of_mem_decimal member
  simp only [decide_eq_true_eq]
  rintro rfl
  cases digit

theorem readNumber_decimal {bound n : Nat} (small : n < bound) (short : n < 10 ^ 24) :
    readNumber bound (decimal n) = .ok n := by
  refine readNumber_of_digits ?_ ?_ small
  · rw [filter_decimal, readDigits?_decimal]
  · rw [filter_decimal]
    exact (Nat.length_toDigits_le_iff (by decide) (by decide)).mpr short

theorem readFlag_written (b : Bool) : readFlag (ConfigValue.flag b).written = .ok b := by
  cases b <;> rfl

/-- Only zero can be read with a minus sign and without one. -/
theorem readInt64?_nat {text : List Char} {n : Nat} (read : Text.readInt64? text = some (n : Int))
    (positive : 0 < n) : ∃ digits, (text = digits ∨ text = '+' :: digits) ∧
      Text.readDigits? digits = some n := by
  unfold Text.readInt64? at read
  obtain ⟨found, -⟩ := Option.filter_eq_some_iff.mp read
  split at found
  · rename_i digits
    cases digitsRead : Text.readDigits? digits with
    | none => simp [digitsRead] at found
    | some m =>
        simp only [digitsRead, Option.bind_eq_bind, Option.bind_some, Option.pure_def,
          Option.map_some, Option.some.injEq] at found
        omega
  · rename_i digits
    refine ⟨digits, .inr rfl, ?_⟩
    cases digitsRead : Text.readDigits? digits with
    | none => simp [digitsRead] at found
    | some m => simpa [digitsRead, Int.natCast_inj] using found
  · refine ⟨text, .inl rfl, ?_⟩
    cases digitsRead : Text.readDigits? text with
    | none => simp [digitsRead] at found
    | some m => simpa [digitsRead, Int.natCast_inj] using found

/-- How a pin is spelled: a mark if it is inverted, and its number, which may have a sign. -/
structure PinSpelling (text : List Char) (inverted : Bool) (gpio : Nat) : Prop where
  spelled : ∃ number digits, (number = digits ∨ number = '+' :: digits) ∧
    text = (if inverted then ['!'] else []) ++ "gpio".toList ++ number ∧
    Text.readDigits? digits = some gpio

theorem NamesPin.spelling {value : ConfigValue} (names : NamesPin value) :
    ∃ (s : String) (inverted : Bool) (gpio : Nat), value = .text s ∧ gpio < pinCount ∧
      value.pin? = some ⟨gpio, inverted⟩ ∧ PinSpelling s.toList inverted gpio := by
  obtain ⟨s, gpio, rfl, named, small, free⟩ := names
  have positive : 0 < gpio := by
    refine Nat.pos_of_ne_zero ?_
    rintro rfl
    exact free (by decide)
  have read := named
  refine ⟨s, s.toList.head? = some '!', gpio, rfl, small, ?_, ?_⟩
  · simp only [ConfigValue.pin?, named, Option.map_some, Int.toNat_natCast]
  · unfold BoardCheck.pinNumber? at read
    simp only at read
    split at read
    · rename_i name digits spelled
      obtain ⟨unsigned, signed, digitsRead⟩ := readInt64?_nat read positive
      refine ⟨digits, unsigned, signed, ?_, digitsRead⟩
      split at spelled
      · rename_i rest whole
        simp [whole, spelled]
      · rename_i noMark
        simp [spelled]
    · cases read

theorem unquote_quoted (text : List Char) : ConfigText.unquote ('"' :: (text ++ ['"'])) = text := by
  simp [ConfigText.unquote]

/-- The spelling of a pin is read as the pin, with or without quotation marks. -/
theorem readPin_of_spelling {text : List Char} {inverted : Bool} {gpio : Nat}
    (spelling : PinSpelling text inverted gpio) (small : gpio < pinCount) :
    readPin text = .ok ⟨gpio, inverted⟩ ∧
      readPin ('"' :: (text ++ ['"'])) = .ok ⟨gpio, inverted⟩ := by
  obtain ⟨number, digits, signed, rfl, read⟩ := spelling
  unfold readPin
  rw [unquote_quoted]
  cases inverted with
  | false => simp [ConfigText.unquote, ConfigText.afterGpio?, readBelow?_of_digits signed read small]
  | true => simp [ConfigText.unquote, ConfigText.afterGpio?, readBelow?_of_digits signed read small]

theorem readPin_written {value : ConfigValue} (names : NamesPin value) :
    ∃ pin, value.pin? = some pin ∧ readPin value.written = .ok pin := by
  obtain ⟨s, inverted, gpio, rfl, small, named, spelling⟩ := names.spelling
  exact ⟨_, named, (readPin_of_spelling spelling small).2⟩

/-- A single setting. -/
def only (s : Setting) (value : ConfigValue) (t : Setting) : Option ConfigValue :=
  if t = s then some value else none

theorem PinSpelling.solid {text : List Char} {inverted : Bool} {gpio : Nat}
    (spelling : PinSpelling text inverted gpio) : Solid text := by
  obtain ⟨number, digits, signed, rfl, read⟩ := spelling
  refine ⟨by simp, ?_⟩
  have ofMark : ∀ c ∈ (if inverted then ['!'] else []) ++ "gpio".toList, IsSolid c := by
    cases inverted <;> exact forall_mem_of_all (by decide)
  have ofNumber : ∀ c ∈ number, IsSolid c := by
    intro c member
    rcases signed with rfl | rfl
    · exact isSolid_of_isDigit (isDigit_of_readDigits? read c member)
    · rcases List.mem_cons.mp member with rfl | digit
      · decide
      · exact isSolid_of_isDigit (isDigit_of_readDigits? read c digit)
  simp only [List.forall_mem_append] at ofMark ⊢
  exact ⟨ofMark, ofNumber⟩

theorem Solid.quoted {text : List Char} (solid : Solid text) : Solid ('"' :: (text ++ ['"'])) := by
  have quote : IsSolid '"' := by decide
  refine ⟨by simp, ?_⟩
  simp only [List.forall_mem_cons, List.forall_mem_append, List.not_mem_nil, false_implies,
    implies_true, and_true]
  exact ⟨quote, solid.plain, quote⟩

theorem NamesPin.solid {value : ConfigValue} (names : NamesPin value) : Solid value.written := by
  obtain ⟨s, inverted, gpio, rfl, -, -, spelling⟩ := names.spelling
  exact spelling.solid.quoted

theorem NumberIn.solid {low high : Nat} {value : ConfigValue} (inside : NumberIn low high value) :
    Solid value.written := by
  obtain ⟨n, rfl, -⟩ := inside
  exact solid_decimal n

theorem solid_written {s : Setting} {value : ConfigValue} (accepted : s.Accepts value) :
    Solid value.written := by
  cases s with
  | relayPin => exact NamesPin.solid accepted
  | noPin => exact NamesPin.solid accepted
  | ncPin => exact NamesPin.solid accepted
  | sampleHz => exact NumberIn.solid accepted
  | baudrate => exact NumberIn.solid accepted
  | banner =>
      obtain ⟨b, rfl⟩ := accepted
      cases b <;> exact ⟨by decide, forall_mem_of_all (by decide)⟩
  | splashMs => exact NumberIn.solid accepted
  | healthIntervalMs => exact NumberIn.solid accepted
  | storageOffset => exact NumberIn.solid accepted.1

theorem NumberIn.read {low high : Nat} {value : ConfigValue} (inside : NumberIn low high value)
    (bound : Nat) (below : high < bound) (short : high < 10 ^ 24) :
    ∃ n, value.number? = some n ∧ readNumber bound value.written = .ok n := by
  obtain ⟨n, rfl, -, small⟩ := inside
  exact ⟨n, rfl, readNumber_decimal (by omega) (by omega)⟩

/-- What is written behind a key is read as the value of the key. -/
theorem assign_written {s : Setting} {value : ConfigValue} (accepted : s.Accepts value)
    (c : BoardConfig) : assign c s value.written = .ok (c.overlay (only s value)) := by
  cases s with
  | relayPin =>
      obtain ⟨pin, named, read⟩ := readPin_written accepted
      simp [assign, read, BoardConfig.overlay, only, named]
  | noPin =>
      obtain ⟨pin, named, read⟩ := readPin_written accepted
      simp [assign, read, BoardConfig.overlay, only, named]
  | ncPin =>
      obtain ⟨pin, named, read⟩ := readPin_written accepted
      simp [assign, read, BoardConfig.overlay, only, named]
  | sampleHz =>
      obtain ⟨n, value, read⟩ := NumberIn.read accepted UInt16.size (by decide) (by decide)
      simp [assign, read, BoardConfig.overlay, only, value]
  | baudrate =>
      obtain ⟨n, value, read⟩ := NumberIn.read accepted UInt32.size (by decide) (by decide)
      simp [assign, read, BoardConfig.overlay, only, value]
  | banner =>
      obtain ⟨b, rfl⟩ := accepted
      simp [assign, readFlag_written, BoardConfig.overlay, only, ConfigValue.flag?]
  | splashMs =>
      obtain ⟨n, value, read⟩ := NumberIn.read accepted UInt32.size (by decide) (by decide)
      simp [assign, read, BoardConfig.overlay, only, value]
  | healthIntervalMs =>
      obtain ⟨n, value, read⟩ := NumberIn.read accepted UInt32.size (by decide) (by decide)
      simp [assign, read, BoardConfig.overlay, only, value]
  | storageOffset =>
      obtain ⟨n, value, read⟩ := NumberIn.read accepted.1 UInt32.size (by decide) (by decide)
      simp [assign, read, BoardConfig.overlay, only, value]

end values

section files

open ConfigText (Progress)

/-- Sections that there are, with keys that they have and values that these may have. -/
def Layout (entries : List (String × ConfigValue)) : Prop :=
  ∀ entry ∈ entries, ∃ (s : Setting) (inner : List (String × ConfigValue)),
    entry = (s.group, .table inner) ∧
      ∀ line ∈ inner, ∃ t : Setting, t.group = s.group ∧ t.key = line.1 ∧ t.Accepts line.2

theorem Setting.solid_key (s : Setting) : Solid s.key.toList := by
  cases s <;> exact ⟨by decide, forall_mem_of_all (by decide)⟩

theorem Setting.exists_key (s : Setting) :
    ∃ c rest, s.key.toList = c :: rest ∧ c ≠ '#' ∧ c ≠ '[' := by
  cases s <;> exact ⟨_, _, rfl, by decide, by decide⟩

/-- A setting is found by its section and its key. -/
theorem Setting.find?_eq (s : Setting) :
    (all.find? fun t => some t.group == some s.group && t.key == s.key) = some s := by
  cases s <;> decide

theorem take_header (p : Progress) (s : Setting) :
    p.take ("[".toList ++ s.group.toList ++ "]".toList) = .ok { p with group := some s.group } := by
  cases s <;> rfl

/-- A line that is not blank, no comment and no header is taken for a key and its value. -/
theorem take_key_line {line rest : List Char} {c : Char} (visible : Text.trim line = c :: rest)
    (noComment : c ≠ '#') (noHeader : c ≠ '[') (p : Progress) :
    p.take line = match ConfigText.keyValue? (c :: rest) with
      | none => .error .invalidValue
      | some (key, value) =>
        match Setting.all.find? fun s => some s.group == p.group && s.key == String.ofList key with
        | none => .error .unknownKey
        | some setting => do
          let config ← ConfigText.assign p.config setting value
          return { p with config } := by
  unfold Progress.take
  rw [visible]
  split
  · rename_i failed
    cases failed
  · rename_i comment
    exact absurd (List.cons.inj comment).1 noComment
  · rename_i header
    exact absurd (List.cons.inj header).1 noHeader
  · rfl

/-- The line of a key sets what the key is of. -/
theorem take_key {config after : BoardConfig} {s : Setting}
    {line value before behind : List Char} (solid : Solid value) (blank : Text.AllBlank before)
    (alsoBlank : Text.AllBlank behind)
    (visible : Text.trim line = s.key.toList ++ before ++ '=' :: (behind ++ value))
    (assigned : ConfigText.assign config s value = .ok after) :
    Progress.take ⟨config, some s.group⟩ line = .ok ⟨after, some s.group⟩ := by
  have cut := ConfigText.keyValue?_of_solid s.solid_key solid blank alsoBlank
  obtain ⟨c, rest, key, noComment, noHeader⟩ := s.exists_key
  have first : Text.trim line = c :: (rest ++ before ++ '=' :: (behind ++ value)) := by
    rw [visible, key]
    rfl
  rw [take_key_line first noComment noHeader, ← first, visible]
  simp only [cut, String.ofList_toList, s.find?_eq, assigned]
  rfl

theorem take_keyLine (config : BoardConfig) {s : Setting} {value : ConfigValue}
    (accepted : s.Accepts value) :
    Progress.take ⟨config, some s.group⟩ (ConfigValue.keyLine (s.key, value)) =
      .ok ⟨config.overlay (only s value), some s.group⟩ := by
  have solid := solid_written accepted
  have blank : Text.AllBlank [' '] := forall_mem_of_all rfl
  have line : ConfigValue.keyLine (s.key, value) =
      s.key.toList ++ [' '] ++ '=' :: ([' '] ++ value.written) := by
    simp [ConfigValue.keyLine]
  have trimmed : Text.Trimmed (ConfigValue.keyLine (s.key, value)) :=
    s.solid_key.trimmed.append s.solid_key.nonempty _ solid.nonempty solid.trimmed.last
  exact take_key solid blank blank (trimmed.trim.trans line) (assign_written accepted config)

/-- What some keys of a section set. -/
def inSection (group : String) (inner : List (String × ConfigValue)) (s : Setting) :
    Option ConfigValue :=
  if s.group = group then (ConfigValue.table inner).get? s.key else none

theorem ConfigValue.get?_cons (key : String) (entry : String × ConfigValue)
    (rest : List (String × ConfigValue)) : (table (entry :: rest)).get? key =
      if entry.1 = key then some entry.2 else (table rest).get? key := by
  unfold get?
  by_cases same : entry.1 = key
  · simp [same]
  · simp [same]

theorem ConfigValue.get?_none {key : String} {entries : List (String × ConfigValue)}
    (absent : key ∉ entries.map (·.1)) : (table entries).get? key = none := by
  unfold get?
  rw [Option.map_eq_none_iff, List.find?_eq_none]
  intro entry member
  simp only [beq_iff_eq]
  rintro rfl
  exact absent (List.mem_map_of_mem member)

theorem ConfigValue.get?_of_mem {key : String} {value : ConfigValue}
    {entries : List (String × ConfigValue)} (once : KeysOnce entries)
    (member : (key, value) ∈ entries) : (table entries).get? key = some value := by
  induction entries with
  | nil => cases member
  | cons entry rest ih =>
      obtain ⟨fresh, later⟩ := List.nodup_cons.mp once
      rw [get?_cons]
      rcases List.mem_cons.mp member with rfl | among
      · exact if_pos rfl
      · have differs : entry.1 ≠ key := by
          rintro rfl
          exact fresh (List.mem_map.mpr ⟨_, among, rfl⟩)
        rw [if_neg differs]
        exact ih later among

/-- A setting has one place. -/
theorem Setting.place_inj {s t : Setting} (group : s.group = t.group) (key : s.key = t.key) :
    s = t := by
  revert group key
  cases s <;> cases t <;> decide

/-- A line more sets what its key is of, and the other lines do not. -/
theorem inSection_cons {s : Setting} (value : ConfigValue) {rest : List (String × ConfigValue)}
    (fresh : s.key ∉ rest.map (·.1)) :
    (∀ t, only s value t = none ∨ inSection s.group rest t = none) ∧
      (fun t => inSection s.group rest t <|> only s value t) =
        inSection s.group ((s.key, value) :: rest) := by
  have here : inSection s.group rest s = none := by
    rw [inSection, if_pos rfl, ConfigValue.get?_none fresh]
  constructor
  · intro t
    by_cases same : t = s
    · exact .inr (same ▸ here)
    · exact .inl (if_neg same)
  · funext t
    by_cases same : t = s
    · rw [same, here]
      simp [only, inSection, ConfigValue.get?_cons]
    · have differs : t.group = s.group → s.key ≠ t.key :=
        fun group key => same (Setting.place_inj group key.symm)
      simp only [only, same, ↓reduceIte, inSection, ConfigValue.get?_cons]
      by_cases group : t.group = s.group
      · simp [group, differs group]
      · simp [group]

/-- The lines of a section set what its keys are of. -/
theorem foldlM_keyLines (config : BoardConfig) (group : String)
    {inner : List (String × ConfigValue)} (once : KeysOnce inner)
    (known : ∀ line ∈ inner, ∃ s : Setting, s.group = group ∧ s.key = line.1 ∧ s.Accepts line.2) :
    (inner.map ConfigValue.keyLine).foldlM Progress.take ⟨config, some group⟩ =
      .ok ⟨config.overlay (inSection group inner), some group⟩ := by
  induction inner generalizing config with
  | nil =>
      have empty : inSection group [] = fun _ => none := by
        funext s
        simp [inSection, ConfigValue.get?]
      rw [empty, BoardConfig.overlay_none]
      rfl
  | cons line rest ih =>
      obtain ⟨key, value⟩ := line
      obtain ⟨s, rfl, rfl, accepted⟩ := known _ List.mem_cons_self
      obtain ⟨fresh, later⟩ := List.nodup_cons.mp once
      have others := ih (config.overlay (only s value)) later
        fun line member => known line (List.mem_cons_of_mem _ member)
      obtain ⟨apart, both⟩ := inSection_cons value fresh
      rw [List.map_cons, List.foldlM_cons, take_keyLine config accepted]
      exact others.trans (by rw [BoardConfig.overlay_overlay config apart, both])

theorem sectionLines_table (name : String) (inner : List (String × ConfigValue)) :
    ConfigValue.sectionLines (name, .table inner) =
      ("[".toList ++ name.toList ++ "]".toList) :: (inner.map ConfigValue.keyLine ++ [[]]) := rfl

/-- A section more sets what its keys are of, and the other sections do not. -/
theorem setting?_cons {s : Setting} (inner : List (String × ConfigValue))
    {rest : List (String × ConfigValue)} (fresh : s.group ∉ rest.map (·.1)) :
    (∀ t, inSection s.group inner t = none ∨ (ConfigValue.table rest).setting? t = none) ∧
      (fun t => (ConfigValue.table rest).setting? t <|> inSection s.group inner t) =
        (ConfigValue.table ((s.group, .table inner) :: rest)).setting? := by
  have here (t : Setting) (same : t.group = s.group) :
      (ConfigValue.table rest).setting? t = none := by
    rw [ConfigValue.setting?, same, ConfigValue.get?_none fresh]
    rfl
  constructor
  · intro t
    by_cases same : t.group = s.group
    · exact .inr (here t same)
    · exact .inl (if_neg same)
  · funext t
    by_cases same : t.group = s.group
    · rw [here t same]
      simp [ConfigValue.setting?, ConfigValue.get?_cons, inSection, same]
    · have differs : s.group ≠ t.group := fun group => same group.symm
      simp [ConfigValue.setting?, ConfigValue.get?_cons, inSection, same, differs]

/-- The lines of a file set what its keys are of. -/
theorem foldlM_sections (start : Progress) {entries : List (String × ConfigValue)}
    (proper : (ConfigValue.table entries).Proper) (layout : Layout entries) :
    ∃ group, (entries.flatMap ConfigValue.sectionLines).foldlM Progress.take start =
      .ok ⟨start.config.overlay (ConfigValue.table entries).setting?, group⟩ := by
  induction entries generalizing start with
  | nil => exact ⟨start.group, rfl⟩
  | cons entry rest ih =>
      obtain ⟨s, inner, rfl, known⟩ := layout _ List.mem_cons_self
      obtain ⟨fresh, later⟩ := List.nodup_cons.mp proper.1
      have once : KeysOnce inner := proper.2 _ _ List.mem_cons_self
      obtain ⟨group, others⟩ := ih ⟨start.config.overlay (inSection s.group inner), some s.group⟩
        ⟨later, fun name table member => proper.2 name table (List.mem_cons_of_mem _ member)⟩
        fun entry member => layout entry (List.mem_cons_of_mem _ member)
      obtain ⟨apart, both⟩ := setting?_cons inner fresh
      have keys : (inner.map ConfigValue.keyLine ++ [[]]).foldlM Progress.take
          ⟨start.config, some s.group⟩ =
            .ok ⟨start.config.overlay (inSection s.group inner), some s.group⟩ := by
        rw [List.foldlM_append, foldlM_keyLines start.config s.group once known]
        rfl
      refine ⟨group, ?_⟩
      rw [List.flatMap_cons, sectionLines_table, List.cons_append, List.foldlM_cons, bind_eq_ok_iff]
      refine ⟨_, take_header start s, ?_⟩
      rw [List.foldlM_append, bind_eq_ok_iff]
      refine ⟨_, keys, ?_⟩
      rw [others, BoardConfig.overlay_overlay _ apart, both]

theorem Solid.unbroken {text : List Char} (solid : Solid text) : ∀ c ∈ text, c ≠ '\n' ∧ c ≠ '\r' := by
  intro c member
  have visible := (solid.plain c member).1
  constructor
  · rintro rfl
    cases visible
  · rintro rfl
    cases visible

/-- No line of a file has the end of a line in it. -/
theorem unbroken_sections {entries : List (String × ConfigValue)} (layout : Layout entries) :
    ∀ line ∈ entries.flatMap ConfigValue.sectionLines, ∀ c ∈ line, c ≠ '\n' ∧ c ≠ '\r' := by
  intro line member
  obtain ⟨entry, among, inside⟩ := List.mem_flatMap.mp member
  obtain ⟨s, inner, rfl, known⟩ := layout entry among
  rw [sectionLines_table] at inside
  simp only [List.mem_cons, List.mem_append, List.mem_map, List.not_mem_nil, or_false] at inside
  rcases inside with rfl | ⟨⟨key, value⟩, among, rfl⟩ | rfl
  · cases s <;> exact forall_mem_of_all (by decide)
  · obtain ⟨t, -, rfl, accepted⟩ := known _ among
    have equals : ∀ c ∈ " = ".toList, c ≠ '\n' ∧ c ≠ '\r' := forall_mem_of_all (by decide)
    simp only [ConfigValue.keyLine, List.forall_mem_append]
    exact ⟨⟨t.solid_key.unbroken, equals⟩, (solid_written accepted).unbroken⟩
  · nofun

/-- A file reads as the board that its configuration stands for if that board can be run. -/
theorem BoardConfig.ofText_file {entries : List (String × ConfigValue)}
    (proper : (ConfigValue.table entries).Proper) (layout : Layout entries) :
    BoardConfig.ofText (ConfigValue.table entries).file =
      (ConfigValue.table entries).board.validate.map fun _ => (ConfigValue.table entries).board := by
  obtain ⟨group, read⟩ := foldlM_sections {} proper layout
  unfold BoardConfig.ofText BoardConfig.ofChars
  rw [ConfigValue.file, String.toList_ofList, Text.lines_of_lines (unbroken_sections layout), read]
  change (do
    (ConfigValue.table entries).board.validate
    return (ConfigValue.table entries).board) = _
  cases (ConfigValue.table entries).board.validate <;> rfl

end files

end RelayTimer
