import RelayTimer.Proofs.WholeReplies

set_option autoImplicit false

/-!
What comes of the bytes that are typed: the lines that the console is given, and what a terminal
shows of the line that is not complete. Both are read off the stream of bytes alone, without the
line editor.
-/
namespace RelayTimer

namespace LineEditor

/-! ## Lines of a stream -/

/-- A byte, but a line feed for each byte that ends a line. -/
def unifiedByte (byte : UInt8) : UInt8 := if byte = carriageReturn then lineFeed else byte

/-- The stream with a line feed for each end of a line: a carriage return and a line feed right behind
it are one. -/
def unified : List UInt8 → List UInt8
  | [] => []
  | [byte] => [unifiedByte byte]
  | first :: second :: rest =>
    if first = carriageReturn ∧ second = lineFeed then lineFeed :: unified rest
    else unifiedByte first :: unified (second :: rest)

/-- The lines of a stream, the last of them the one that is not complete. -/
def streamLines (bytes : List UInt8) : List (List UInt8) := (unified bytes).splitOn lineFeed

/-- The byte can be printed or erases; all others are dropped. -/
def isEditing (byte : UInt8) : Bool := isPrintable byte || isErasing byte

/-- The text after one more byte of those: a character is removed, if there is one, or added, if there
is room. -/
def edited (text : List Char) (byte : UInt8) : List Char :=
  if isErasing byte then text.dropLast
  else if text.length < Console.maxLineBytes then text ++ [Char.ofNat byte.toNat]
  else text

/-- The text that a line amounts to. -/
def kept (line : List UInt8) : List Char := (line.filter isEditing).foldl edited []

theorem unified_pair (rest : List UInt8) :
    unified (carriageReturn :: lineFeed :: rest) = lineFeed :: unified rest := if_pos ⟨rfl, rfl⟩

theorem unified_cons {first second : UInt8} (apart : ¬ (first = carriageReturn ∧ second = lineFeed))
    (rest : List UInt8) :
    unified (first :: second :: rest) = unifiedByte first :: unified (second :: rest) := if_neg apart

/-- A line feed right behind a carriage return adds nothing. -/
theorem unified_concat (bytes : List UInt8) (byte : UInt8) : unified (bytes ++ [byte]) =
    unified bytes ++ if byte = lineFeed ∧ bytes.getLast? = some carriageReturn then []
      else [unifiedByte byte] := by
  induction bytes using unified.induct with
  | case1 => simp [unified]
  | case2 first =>
      by_cases pair : first = carriageReturn ∧ byte = lineFeed
      · obtain ⟨rfl, rfl⟩ := pair
        rfl
      · rw [List.singleton_append, unified_cons pair, if_neg fun both =>
          pair ⟨Option.some.inj both.2, both.1⟩]
        rfl
  | case3 first second rest pair ih =>
      obtain ⟨rfl, rfl⟩ := pair
      -- The line feed that ends the pair may be last, but it is no carriage return.
      have last : (carriageReturn :: lineFeed :: rest).getLast? = some carriageReturn ↔
          rest.getLast? = some carriageReturn := by
        cases rest with
        | nil => decide
        | cons next others => rw [List.getLast?_cons_cons, List.getLast?_cons_cons]
      rw [List.cons_append, List.cons_append, unified_pair, unified_pair, ih, List.cons_append]
      simp only [last]
  | case4 first second rest pair ih =>
      rw [List.cons_append] at ih
      rw [List.cons_append, List.cons_append, unified_cons pair, unified_cons pair, ih,
        List.cons_append, List.getLast?_cons_cons]

theorem splitOn_concat_separator (bytes : List UInt8) (separator : UInt8) :
    (bytes ++ [separator]).splitOn separator = bytes.splitOn separator ++ [[]] :=
  List.splitOnP_append_cons bytes [] (beq_self_eq_true separator)

/-- What is behind the last separator grows. -/
theorem splitOn_concat {bytes last : List UInt8} {lines : List (List UInt8)} {separator byte : UInt8}
    (cuts : bytes.splitOn separator = lines ++ [last]) (apart : byte ≠ separator) :
    (bytes ++ [byte]).splitOn separator = lines ++ [last ++ [byte]] := by
  unfold List.splitOn at cuts ⊢
  induction bytes generalizing lines last with
  | nil =>
      rw [List.splitOnP_nil] at cuts
      have one : [] ++ [[]] = lines ++ [last] := cuts
      obtain ⟨rfl, rfl⟩ := List.append_singleton_inj.mp one
      simp [List.splitOnP_cons_eq_if_modifyHead, apart]
  | cons first rest ih =>
      obtain ⟨front, final, whole⟩ : ∃ front final,
          rest.splitOnP (· == separator) = front ++ [final] := by
        rcases List.eq_nil_or_concat (rest.splitOnP (· == separator)) with none | ⟨front, final, whole⟩
        · exact absurd none (List.splitOnP_ne_nil _ _)
        · exact ⟨front, final, whole.trans List.concat_eq_append⟩
      have later := ih whole
      rw [List.splitOnP_cons_eq_if_modifyHead, whole] at cuts
      rw [List.cons_append, List.splitOnP_cons_eq_if_modifyHead, later]
      by_cases ends : (first == separator) = true
      · rw [if_pos ends, ← List.cons_append] at cuts
        rw [if_pos ends]
        obtain ⟨rfl, rfl⟩ := List.append_singleton_inj.mp cuts
        rfl
      · rw [if_neg ends] at cuts ⊢
        cases front with
        | nil =>
            have one : [] ++ [first :: final] = lines ++ [last] := cuts
            obtain ⟨rfl, rfl⟩ := List.append_singleton_inj.mp one
            rfl
        | cons line others =>
            have more : ((first :: line) :: others) ++ [final] = lines ++ [last] := cuts
            obtain ⟨rfl, rfl⟩ := List.append_singleton_inj.mp more
            rfl

theorem kept_concat (line : List UInt8) (byte : UInt8) : kept (line ++ [byte]) =
    if isEditing byte then edited (kept line) byte else kept line := by
  unfold kept
  rw [List.filter_append, List.foldl_append]
  split
  · rename_i counts
    rw [List.filter_cons_of_pos counts]
    rfl
  · rename_i dropped
    rw [List.filter_cons_of_neg dropped]
    rfl

end LineEditor

/-! ## The terminal -/

/-- The row of a terminal in which the cursor is. -/
structure Terminal where
  cells : Nat → Char := fun _ => ' '
  /-- Where the next character appears. -/
  column : Nat := 0

namespace Terminal

/-- A character comes in: it appears, the cursor goes back, or the bell rings. -/
def put (t : Terminal) (c : Char) : Terminal :=
  if c = '\x08' then { t with column := t.column - 1 }
  else if c = '\x07' then t
  else { cells := Function.update t.cells t.column c, column := t.column + 1 }

def write (t : Terminal) (text : String) : Terminal := text.toList.foldl put t

/-- The text is in front of the cursor, and nothing is behind it. -/
structure Shows (t : Terminal) (text : List Char) : Prop where
  text : (List.range t.column).map t.cells = text
  blank : ∀ i, t.column ≤ i → t.cells i = ' '

variable {t : Terminal} {text : List Char} {c : Char}

/-- The character has a place of its own. -/
def IsVisible (c : Char) : Prop := c ≠ '\x08' ∧ c ≠ '\x07'

instance (c : Char) : Decidable (IsVisible c) := inferInstanceAs (Decidable (_ ∧ _))

theorem shows_empty : Shows {} [] := ⟨rfl, fun _ _ => rfl⟩

theorem write_append (t : Terminal) (first second : String) :
    t.write (first ++ second) = (t.write first).write second := by
  rw [write, String.toList_append, List.foldl_append]
  rfl

theorem Shows.put (shows : t.Shows text) (visible : IsVisible c) : (t.put c).Shows (text ++ [c]) := by
  have placed : t.put c = { cells := Function.update t.cells t.column c, column := t.column + 1 } := by
    rw [Terminal.put, if_neg visible.1, if_neg visible.2]
  rw [placed]
  constructor
  · have before : (List.range t.column).map (Function.update t.cells t.column c) = text := by
      rw [← shows.text]
      refine List.map_congr_left fun i member => Function.update_of_ne ?_ _ _
      exact Nat.ne_of_lt (List.mem_range.mp member)
    rw [List.range_succ, List.map_append, before]
    exact congrArg (text ++ [·]) (Function.update_self ..)
  · intro i behind
    have apart : i ≠ t.column := by
      dsimp only at behind
      omega
    exact (Function.update_of_ne apart _ _).trans (shows.blank i (by dsimp only at behind; omega))

theorem Shows.write (shows : t.Shows text) {more : List Char} (visible : ∀ c ∈ more, IsVisible c) :
    (t.write (String.ofList more)).Shows (text ++ more) := by
  unfold Terminal.write
  rw [String.toList_ofList]
  induction more generalizing t text with
  | nil => rwa [List.append_nil]
  | cons c rest ih =>
      have next := ih (shows.put (visible c List.mem_cons_self))
        fun other member => visible other (List.mem_cons_of_mem _ member)
      rwa [List.append_assoc] at next

/-- Back, over it, and back again: the last character is gone. -/
theorem Shows.rubOut (shows : t.Shows (text ++ [c])) : (t.write LineEditor.rubOut).Shows text := by
  have column : t.column = text.length + 1 := by
    have length := congrArg List.length shows.text
    rwa [List.length_map, List.length_range, List.length_append, List.length_singleton] at length
  have erased : t.write LineEditor.rubOut =
      { cells := Function.update t.cells (t.column - 1) ' ', column := t.column - 1 } := rfl
  have before := shows.text
  rw [column, List.range_succ, List.map_append] at before
  rw [erased, column, Nat.add_sub_cancel]
  constructor
  · refine (List.map_congr_left fun i member => ?_).trans (List.append_singleton_inj.mp before).1
    exact Function.update_of_ne (Nat.ne_of_lt (List.mem_range.mp member)) _ _
  · intro i behind
    by_cases here : i = text.length
    · rw [here]
      exact Function.update_self ..
    · change Function.update t.cells text.length ' ' i = ' '
      rw [Function.update_of_ne here]
      exact shows.blank i (by dsimp only at behind; omega)

theorem Shows.bell (shows : t.Shows text) : (t.write LineEditor.bell).Shows text := shows

end Terminal

namespace LineEditor

open Terminal (IsVisible)

theorem toNat_ofNat_byte (byte : UInt8) : (Char.ofNat byte.toNat).toNat = byte.toNat := by
  have small : byte.toNat < 0xD800 := Nat.lt_trans byte.toNat_lt (by decide)
  rw [Char.ofNat, dif_pos (.inl small)]
  rfl

theorem toNat_of_isPrintable {byte : UInt8} (prints : isPrintable byte = true) :
    0x20 ≤ byte.toNat ∧ byte.toNat ≤ 0x7E := by
  have bounds : 0x20 ≤ byte ∧ byte ≤ 0x7E := of_decide_eq_true prints
  exact ⟨UInt8.le_iff_toNat_le.mp bounds.1, UInt8.le_iff_toNat_le.mp bounds.2⟩

/-! ## What the console makes of a stream -/

/-- The editor in the hands of the console: the lines that were complete, and what has been sent
since the last prompt. -/
structure Typing where
  editor : LineEditor := {}
  lines : List (List Char) := []
  echoed : String := ""

namespace Typing

/-- Takes a byte. The editor is cleared when a line is complete. -/
def take (t : Typing) (byte : UInt8) : Typing :=
  let (edit, editor) := t.editor.feed byte
  match edit with
  | .echo text => { t with editor, echoed := t.echoed ++ text }
  | .submit => { editor := editor.clear, lines := t.lines ++ [editor.line] }
  | .ignore => { t with editor }

/-- The row of the terminal from the last prompt on. -/
def row (t : Typing) : Terminal := Terminal.write {} (Console.prompt ++ t.echoed)

/-- The terminal shows the line of the editor behind the prompt. -/
def InStep (t : Typing) : Prop := t.row.Shows (Console.prompt.toList ++ t.editor.line)

variable {t : Typing} {byte : UInt8}

theorem inStep_prompt (t : Typing) (empty : t.editor.line = []) (fresh : t.echoed = "") :
    t.InStep := by
  have visible : Console.prompt.toList.all fun c => IsVisible c := by decide
  have visible : ∀ c ∈ Console.prompt.toList, IsVisible c :=
    fun c member => of_decide_eq_true (List.all_eq_true.mp visible c member)
  have shows := Terminal.shows_empty.write visible
  unfold InStep row
  rw [empty, fresh, List.append_nil, String.append_empty]
  rwa [String.ofList_toList] at shows

theorem isVisible_of_isPrintable (prints : isPrintable byte = true) :
    IsVisible (Char.ofNat byte.toNat) := by
  have low := (toNat_of_isPrintable prints).1
  have value := toNat_ofNat_byte byte
  constructor
  · intro back
    rw [back] at value
    change 8 = byte.toNat at value
    omega
  · intro rings
    rw [rings] at value
    change 7 = byte.toNat at value
    omega

/-- A line feed right behind a carriage return is passed over. -/
theorem take_pair (after : t.editor.afterReturn = true) : t.take lineFeed =
    { t with editor := { t.editor with afterReturn := false } } := by
  have fed : t.editor.feed lineFeed = (.ignore, { t.editor with afterReturn := false }) :=
    if_pos ⟨rfl, after⟩
  rw [take, fed]

/-- The line is complete. -/
theorem take_end (ends : byte = carriageReturn ∨ byte = lineFeed)
    (apart : ¬ (byte = lineFeed ∧ t.editor.afterReturn = true)) : t.take byte =
      { editor := { afterReturn := byte = carriageReturn }, lines := t.lines ++ [t.editor.line] } := by
  have fed : t.editor.feed byte = (.submit, { t.editor with afterReturn := byte = carriageReturn }) :=
    (if_neg apart).trans (if_pos ends)
  rw [take, fed]
  rfl

/-- A line is complete as it is. -/
theorem line_of_submit {e after : LineEditor} (fed : e.feed byte = (.submit, after)) :
    after.line = e.line := by
  unfold feed at fed
  dsimp only at fed
  repeat' split at fed
  all_goals cases fed
  rfl

/-- What a byte does that ends no line. -/
theorem feed_body (inside : ¬ (byte = carriageReturn ∨ byte = lineFeed)) (e : LineEditor) :
    e.feed byte =
      if isErasing byte then
        if e.line.isEmpty then (.ignore, ⟨e.line, false⟩)
        else (.echo rubOut, ⟨e.line.dropLast, false⟩)
      else if isPrintable byte then
        if e.line.length < Console.maxLineBytes then
          (.echo (String.singleton (Char.ofNat byte.toNat)),
            ⟨e.line ++ [Char.ofNat byte.toNat], false⟩)
        else (.echo bell, ⟨e.line, false⟩)
      else (.ignore, ⟨e.line, false⟩) := by
  obtain ⟨notReturn, notFeed⟩ := not_or.mp inside
  have forgets : decide (byte = carriageReturn) = false := decide_eq_false notReturn
  unfold feed
  rw [if_neg fun pair => notFeed pair.1, if_neg inside, forgets]

/-- The line that is not complete is edited, and the terminal keeps step with it. -/
structure Edits (t after : Typing) (line : List Char) : Prop where
  lines : after.lines = t.lines
  editor : after.editor = ⟨line, false⟩
  inStep : after.InStep

theorem edits_ignore (inStep : t.InStep)
    (fed : t.editor.feed byte = (.ignore, ⟨t.editor.line, false⟩)) :
    t.Edits (t.take byte) t.editor.line := by
  have taken : t.take byte = { t with editor := ⟨t.editor.line, false⟩ } := by rw [take, fed]
  rw [taken]
  exact ⟨rfl, rfl, inStep⟩

theorem edits_echo {text : String} {line : List Char}
    (shows : (t.row.write text).Shows (Console.prompt.toList ++ line))
    (fed : t.editor.feed byte = (.echo text, ⟨line, false⟩)) : t.Edits (t.take byte) line := by
  have taken : t.take byte = { t with editor := ⟨line, false⟩, echoed := t.echoed ++ text } := by
    rw [take, fed]
  have row : (t.take byte).row = t.row.write text := by
    rw [taken, Typing.row, Typing.row, ← String.append_assoc, Terminal.write_append]
  refine ⟨by rw [taken], by rw [taken], ?_⟩
  unfold InStep
  rwa [row, taken]

theorem edits_body (inside : ¬ (byte = carriageReturn ∨ byte = lineFeed)) (inStep : t.InStep) :
    t.Edits (t.take byte)
      (if isEditing byte then edited t.editor.line byte else t.editor.line) := by
  have fed := feed_body inside t.editor
  unfold isEditing edited
  by_cases erases : isErasing byte = true
  · rw [erases, Bool.or_true, if_pos rfl, if_pos rfl]
    rw [if_pos erases] at fed
    rcases List.eq_nil_or_concat t.editor.line with empty | ⟨front, c, filled⟩
    · rw [empty, List.dropLast_nil, ← empty]
      exact edits_ignore inStep (fed.trans (if_pos (List.isEmpty_iff.mpr empty)))
    · rw [List.concat_eq_append] at filled
      have nonempty : ¬ (t.editor.line.isEmpty = true) := by simp [filled]
      refine edits_echo ?_ (fed.trans (if_neg nonempty))
      unfold InStep at inStep
      rw [filled, ← List.append_assoc] at inStep
      rw [filled, List.dropLast_concat]
      exact inStep.rubOut
  · rw [if_neg erases] at fed ⊢
    rw [Bool.eq_false_of_not_eq_true erases, Bool.or_false]
    by_cases prints : isPrintable byte = true
    · rw [if_pos prints] at fed ⊢
      by_cases room : t.editor.line.length < Console.maxLineBytes
      · rw [if_pos room] at fed ⊢
        refine edits_echo ?_ fed
        rw [← List.append_assoc]
        exact inStep.write (List.forall_mem_singleton.mpr (isVisible_of_isPrintable prints))
      · rw [if_neg room] at fed ⊢
        exact edits_echo inStep.bell fed
    · rw [if_neg prints] at fed ⊢
      exact edits_ignore inStep fed

/-! ## Every stream -/

def ofBytes (bytes : List UInt8) : Typing := bytes.foldl take {}

theorem ofBytes_concat (bytes : List UInt8) (byte : UInt8) :
    ofBytes (bytes ++ [byte]) = (ofBytes bytes).take byte := by
  rw [ofBytes, List.foldl_append]
  rfl

/-- What has been made of a stream. -/
structure Follows (t : Typing) (bytes : List UInt8) : Prop where
  afterReturn : t.editor.afterReturn = true ↔ bytes.getLast? = some carriageReturn
  /-- The line that is not complete is the last one of the stream. -/
  lines : ∃ complete last, streamLines bytes = complete ++ [last] ∧
    t.lines = complete.map kept ∧ t.editor.line = kept last
  inStep : t.InStep

theorem follows_nil : Follows {} [] :=
  ⟨⟨nofun, nofun⟩, ⟨[], [], rfl, rfl, rfl⟩, inStep_prompt {} rfl rfl⟩

theorem Follows.take {bytes : List UInt8} (follows : t.Follows bytes) (byte : UInt8) :
    (t.take byte).Follows (bytes ++ [byte]) := by
  obtain ⟨complete, last, cuts, lines, line⟩ := follows.lines
  have grown := unified_concat bytes byte
  by_cases ends : byte = carriageReturn ∨ byte = lineFeed
  · by_cases pair : byte = lineFeed ∧ t.editor.afterReturn = true
    · obtain ⟨rfl, after⟩ := pair
      rw [if_pos ⟨rfl, follows.afterReturn.mp after⟩, List.append_nil] at grown
      rw [take_pair after]
      refine ⟨?_, ⟨complete, last, ?_, lines, line⟩, follows.inStep⟩
      · rw [List.getLast?_concat]
        exact ⟨nofun, fun same => absurd (Option.some.inj same) (by decide)⟩
      · rwa [streamLines, grown]
    · have feed : unifiedByte byte = lineFeed := by
        rcases ends with rfl | rfl <;> rfl
      rw [if_neg (by rwa [← follows.afterReturn]), feed] at grown
      rw [take_end ends pair]
      refine ⟨?_, ⟨complete ++ [last], [], ?_, ?_, rfl⟩, inStep_prompt _ rfl rfl⟩
      · rw [List.getLast?_concat, Option.some_inj]
        exact decide_eq_true_iff
      · rw [streamLines, grown, splitOn_concat_separator]
        exact congrArg (· ++ [[]]) cuts
      · rw [List.map_append, List.map_singleton, ← lines, ← line]
  · obtain ⟨notReturn, notFeed⟩ := not_or.mp ends
    have same : unifiedByte byte = byte := if_neg notReturn
    rw [if_neg fun pair => notFeed pair.1, same] at grown
    obtain ⟨kept_lines, editor, inStep⟩ := edits_body ends follows.inStep
    refine ⟨?_, ⟨complete, last ++ [byte], ?_, kept_lines.trans lines, ?_⟩, inStep⟩
    · rw [editor, List.getLast?_concat, Option.some_inj]
      exact ⟨nofun, fun returns => absurd returns notReturn⟩
    · rw [streamLines, grown]
      exact splitOn_concat cuts notFeed
    · rw [editor, kept_concat, line]

theorem follows_ofBytes (bytes : List UInt8) : (ofBytes bytes).Follows bytes := by
  induction bytes using List.reverseRecOn with
  | nil => exact follows_nil
  | append_singleton bytes byte ih =>
      rw [ofBytes_concat]
      exact ih.take byte

/-- The line editor and the terminal agree. Whatever bytes are typed, the lines that the console is
given, and the one that is not complete, are those of the stream, without what is dropped, with what
is erased removed, and as long as there is room; and the terminal shows the line that is not complete
behind the prompt. -/
theorem lines_and_row (bytes : List UInt8) :
    (ofBytes bytes).lines ++ [(ofBytes bytes).editor.line] = (streamLines bytes).map kept ∧
    (ofBytes bytes).row.Shows (Console.prompt.toList ++ (ofBytes bytes).editor.line) := by
  obtain ⟨-, ⟨complete, last, cuts, lines, line⟩, inStep⟩ := follows_ofBytes bytes
  refine ⟨?_, inStep⟩
  rw [cuts, List.map_append, List.map_singleton, ← lines, ← line]

/-- A byte that comes between them, though it is dropped, makes a carriage return and a line feed the
ends of two lines. -/
example : (ofBytes [0x61, 0x0D, 0x0A, 0x62, 0x0D, 0x00, 0x0A, 0x63]).lines = [['a'], ['b'], []] := by
  decide

end Typing

/-! ## Room for what is typed -/

theorem utf8Size_of_isPrintable {byte : UInt8} (prints : isPrintable byte = true) :
    (Char.ofNat byte.toNat).utf8Size = 1 := by
  have high := (toNat_of_isPrintable prints).2
  rw [Char.utf8Size_eq_one_iff, UInt32.le_iff_toNat_le]
  change (Char.ofNat byte.toNat).toNat ≤ 127
  rw [toNat_ofNat_byte]
  omega

theorem narrow_edited {text : List Char} {byte : UInt8} (editing : isEditing byte = true)
    (narrow : ∀ c ∈ text, c.utf8Size = 1) : ∀ c ∈ edited text byte, c.utf8Size = 1 := by
  unfold edited
  split
  · exact fun c member => narrow c ((List.dropLast_sublist text).subset member)
  · rename_i keeps
    have prints : isPrintable byte = true := (Bool.or_eq_true_iff.mp editing).resolve_right keeps
    split
    · intro c member
      rcases List.mem_append.mp member with earlier | last
      · exact narrow c earlier
      · rw [List.mem_singleton.mp last]
        exact utf8Size_of_isPrintable prints
    · exact narrow

theorem length_edited_le {text : List Char} (short : text.length ≤ Console.maxLineBytes)
    (byte : UInt8) : (edited text byte).length ≤ Console.maxLineBytes := by
  unfold edited
  split
  · rw [List.length_dropLast]
    omega
  · split
    · rw [List.length_append, List.length_singleton]
      omega
    · exact short

/-- What is kept of a line is not too long to be processed. -/
theorem kept_fits (line : List UInt8) :
    (String.ofList (kept line)).utf8ByteSize ≤ Console.maxLineBytes := by
  have kept : (∀ c ∈ kept line, c.utf8Size = 1) ∧ (kept line).length ≤ Console.maxLineBytes := by
    induction line using List.reverseRecOn with
    | nil => exact ⟨nofun, Nat.zero_le _⟩
    | append_singleton line byte ih =>
        rw [kept_concat]
        split
        · rename_i editing
          exact ⟨narrow_edited editing ih.1, length_edited_le ih.2 byte⟩
        · exact ih
  rw [Text.utf8ByteSize_ofList, Text.byteLength_of_narrow kept.1]
  exact kept.2

end LineEditor

namespace Firmware

open LineEditor

/-- The console and the engine after a line, when what was published has been taken to where it
belongs. -/
def processed (state : Console × Engine FlashStore) (line : List Char) : Console × Engine FlashStore :=
  let d : Desk FlashStore := { console := state.1, engine := state.2 }
  let d := (Desk.process (String.ofList line) d).2
  (d.console, d.engine.onBoard fun b => { b with published := [] })

/-- A line that is not too long is processed, and all of the answer and a prompt are sent. -/
structure Submitted (f after : Firmware) : Prop where
  editor : after.editor = f.editor.clear
  processed : (after.console, after.engine) = processed (f.console, f.engine) f.editor.line
  sent : ∃ reply, after.sent = f.sent ++ "\r\n" ++ reply ++ Console.prompt

theorem submitted_submitLine (f : Firmware)
    (fits : (String.ofList f.editor.line).utf8ByteSize ≤ Console.maxLineBytes) :
    f.Submitted f.submitLine := by
  obtain ⟨after, whole, submitted⟩ := f.submitLine_whole fits
  obtain ⟨display, log, routed⟩ := (f.leaveDesk after).routed_deliver.others
  have done : processed (f.console, f.engine) f.editor.line =
      (after.console, after.engine.onBoard fun b => { b with published := [] }) :=
    congrArg (fun d : _ × Desk FlashStore =>
      (d.2.console, d.2.engine.onBoard fun b => { b with published := [] })) whole
  rw [submitted]
  refine ⟨?_, ?_, after.output.text, ?_⟩
  · rw [routed]
    rfl
  · rw [routed, done]
    rfl
  · rw [routed]
    exact String.append_assoc.symm

/-- The console of a board has taken a stream: its lines have been processed one after another, and
what has been sent since the last prompt keeps the terminal in step. -/
structure Typed (start f : Firmware) (t : Typing) : Prop where
  editor : f.editor = t.editor
  processed : (f.console, f.engine) = t.lines.foldl processed (start.console, start.engine)
  sent : ∃ before, f.sent = before ++ Console.prompt ++ t.echoed

theorem Typed.receive {start f : Firmware} {t : Typing} (typed : start.Typed f t)
    {bytes : List UInt8} (follows : t.Follows bytes) (byte : UInt8) :
    start.Typed (f.receive (.byte byte)) (t.take byte) := by
  obtain ⟨before, sent⟩ := typed.sent
  unfold Firmware.receive Typing.take
  dsimp only
  rw [typed.editor]
  cases fed : t.editor.feed byte with
  | mk edit editor =>
      cases edit with
      | ignore => exact ⟨rfl, typed.processed, before, sent⟩
      | echo text =>
          refine ⟨rfl, typed.processed, before, ?_⟩
          change f.sent ++ text = before ++ Console.prompt ++ (t.echoed ++ text)
          rw [sent, String.append_assoc]
      | submit =>
          obtain ⟨complete, last, -, -, line⟩ := follows.lines
          have fits := kept_fits last
          rw [← line, ← Typing.line_of_submit fed] at fits
          obtain ⟨cleared, done, reply, told⟩ := submitted_submitLine { f with editor } fits
          refine ⟨cleared, ?_, f.sent ++ "\r\n" ++ reply, ?_⟩
          · rw [List.foldl_append, ← typed.processed]
            exact done
          · exact told.trans String.append_empty.symm

/-- The lines of whatever a board receives are processed, one after another and each of them whole,
and what it sends keeps the terminal in step with its editor. -/
theorem typed_receive (f : Firmware) (fresh : f.editor = {})
    (prompted : ∃ before, f.sent = before ++ Console.prompt) (bytes : List UInt8) :
    f.Typed ((bytes.map Received.byte).foldl receive f) (.ofBytes bytes) := by
  induction bytes using List.reverseRecOn with
  | nil =>
      obtain ⟨before, sent⟩ := prompted
      exact ⟨fresh, rfl, before, sent.trans String.append_empty.symm⟩
  | append_singleton bytes byte ih =>
      rw [List.map_append, List.foldl_append, Typing.ofBytes_concat]
      exact ih.receive (Typing.follows_ofBytes bytes) byte

end Firmware

end RelayTimer
