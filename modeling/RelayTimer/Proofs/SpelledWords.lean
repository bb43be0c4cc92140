import RelayTimer.Proofs.ProgramGrammar
import RelayTimer.Request.Reader

set_option autoImplicit false

/-!
A token is read as what it spells: a time that can be counted, or an action.
-/
namespace RelayTimer

open Text (Token)

variable {t : Token}

theorem unitMs?_eq_some_iff {suffix : List Char} {scale : Nat} :
    unitMs? suffix = some scale ↔ (suffix, scale) ∈ timeUnits := by
  unfold unitMs?
  constructor
  · intro known
    split at known <;> cases known <;> decide
  · intro listed
    simp only [timeUnits, List.mem_cons, Prod.mk.injEq, List.not_mem_nil, or_false] at listed
    rcases listed with ⟨rfl, rfl⟩ | ⟨rfl, rfl⟩ | ⟨rfl, rfl⟩ | ⟨rfl, rfl⟩ | ⟨rfl, rfl⟩ <;> rfl

/-- No unit begins with a digit, and each stands for some time. -/
theorem of_mem_timeUnits {suffix : List Char} {scale : Nat} (listed : (suffix, scale) ∈ timeUnits) :
    0 < scale ∧ ∀ c ∈ suffix.head?, c.isDigit = false := by
  simp only [timeUnits, List.mem_cons, Prod.mk.injEq, List.not_mem_nil, or_false] at listed
  rcases listed with ⟨rfl, rfl⟩ | ⟨rfl, rfl⟩ | ⟨rfl, rfl⟩ | ⟨rfl, rfl⟩ | ⟨rfl, rfl⟩ <;>
    simp [msPerHour, msPerMinute, msPerSecond]

theorem digits_append_suffix (t : Token) : t.digits ++ t.suffix = t.chars :=
  List.takeWhile_append_dropWhile

/-- A token is cut where its digits end. -/
theorem of_chars_eq {digits suffix : List Char} (whole : t.chars = digits ++ suffix)
    (decimal : ∀ c ∈ digits, c.isDigit = true) (ends : ∀ c ∈ suffix.head?, c.isDigit = false) :
    t.digits = digits ∧ t.suffix = suffix := by
  have undigited : suffix.takeWhile Char.isDigit = [] ∧ suffix.dropWhile Char.isDigit = suffix := by
    cases suffix with
    | nil => exact ⟨rfl, rfl⟩
    | cons c rest => simp [ends c rfl]
  unfold Token.digits Token.suffix
  rw [whole, List.takeWhile_append_of_pos decimal, List.dropWhile_append_of_pos decimal, undigited.1,
    undigited.2, List.append_nil]
  exact ⟨rfl, rfl⟩

/-- A token reads as a time if it spells one that can be counted. -/
theorem readDelay_some_iff (ms : UInt32) :
    readDelay t = .ok (some ms) ↔ Spells t.chars (.time ms.toNat) := by
  constructor
  · intro reads
    unfold readDelay at reads
    split at reads
    · cases reads
    · rename_i nonempty
      split at reads
      · cases reads
      · split at reads
        · cases reads
        · rename_i scale unit
          split at reads
          · rename_i small
            cases reads
            have spelled : Spells (t.digits ++ t.suffix) (.time (t.number * scale)) :=
              .time (fun empty => nonempty (by simp [empty]))
                (fun c member => List.all_eq_true.mp List.all_takeWhile c member)
                (unitMs?_eq_some_iff.mp unit)
            rw [digits_append_suffix] at spelled
            rw [UInt32.toNat_ofNat_of_lt' small]
            exact spelled
          · cases reads
  · intro spelled
    generalize whole : t.chars = word at spelled
    generalize worth : Item.time ms.toNat = item at spelled
    cases spelled with
    | @time digits suffix scale nonempty decimal unit =>
        obtain ⟨positive, ends⟩ := of_mem_timeUnits unit
        obtain ⟨front, back⟩ := of_chars_eq whole decimal ends
        have value : ms.toNat = Nat.ofDigitChars 10 digits 0 * scale := Item.time.inj worth
        have below : Nat.ofDigitChars 10 digits 0 ≤ ms.toNat := by
          rw [value]
          exact Nat.le_mul_of_pos_right _ positive
        have small := ms.toNat_lt_size
        have fits : ¬ Nat.ofDigitChars 10 digits 0 ≥ UInt32.size := by omega
        have filled : digits.isEmpty = false := by simpa using nonempty
        unfold readDelay
        simp only [Token.number, front, back, filled, Bool.false_eq_true, ↓reduceIte, fits,
          unitMs?_eq_some_iff.mpr unit, ← value, small, UInt32.ofNat_toNat]
    | opens => cases worth
    | closes => cases worth
    | loops => cases worth

/-- A token reads as no time if it does not begin with a digit. -/
theorem readDelay_none_iff : readDelay t = .ok none ↔ t.digits = [] := by
  unfold readDelay
  constructor
  · intro reads
    split at reads
    · rename_i blank
      exact List.isEmpty_iff.mp blank
    · split at reads
      · cases reads
      · split at reads
        · cases reads
        · split at reads <;> cases reads
  · intro empty
    rw [empty]
    rfl

/-- A shortened word begins with the first letter of the word, small or capital. -/
theorem digits_of_abbreviates {letter : Char} {rest : List Char} (lower : letter.isDigit = false)
    (nonempty : t.chars ≠ []) (begins : t.chars.map Char.toLower <+: letter :: rest) :
    t.digits = [] ∧ ∃ c later, t.chars = c :: later ∧ c.toLower = letter := by
  unfold Token.digits
  cases whole : t.chars with
  | nil => exact absurd whole nonempty
  | cons c later =>
      rw [whole, List.map_cons, List.cons_prefix_cons] at begins
      refine ⟨?_, c, later, rfl, begins.1⟩
      rw [List.takeWhile_cons_of_neg]
      intro digit
      have same : c.toLower = c := by
        unfold Char.toLower
        simp only [Char.isDigit, Bool.and_eq_true, decide_eq_true_eq] at digit
        rw [dif_neg]
        rintro ⟨low, -⟩
        have := UInt32.le_iff_toNat_le.mp digit.2
        have := UInt32.le_iff_toNat_le.mp low
        simp at *
        omega
      rw [← begins.1, same, digit] at lower
      cases lower

/-- A token names an action if it spells one. -/
theorem stepWord?_some_iff (nonempty : t.chars ≠ []) (kind : StepKind) :
    readDelay t = .ok none ∧ stepWord? t.chars = some kind ↔ Spells t.chars (.action kind) := by
  have open_iff : abbreviates t.chars "open".toList = true ↔
      t.chars.map Char.toLower <+: "open".toList := List.isPrefixOf_iff_prefix
  have close_iff : abbreviates t.chars "close".toList = true ↔
      t.chars.map Char.toLower <+: "close".toList := List.isPrefixOf_iff_prefix
  rw [readDelay_none_iff]
  unfold stepWord?
  constructor
  · rintro ⟨-, word⟩
    split at word
    · rename_i begins
      cases word
      exact .opens nonempty (open_iff.mp begins)
    · split at word
      · rename_i begins
        cases word
        exact .closes nonempty (close_iff.mp begins)
      · split at word
        · rename_i star
          cases word
          rw [star]
          exact .loops
        · cases word
  · intro spelled
    generalize whole : t.chars = word at spelled
    generalize named : Item.action kind = item at spelled
    cases spelled with
    | time => cases named
    | opens _ begins =>
        cases named
        rw [← whole] at begins ⊢
        rw [if_pos (open_iff.mpr begins)]
        exact ⟨(digits_of_abbreviates rfl nonempty begins).1, rfl⟩
    | closes _ begins =>
        cases named
        rw [← whole] at begins ⊢
        obtain ⟨undigited, c, later, first, isC⟩ := digits_of_abbreviates rfl nonempty begins
        have notOpen : ¬ abbreviates t.chars "open".toList = true := by
          intro opens
          obtain ⟨-, d, rest, same, isO⟩ := digits_of_abbreviates rfl nonempty (open_iff.mp opens)
          rw [first] at same
          cases same
          rw [isC] at isO
          cases isO
        rw [if_neg notOpen, if_pos (close_iff.mpr begins)]
        exact ⟨undigited, rfl⟩
    | loops =>
        cases named
        unfold Token.digits
        rw [whole]
        decide

end RelayTimer
