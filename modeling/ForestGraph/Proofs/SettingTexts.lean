import Mathlib.Tactic.Common
import ForestGraph.Settings.Overrides

/-!
# Settings and the texts of their values

What a text has to look like to be a value of a setting: a word for a level or for a
truth value, in either case; digits for a count, with a plus sign or without one; and a
decimal, an infinity or a NaN for a tolerance.  The readers of variables accept these
texts and no others.
-/

namespace ForestGraph

/-! ## Words -/

namespace Verbosity

/-- No word stands for two levels. -/
theorem eq_of_mem_aliases {left right : Verbosity} {word : String} (hLeft : word ∈ left.aliases)
    (hRight : word ∈ right.aliases) : left = right := by
  have hAll (level : Verbosity) : level ∈ all := by cases level <;> decide
  have hDisjoint : ∀ left ∈ all, ∀ right ∈ all, ∀ word ∈ left.aliases, word ∈ right.aliases →
      left = right := by decide +kernel
  exact hDisjoint left (hAll left) right (hAll right) word hLeft hRight

theorem parse?_eq_some_iff {text : String} {level : Verbosity} :
    parse? text = some level ↔ text.map Char.toLower ∈ level.aliases := by
  constructor
  · intro h
    simpa using List.find?_some h
  · intro h
    have hSome : (parse? text).isSome = true := by
      rw [parse?, List.find?_isSome]
      exact ⟨level, by cases level <;> decide, by simpa using h⟩
    obtain ⟨other, hOther⟩ := Option.isSome_iff_exists.mp hSome
    have hMem : text.map Char.toLower ∈ other.aliases := by simpa using List.find?_some hOther
    rw [hOther, eq_of_mem_aliases hMem h]

end Verbosity

namespace Settings

/-- The words that stand for a truth value. -/
def truthWords : Bool → List String
  | true => ["1", "true", "yes"]
  | false => ["0", "false", "no"]

theorem truth?_eq_some_iff {text : String} {truth : Bool} :
    truth? text = some truth ↔ text.map Char.toLower ∈ truthWords truth := by
  have hDisjoint : ∀ word ∈ truthWords true, word ∉ truthWords false := by decide +kernel
  unfold truth?
  simp only [List.contains_iff_mem]
  split
  · rename_i hTrue
    cases truth with
    | true => exact iff_of_true rfl hTrue
    | false => exact iff_of_false nofun (hDisjoint _ hTrue)
  · rename_i hNotTrue
    split
    · rename_i hFalse
      cases truth with
      | true => exact iff_of_false nofun hNotTrue
      | false => exact iff_of_true rfl hFalse
    · rename_i hNotFalse
      cases truth with
      | true => exact iff_of_false nofun hNotTrue
      | false => exact iff_of_false nofun hNotFalse

end Settings

/-! ## Numbers -/

namespace Literal

/-- The signs of a number; a number that is not negative may go without. -/
def signs : Bool → List (List Char)
  | true => [['-']]
  | false => [[], ['+']]

/-- Decimal digits, one at least, with a plus sign or without one. -/
structure SpellsNatural (text : String) (number : Nat) : Prop where
  spelled : ∃ sign ∈ signs false, ∃ digits, text.toList = sign ++ digits ∧ digits ≠ [] ∧
    digits.all Char.isDigit = true ∧ digitsValue digits = number
  le_largest : number ≤ Index.largest

/-- An exponent: nothing, or a mark, a sign and digits. -/
inductive SpellsExponent : List Char → Int → Prop where
  | missing : SpellsExponent [] 0
  | marked {mark : Char} {negative : Bool} {sign digits : List Char} :
      mark = 'e' ∨ mark = 'E' → sign ∈ signs negative → digits ≠ [] →
      digits.all Char.isDigit = true →
      SpellsExponent (mark :: (sign ++ digits))
        (if negative then -(exponentSize digits : Int) else exponentSize digits)

/-- The digits before and behind a point; a number without a point has none behind it. -/
inductive SpellsDigits : List Char → List Char → List Char → Prop where
  | whole {whole : List Char} : SpellsDigits whole whole []
  | point {whole fraction : List Char} : SpellsDigits (whole ++ '.' :: fraction) whole fraction

/-- A decimal: digits, one at least, and an exponent. -/
inductive SpellsDecimal (negative : Bool) : List Char → Decimal → Prop where
  | intro {digits whole fraction rest : List Char} {exponent : Int} :
      SpellsDigits digits whole fraction → whole.all Char.isDigit = true →
      fraction.all Char.isDigit = true → whole ≠ [] ∨ fraction ≠ [] →
      SpellsExponent rest exponent →
      SpellsDecimal negative (digits ++ rest) (.ofDigits negative whole fraction exponent)

/-- A number behind its sign. -/
inductive SpellsSize (negative : Bool) : List Char → Float → Prop where
  | nan {word : List Char} : word.map Char.toLower = "nan".toList →
      SpellsSize negative word notANumber
  | infinity {word : List Char} :
      word.map Char.toLower = "inf".toList ∨ word.map Char.toLower = "infinity".toList →
      SpellsSize negative word (if negative then -infinity else infinity)
  | decimal {size : List Char} {decimal : Decimal} : SpellsDecimal negative size decimal →
      SpellsSize negative size decimal.toFloat

/-- A sign, which may be missing, and a number. -/
def SpellsReal (text : String) (number : Float) : Prop :=
  ∃ negative, ∃ sign ∈ signs negative, ∃ size, text.toList = sign ++ size ∧
    SpellsSize negative size number

/-! ## Signs -/

theorem exists_splitSign (text : List Char) :
    ∃ sign ∈ signs (splitSign text).1, text = sign ++ (splitSign text).2 := by
  unfold splitSign
  split
  · exact ⟨['-'], by simp [signs], rfl⟩
  · exact ⟨['+'], by simp [signs], rfl⟩
  · exact ⟨[], by simp [signs], rfl⟩

/-- A sign is split off what does not start with one itself. -/
theorem splitSign_append {negative : Bool} {sign rest : List Char} (hSign : sign ∈ signs negative)
    (hRest : ∀ first ∈ rest.head?, first ≠ '-' ∧ first ≠ '+') :
    splitSign (sign ++ rest) = (negative, rest) := by
  cases negative with
  | true =>
      obtain rfl : sign = ['-'] := by simpa [signs] using hSign
      rfl
  | false =>
      obtain rfl | rfl : sign = [] ∨ sign = ['+'] := by simpa [signs] using hSign
      · rw [List.nil_append]
        exact splitSign_of_noSign hRest
      · rfl

theorem isDigit_of_mem_head? {digits : List Char} (h : digits.all Char.isDigit = true) :
    ∀ first ∈ digits.head?, first.isDigit = true := by
  intro first hFirst
  exact List.all_eq_true.mp h first (List.mem_of_mem_head? hFirst)

/-! ## Counts -/

/-- A plus sign is left out, if there is one. -/
def withoutPlus : List Char → List Char
  | '+' :: rest => rest
  | text => text

theorem exists_withoutPlus (text : List Char) :
    ∃ sign ∈ signs false, text = sign ++ withoutPlus text := by
  unfold withoutPlus
  split
  · exact ⟨['+'], by simp [signs], rfl⟩
  · exact ⟨[], by simp [signs], rfl⟩

theorem withoutPlus_append {sign digits : List Char} (hSign : sign ∈ signs false)
    (hDigits : digits.all Char.isDigit = true) : withoutPlus (sign ++ digits) = digits := by
  obtain rfl | rfl : sign = [] ∨ sign = ['+'] := by simpa [signs] using hSign
  · rw [List.nil_append]
    unfold withoutPlus
    split
    · exact absurd (isDigit_of_mem_head? hDigits '+' rfl) (by decide)
    · rfl
  · rfl

/-- What is read are the digits behind the sign. -/
theorem natural?_eq (text : String) :
    natural? text =
      if withoutPlus text.toList = [] ∨ (withoutPlus text.toList).all Char.isDigit = false then
        none
      else if digitsValue (withoutPlus text.toList) ≤ Index.largest then
        some (digitsValue (withoutPlus text.toList))
      else none := by
  change (if (withoutPlus text.toList).isEmpty || !(withoutPlus text.toList).all Char.isDigit then
      none
    else if digitsValue (withoutPlus text.toList) ≤ Index.largest then
      some (digitsValue (withoutPlus text.toList))
    else none) = _
  simp only [Bool.or_eq_true, List.isEmpty_iff, Bool.not_eq_true']

theorem natural?_eq_some_iff {text : String} {number : Nat} :
    natural? text = some number ↔ SpellsNatural text number := by
  rw [natural?_eq]
  constructor
  · intro h
    obtain ⟨sign, hSign, hText⟩ := exists_withoutPlus text.toList
    split at h
    · cases h
    · rename_i hSpelled
      rw [not_or, Bool.not_eq_false] at hSpelled
      split at h
      · rename_i hLe
        cases h
        exact ⟨⟨sign, hSign, _, hText, hSpelled.1, hSpelled.2, rfl⟩, hLe⟩
      · cases h
  · rintro ⟨⟨sign, hSign, digits, hText, hSome, hDigits, rfl⟩, hLe⟩
    rw [hText, withoutPlus_append hSign hDigits, if_neg (by simp [hSome, hDigits]), if_pos hLe]

/-! ## Reals -/

theorem exponent?_eq_some_iff {text : List Char} {exponent : Int} :
    exponent? text = some exponent ↔ SpellsExponent text exponent := by
  constructor
  · intro h
    cases text with
    | nil =>
        cases h
        exact .missing
    | cons mark rest =>
        obtain ⟨sign, hSign, hRest⟩ := exists_splitSign rest
        simp only [exponent?] at h
        split at h
        · rename_i hMarked
          simp only [Bool.and_eq_true, Bool.or_eq_true, beq_iff_eq, Bool.not_eq_true',
            List.isEmpty_eq_false_iff] at hMarked
          obtain ⟨⟨hMark, hSome⟩, hDigits⟩ := hMarked
          cases h
          have hSpelled := SpellsExponent.marked hMark hSign hSome hDigits
          rwa [← hRest] at hSpelled
        · cases h
  · intro h
    cases h with
    | missing => rfl
    | @marked mark negative sign digits hMark hSign hSome hDigits =>
        have hSplit := splitSign_append hSign fun first hFirst =>
          not_sign_of_isDigit (isDigit_of_mem_head? hDigits first hFirst)
        have hFirst : (mark == 'e' || mark == 'E') = true := by simpa using hMark
        simp [exponent?, hSplit, hFirst, hSome, hDigits]

theorem SpellsExponent.noDigit {text : List Char} {exponent : Int}
    (h : SpellsExponent text exponent) :
    (∀ first ∈ text.head?, first.isDigit = false) ∧ text.head? ≠ some '.' := by
  cases h with
  | missing => simp
  | marked hMark => rcases hMark with rfl | rfl <;> simp

/-- The digits behind a point, if there is one, and what follows them. -/
def splitFraction : List Char → List Char × List Char
  | '.' :: rest => splitDigits rest
  | rest => ([], rest)

theorem decimal?_eq (negative : Bool) (text : List Char) :
    decimal? negative text =
      if (splitDigits text).1 = [] ∧ (splitFraction (splitDigits text).2).1 = [] then none
      else (exponent? (splitFraction (splitDigits text).2).2).map (.ofDigits negative
        (splitDigits text).1 (splitFraction (splitDigits text).2).1) := by
  change (if (splitDigits text).1.isEmpty && (splitFraction (splitDigits text).2).1.isEmpty then
      none
    else (exponent? (splitFraction (splitDigits text).2).2).map fun exponent =>
      Decimal.ofDigits negative (splitDigits text).1 (splitFraction (splitDigits text).2).1
        exponent) = _
  simp only [Bool.and_eq_true, List.isEmpty_iff]

/-- The parts in front of an exponent are found again. -/
theorem SpellsDigits.split {digits whole fraction rest : List Char}
    (h : SpellsDigits digits whole fraction) (hWhole : whole.all Char.isDigit = true)
    (hFraction : fraction.all Char.isDigit = true)
    (hRest : ∀ first ∈ rest.head?, first.isDigit = false) (hPoint : rest.head? ≠ some '.') :
    (splitDigits (digits ++ rest)).1 = whole ∧
      splitFraction (splitDigits (digits ++ rest)).2 = (fraction, rest) := by
  cases h with
  | whole =>
      rw [splitDigits_digits_append hWhole hRest]
      refine ⟨rfl, ?_⟩
      cases rest with
      | nil => rfl
      | cons first rest =>
          unfold splitFraction
          split
          · rename_i hFirst
            exact absurd (congrArg List.head? hFirst) hPoint
          · rfl
  | point =>
      have hSplit := @splitDigits_digits_append whole ('.' :: (fraction ++ rest)) hWhole (by simp)
      rw [List.append_assoc, List.cons_append, hSplit]
      exact ⟨rfl, splitDigits_digits_append hFraction hRest⟩

theorem exists_splitFraction (text : List Char) :
    ∃ digits, SpellsDigits digits (splitDigits text).1 (splitFraction (splitDigits text).2).1 ∧
      (splitFraction (splitDigits text).2).1.all Char.isDigit = true ∧
      text = digits ++ (splitFraction (splitDigits text).2).2 := by
  have hText := splitDigits_append text
  generalize splitDigits text = parts at hText ⊢
  obtain ⟨whole, rest⟩ := parts
  simp only at hText ⊢
  unfold splitFraction
  split
  · rename_i rest
    refine ⟨_, .point, all_isDigit_splitDigits rest, ?_⟩
    rw [← hText, List.append_assoc, List.cons_append, splitDigits_append]
  · exact ⟨_, .whole, rfl, hText.symm⟩

theorem decimal?_eq_some_iff {negative : Bool} {text : List Char} {decimal : Decimal} :
    decimal? negative text = some decimal ↔ SpellsDecimal negative text decimal := by
  constructor
  · intro h
    obtain ⟨digits, hDigits, hFraction, hText⟩ := exists_splitFraction text
    rw [decimal?_eq] at h
    split at h
    · cases h
    · rename_i hSome
      obtain ⟨exponent, hExponent, rfl⟩ := Option.map_eq_some_iff.mp h
      have hSpelled : SpellsDecimal negative _ _ := .intro hDigits
        (all_isDigit_splitDigits text) hFraction (not_and_or.mp hSome)
        (exponent?_eq_some_iff.mp hExponent)
      rwa [← hText] at hSpelled
  · rintro ⟨hDigits, hWhole, hFraction, hSome, hExponent⟩
    obtain ⟨hRest, hPoint⟩ := hExponent.noDigit
    obtain ⟨hFirst, hSecond⟩ := hDigits.split hWhole hFraction hRest hPoint
    rw [decimal?_eq, hFirst, hSecond, if_neg (not_and_or.mpr hSome),
      exponent?_eq_some_iff.mpr hExponent]
    rfl

theorem toLower_of_isDigit {char : Char} (h : char.isDigit = true) : char.toLower = char := by
  have hNoCapital : ¬ (char.val ≥ 65 ∧ char.val ≤ 90) := by
    simp only [Char.isDigit, Bool.and_eq_true, decide_eq_true_eq, UInt32.le_iff_toNat_le] at h
    simp only [ge_iff_le, UInt32.le_iff_toNat_le]
    intro hCapital
    have hLe := Nat.le_trans hCapital.1 h.2
    exact absurd hLe (by decide)
  exact dif_neg hNoCapital

theorem SpellsDecimal.head {negative : Bool} {text : List Char} {decimal : Decimal}
    (h : SpellsDecimal negative text decimal) :
    ∃ first rest, text = first :: rest ∧ (first = '.' ∨ first.isDigit = true) := by
  obtain @⟨digits, whole, fraction, rest, exponent, hDigits, hWhole, -, hSome, -⟩ := h
  cases whole with
  | nil =>
      cases hDigits with
      | whole => simp at hSome
      | point => exact ⟨'.', _, rfl, .inl rfl⟩
  | cons first later =>
      have hFirst := List.all_eq_true.mp hWhole first List.mem_cons_self
      cases hDigits with
      | whole => exact ⟨first, _, rfl, .inr hFirst⟩
      | point => exact ⟨first, _, rfl, .inr hFirst⟩

/-- No decimal is a word. -/
theorem SpellsDecimal.map_toLower_ne {negative : Bool} {text : List Char} {decimal : Decimal}
    (h : SpellsDecimal negative text decimal) {word : List Char}
    (hWord : word.head?.any (fun first => first == '.' || first.isDigit) = false) :
    text.map Char.toLower ≠ word := by
  rintro rfl
  obtain ⟨first, rest, rfl, rfl | hFirst⟩ := h.head
  · cases hWord
  · simp [toLower_of_isDigit hFirst, hFirst] at hWord

/-- A number behind its sign does not start with a sign. -/
theorem SpellsSize.head {negative : Bool} {text : List Char} {number : Float}
    (h : SpellsSize negative text number) : ∀ first ∈ text.head?, first ≠ '-' ∧ first ≠ '+' := by
  have hOfWord {letter : Char} {word : List Char} (hWord : text.map Char.toLower = letter :: word)
      (hLetter : letter ≠ '-' ∧ letter ≠ '+') :
      ∀ first ∈ text.head?, first ≠ '-' ∧ first ≠ '+' := by
    intro first hFirst
    cases text with
    | nil => cases hFirst
    | cons head tail =>
        obtain rfl : head = first := by simpa using hFirst
        constructor <;> rintro rfl
        · exact hLetter.1 (List.cons.inj hWord).1.symm
        · exact hLetter.2 (List.cons.inj hWord).1.symm
  cases h with
  | nan hWord => exact hOfWord hWord (by decide)
  | infinity hWord => rcases hWord with hWord | hWord <;> exact hOfWord hWord (by decide)
  | decimal hDecimal =>
      obtain ⟨first, rest, rfl, hFirst⟩ := hDecimal.head
      intro other hOther
      obtain rfl : first = other := by simpa using hOther
      rcases hFirst with rfl | hFirst
      · decide
      · exact not_sign_of_isDigit hFirst

theorem real?_eq_some_iff {text : String} {number : Float} :
    real? text = some number ↔ SpellsReal text number := by
  unfold real? SpellsReal
  constructor
  · intro h
    obtain ⟨sign, hSign, hText⟩ := exists_splitSign text.toList
    refine ⟨_, sign, hSign, _, hText, ?_⟩
    simp only [Bool.or_eq_true, beq_iff_eq] at h
    split at h
    · rename_i hNaN
      cases h
      exact .nan hNaN
    · split at h
      · rename_i hInfinity
        cases h
        exact .infinity hInfinity
      · obtain ⟨decimal, hDecimal, rfl⟩ := Option.map_eq_some_iff.mp h
        exact .decimal (decimal?_eq_some_iff.mp hDecimal)
  · rintro ⟨negative, sign, hSign, size, hText, hSize⟩
    rw [hText, splitSign_append hSign hSize.head]
    simp only [Bool.or_eq_true, beq_iff_eq]
    cases hSize with
    | nan hNaN => rw [if_pos hNaN]
    | infinity hInfinity =>
        rw [if_neg (by rcases hInfinity with h | h <;> rw [h] <;> decide), if_pos hInfinity]
    | decimal hDecimal =>
        rw [if_neg (hDecimal.map_toLower_ne (by decide)),
          if_neg (not_or.mpr ⟨hDecimal.map_toLower_ne (by decide),
            hDecimal.map_toLower_ne (by decide)⟩),
          decimal?_eq_some_iff.mpr hDecimal]
        rfl

end Literal

/-! ## Settings -/

/-- The settings, one by one. -/
inductive Setting where
  | verbosity
  | maxRefineIterations
  | validateForest
  | equivalenceTolerance
  | numThreads
  deriving DecidableEq

namespace Setting

/-- All settings, in the order in which they are read and written. -/
def all : List Setting :=
  [verbosity, maxRefineIterations, validateForest, equivalenceTolerance, numThreads]

/-- The values of a setting. -/
def Value : Setting → Type
  | verbosity => Verbosity
  | maxRefineIterations => Nat
  | validateForest => Bool
  | equivalenceTolerance => Float
  | numThreads => Nat

/-- The value of a setting. -/
def get (settings : Settings) : (setting : Setting) → setting.Value
  | verbosity => settings.verbosity
  | maxRefineIterations => settings.maxRefineIterations
  | validateForest => settings.validateForest
  | equivalenceTolerance => settings.equivalenceTolerance
  | numThreads => settings.numThreads

/-- The settings with the value of one replaced. -/
def set (settings : Settings) : (setting : Setting) → setting.Value → Settings
  | verbosity, level => { settings with verbosity := level }
  | maxRefineIterations, passes => { settings with maxRefineIterations := passes }
  | validateForest, check => { settings with validateForest := check }
  | equivalenceTolerance, tolerance => { settings with equivalenceTolerance := tolerance }
  | numThreads, threads => { settings with numThreads := threads }

/-- A text is a value of a setting. -/
def Spells : (setting : Setting) → String → setting.Value → Prop
  | verbosity, text, level => text.map Char.toLower ∈ Verbosity.aliases level
  | maxRefineIterations, text, passes => Literal.SpellsNatural text passes
  | validateForest, text, check => text.map Char.toLower ∈ Settings.truthWords check
  | equivalenceTolerance, text, tolerance => Literal.SpellsReal text tolerance
  | numThreads, text, threads => Literal.SpellsNatural text threads

/-- Reads a value of a setting. -/
def read? : (setting : Setting) → String → Option setting.Value
  | verbosity, text => Verbosity.parse? text
  | maxRefineIterations, text => Literal.natural? text
  | validateForest, text => Settings.truth? text
  | equivalenceTolerance, text => Literal.real? text
  | numThreads, text => Literal.natural? text

variable {setting other : Setting} {text : String}

theorem mem_all (setting : Setting) : setting ∈ all := by
  cases setting <;> decide

theorem nodup_all : all.Nodup := by
  decide

theorem read?_eq_some_iff {value : setting.Value} :
    setting.read? text = some value ↔ setting.Spells text value := by
  cases setting with
  | verbosity => exact Verbosity.parse?_eq_some_iff
  | maxRefineIterations => exact Literal.natural?_eq_some_iff
  | validateForest => exact Settings.truth?_eq_some_iff
  | equivalenceTolerance => exact Literal.real?_eq_some_iff
  | numThreads => exact Literal.natural?_eq_some_iff

/-- No text is two values of a setting. -/
theorem Spells.unique {left right : setting.Value} (hLeft : setting.Spells text left)
    (hRight : setting.Spells text right) : left = right :=
  Option.some.inj ((read?_eq_some_iff.mpr hLeft).symm.trans (read?_eq_some_iff.mpr hRight))

@[simp] theorem get_set_self (settings : Settings) (value : setting.Value) :
    get (set settings setting value) setting = value := by
  cases setting <;> rfl

theorem get_set_of_ne (settings : Settings) (value : setting.Value) (h : other ≠ setting) :
    get (set settings setting value) other = get settings other := by
  cases setting <;> cases other <;> first | rfl | exact absurd rfl h

theorem eq_of_get {left right : Settings} (h : ∀ setting, get left setting = get right setting) :
    left = right := by
  cases left
  cases right
  congr
  · exact h verbosity
  · exact h maxRefineIterations
  · exact h validateForest
  · exact h equivalenceTolerance
  · exact h numThreads

end Setting

end ForestGraph
