import ForestGraph.Proofs.NumberTexts
import ForestGraph.Toml.Reader
import ForestGraph.Toml.Writer

/-!
# TOML words

Truth values and numbers are words.  Numbers are written without an exponent, and those
that are no integers with a point.  So a number is neither taken for a date nor for a
number of the other kind, and its digits amount to what was written.  That it is finite
bounds how many digits stand before the point.
-/

namespace ForestGraph

/-! ## The number of digits of a finite number -/

section Digits

theorem digitCount_div_ten {number : Nat} (h : 10 ≤ number) :
    digitCount (number / 10) + 1 = digitCount number := by
  rw [digitCount, digitCount, Nat.toDigits_of_base_le (by decide) h, List.length_append,
    List.length_singleton]

/-- The point of a decimal stays where it is. -/
theorem point_trim (digits : Nat) (exponent : Int) :
    (digitCount (Decimal.trim digits exponent).1 : Int) + (Decimal.trim digits exponent).2 =
      digitCount digits + exponent := by
  fun_induction Decimal.trim digits exponent with
  | case1 digits exponent h ih =>
      have hCount := @digitCount_div_ten digits (by omega)
      omega
  | case2 digits exponent h => rfl

theorem point_le_of_isFinite {digits : Nat} {exponent : Int} (hPos : 0 < digits)
    (h : (Decimal.magnitude digits exponent).isFinite = true) :
    digitCount digits + exponent ≤ Decimal.largestMagnitude := by
  have hTrimmed := @trim_pos digits exponent hPos
  rw [← point_trim]
  by_contra hAbove
  have hInfinite : infinity.isFinite = false := by decide +kernel
  simp [Decimal.magnitude, hTrimmed.ne', not_le.mp hAbove, hInfinite] at h

/-- The first digit bounds a number from below. -/
theorem pow_le_digitsValue {first : Char} {rest : List Char} (hDigit : first.isDigit = true)
    (hZero : first ≠ '0') : 10 ^ rest.length ≤ digitsValue (first :: rest) := by
  have hNe : first.toNat ≠ '0'.toNat := fun hEqual => hZero (Char.toNat_inj.mp hEqual)
  have hLow : '0'.toNat ≤ first.toNat := by
    rw [Char.isDigit, Bool.and_eq_true, decide_eq_true_eq, decide_eq_true_eq] at hDigit
    exact UInt32.le_iff_toNat_le.mp hDigit.1
  rw [digitsValue, Nat.ofDigitChars_cons, Nat.ofDigitChars_eq_ofDigitChars_zero]
  calc 10 ^ rest.length = 10 ^ rest.length * 1 := (mul_one _).symm
    _ ≤ 10 ^ rest.length * (10 * 0 + (first.toNat - '0'.toNat)) :=
      Nat.mul_le_mul_left _ (by omega)
    _ ≤ _ := Nat.le_add_right _ _

theorem isFinite_abs {number : Float} (h : number.isFinite = true) :
    number.abs.isFinite = true := by
  rcases unpack_of_isFinite h with ⟨sign, hNumber⟩ | ⟨sign, significand, scale, hPos, hNumber⟩
  · rw [← ofModel_pack_unpack number, hNumber]
    cases sign <;> decide +kernel
  · have hAbs := abs_unpack hNumber
    change number.abs.toModel.unpack.isFinite = true
    rw [hAbs]
    rfl

/-- A finite number has few digits before its point. -/
theorem ShortDecimal.Shows.point_lt {decimal : ShortDecimal} {size : Float}
    (h : Shows decimal size) (hFinite : size.isFinite = true) :
    decimal.point < JsonToken.largestDigits := by
  by_cases hNone : decimal.digits = []
  · rw [h.point_eq hNone]
    decide
  · obtain ⟨first, rest, hDigits⟩ := List.exists_cons_of_ne_nil hNone
    have hAll := h.isDigit
    have hHead := h.head?_ne
    have hValue := h.magnitude_eq
    rw [hDigits, List.all_cons, Bool.and_eq_true] at hAll
    rw [hDigits, List.head?_cons, ne_eq, Option.some.injEq] at hHead
    rw [hDigits, List.length_cons] at hValue
    have hPower := @pow_le_digitsValue first rest hAll.1 hHead
    have hPos : 0 < digitsValue (first :: rest) := (pow_pos (by decide) _).trans_le hPower
    have hLength : rest.length < digitCount (digitsValue (first :: rest)) := by
      rcases Nat.eq_zero_or_pos rest.length with hNone | hSome
      · rw [hNone]
        exact digitCount_pos
      · by_contra hFew
        exact absurd ((digitCount_le_iff hSome).mp (not_lt.mp hFew)) (not_lt.mpr hPower)
    have hPoint := point_le_of_isFinite hPos (hValue ▸ hFinite)
    have hLargest : Decimal.largestMagnitude < JsonToken.largestDigits := by decide
    omega

/-- Some digits are written behind the point. -/
theorem ShortDecimal.fraction_positionalNumeral_ne_nil (decimal : ShortDecimal) :
    decimal.positionalNumeral.fraction ≠ [] := by
  simp only [positionalNumeral]
  split
  · rw [ne_eq, List.append_eq_nil_iff, List.replicate_eq_nil_iff, List.drop_eq_nil_iff]
    omega
  · simp

end Digits

/-! ## Runs of characters -/

section Runs

variable {α : Type} {p : α → Bool}

/-- What a predicate tells apart differs. -/
theorem ne_of_true_of_false {left right : α} (hLeft : p left = true) (hRight : p right = false) :
    left ≠ right :=
  ne_of_apply_ne p (by rw [hLeft, hRight]; decide)

theorem not_mem_of_all {entries : List α} {entry : α} (hAll : entries.all p = true)
    (hEntry : p entry = false) : entry ∉ entries := fun hMem =>
  ne_of_true_of_false (List.all_eq_true.mp hAll entry hMem) hEntry rfl

theorem span_append {front rest : List α} (hFront : front.all p = true)
    (hRest : ∀ first ∈ rest.head?, p first = false) : (front ++ rest).span p = (front, rest) := by
  rw [List.span_eq_takeWhile_dropWhile]
  have hAll := List.all_eq_true.mp hFront
  rw [List.takeWhile_append_of_pos hAll, List.dropWhile_append_of_pos hAll]
  cases rest with
  | nil => simp
  | cons first rest => simp [hRest first rfl]

end Runs

namespace Toml

theorem separated?_eq_none {isDigit : Char → Bool} {text : List Char} {char : Char}
    (h : char ∈ text) (hNoDigit : isDigit char = false) (hNoSeparator : char ≠ '_') :
    separated? isDigit text = none := by
  have hOther {digit : Char} (hDigit : isDigit digit = true) : char ≠ digit :=
    (ne_of_true_of_false hDigit hNoDigit).symm
  fun_induction separated? isDigit text with
  | case1 => cases h
  | case2 digit hDigit => exact absurd (List.mem_singleton.mp h) (hOther hDigit)
  | case3 digit hDigit => rfl
  | case4 digit rest hDigit ih => simp_all [hOther hDigit]
  | case5 digit rest hDigit => rfl
  | case6 digit rest _ _ hDigit ih => simp_all [hOther hDigit]
  | case7 digit rest _ _ hDigit => rfl

theorem separated?_digits {digits : List Char} (hSome : digits ≠ [])
    (hDigits : digits.all Char.isDigit = true) : separated? Char.isDigit digits = some digits := by
  fun_induction separated? Char.isDigit digits with
  | case1 => exact absurd rfl hSome
  | case2 digit hDigit => rfl
  | case3 digit hDigit => simp_all
  | case4 digit rest hDigit ih => simp at hDigits
  | case5 digit rest hDigit => simp_all
  | case6 digit rest _ _ hDigit ih => simp_all
  | case7 digit rest _ _ hDigit => simp_all

theorem whole?_digits {whole : List Char} (hDigits : whole.all Char.isDigit = true)
    (hLeading : whole = ['0'] ∨ whole ≠ [] ∧ whole.head? ≠ some '0') :
    whole? whole = some whole := by
  rcases hLeading with rfl | ⟨hSome, hFirst⟩
  · rfl
  · simp [whole?, separated?_digits hSome hDigits, hFirst]

/-! ## Numbers -/

/-- The characters of a number that is written without an exponent. -/
def isNumeric (char : Char) : Bool :=
  char.isDigit || char == '.' || char == '-'

section Words

variable {word : List Char}

theorem fixed?_eq_some {count number : Nat} {text rest : List Char}
    (h : fixed? count text = some (number, rest)) : rest = text.drop count := by
  simp only [fixed?] at h
  split at h
  · cases h
    rfl
  · cases h

theorem mem_of_expect?_eq_some {char : Char} {text rest : List Char}
    (h : expect? char text = some rest) : char ∈ text := by
  cases text with
  | nil => cases h
  | cons first more =>
      simp only [expect?] at h
      split at h
      · rename_i hFirst
        rw [hFirst]
        exact List.mem_cons_self
      · cases h

/-- A time of day has a colon. -/
theorem time?_eq_none (hColon : ':' ∉ word) : time? word = none := by
  rw [Option.eq_none_iff_forall_ne_some]
  intro rest hTime
  simp only [time?, Option.bind_eq_bind, Option.bind_eq_some_iff] at hTime
  obtain ⟨⟨hour, behind⟩, hHour, later, hLater, -⟩ := hTime
  have hMem := mem_of_expect?_eq_some hLater
  rw [fixed?_eq_some hHour] at hMem
  exact hColon (List.mem_of_mem_drop hMem)

/-- A date has a dash behind its year. -/
theorem date?_eq_none (hDash : '-' ∉ word.drop 4) : date? word = none := by
  rw [Option.eq_none_iff_forall_ne_some]
  intro rest hDate
  simp only [date?, Option.bind_eq_bind, Option.bind_eq_some_iff] at hDate
  obtain ⟨⟨year, behind⟩, hYear, later, hLater, -⟩ := hDate
  have hMem := mem_of_expect?_eq_some hLater
  rw [fixed?_eq_some hYear] at hMem
  exact hDash hMem

/-- Numbers are no dates. -/
theorem isMoment_eq_false (hNumeric : word.all isNumeric = true) (hDash : '-' ∉ word.drop 4) :
    isMoment word = false := by
  have hColon : ':' ∉ word := not_mem_of_all hNumeric rfl
  simp [isMoment, time?_eq_none hColon, date?_eq_none hDash]

/-- What is no word for a truth value and no date is a number. -/
theorem ofWord?_eq (hNumeric : word.all isNumeric = true) (hDash : '-' ∉ word.drop 4) :
    ofWord? word = match integer? word with
      | some number => some (.integer number)
      | none => ((specialReal? word).or (decimalReal? word)).map .real := by
  have hTrue : word ≠ ['t', 'r', 'u', 'e'] := by
    rintro rfl
    cases hNumeric
  have hFalse : word ≠ ['f', 'a', 'l', 's', 'e'] := by
    rintro rfl
    cases hNumeric
  rw [ofWord?, if_neg hTrue, if_neg hFalse, isMoment_eq_false hNumeric hDash]
  rfl

theorem point_mem_splitSign (h : '.' ∈ word) : '.' ∈ (splitSign word).2 := by
  unfold splitSign
  split
  · simpa using h
  · simpa using h
  · exact h

theorem inBase?_eq_none {base : Nat} (h : '.' ∈ word) : inBase? base word = none := by
  have hNone : separated? (fun char => (char.isDigit || char.isAlpha) &&
      decide (digitValue char < base)) word = none := separated?_eq_none h rfl (by decide)
  rw [inBase?, hNone]
  rfl

/-- A number with a point is no integer. -/
theorem integer?_eq_none (h : '.' ∈ word) : integer? word = none := by
  unfold integer?
  split
  · simp [inBase?_eq_none (show '.' ∈ _ by simpa using h)]
  · simp [inBase?_eq_none (show '.' ∈ _ by simpa using h)]
  · simp [inBase?_eq_none (show '.' ∈ _ by simpa using h)]
  · have hNone : separated? Char.isDigit (splitSign word).2 = none :=
      separated?_eq_none (point_mem_splitSign h) rfl (by decide)
    simp [whole?, hNone]

/-- A number with a point is no word for an infinity or a NaN. -/
theorem specialReal?_eq_none (h : '.' ∈ word) : specialReal? word = none := by
  have hPoint := point_mem_splitSign h
  have hInfinity : (splitSign word).2 ≠ ['i', 'n', 'f'] := by
    intro hWord
    simp [hWord] at hPoint
  have hNaN : (splitSign word).2 ≠ ['n', 'a', 'n'] := by
    intro hWord
    simp [hWord] at hPoint
  simp [specialReal?, hInfinity, hNaN]

theorem splitSign_signText {negative : Bool} {text : List Char}
    (hDigit : ∀ first ∈ text.head?, first.isDigit = true) :
    splitSign (Numeral.signText negative ++ text) = (negative, text) := by
  cases negative with
  | true => rfl
  | false => exact splitSign_of_noSign fun first hFirst => not_sign_of_isDigit (hDigit first hFirst)

theorem not_beq_infinity {number : Float} (h : number.isFinite = true) :
    (number == infinity) = false := by
  rw [Bool.eq_false_iff, ne_eq, beq_iff_rank]
  rintro ⟨-, -, hRank⟩
  have hInfinity : rank infinity = toLex (2, toLex (0, 0)) := by decide +kernel
  rw [hInfinity, rank] at hRank
  rcases unpack_of_isFinite h with ⟨sign, hNumber⟩ | ⟨sign, significand, scale, hPos, hNumber⟩
  · simp [hNumber, unpackedRank] at hRank
  · cases sign <;> simp [hNumber, unpackedRank] at hRank

/-- The digits of a number before and behind its point are found again. -/
theorem decimalReal?_append {negative : Bool} {whole fraction : List Char}
    (hWhole : whole.all Char.isDigit = true)
    (hLeading : whole = ['0'] ∨ whole ≠ [] ∧ whole.head? ≠ some '0')
    (hFraction : fraction.all Char.isDigit = true) (hSome : fraction ≠ [])
    (hFinite : (Decimal.ofDigits negative whole fraction 0).toFloat.isFinite = true) :
    decimalReal? (Numeral.signText negative ++ (whole ++ '.' :: fraction)) =
      some (Decimal.ofDigits negative whole fraction 0).toFloat := by
  have hSign : splitSign (Numeral.signText negative ++ (whole ++ '.' :: fraction)) =
      (negative, whole ++ '.' :: fraction) := by
    refine splitSign_signText fun first hFirst => ?_
    rw [List.head?_append_of_ne_nil _ (by rcases hLeading with rfl | h <;> simp_all)] at hFirst
    exact List.all_eq_true.mp hWhole first (List.mem_of_mem_head? hFirst)
  have hRun {digits : List Char} (hDigits : digits.all Char.isDigit = true) :
      digits.all isDigitOrSeparator = true := by
    refine List.all_eq_true.mpr fun digit hDigit => ?_
    rw [isDigitOrSeparator, List.all_eq_true.mp hDigits digit hDigit, Bool.true_or]
  have hBefore : (whole ++ '.' :: fraction).span isDigitOrSeparator = (whole, '.' :: fraction) :=
    span_append (hRun hWhole) (by simp [isDigitOrSeparator])
  have hBehind : (fraction ++ []).span isDigitOrSeparator = (fraction, []) :=
    span_append (hRun hFraction) (by simp)
  rw [List.append_nil] at hBehind
  simp [decimalReal?, hSign, hBefore, hBehind, whole?_digits hWhole hLeading,
    separated?_digits hSome hFraction, exponent?, not_beq_infinity hFinite,
    -List.span_eq_takeWhile_dropWhile]

/-- A natural number is read from its digits. -/
theorem integer?_toDigits {number : Nat} (h : number ≤ largestInteger) :
    integer? (Nat.toDigits 10 number) = some (number : Int) := by
  have hDigits := all_isDigit_toDigits number
  have hSign : splitSign (Nat.toDigits 10 number) = (false, Nat.toDigits 10 number) :=
    @splitSign_signText false _ fun first hFirst =>
      List.all_eq_true.mp hDigits first (List.mem_of_mem_head? hFirst)
  have hPlain := whole?_digits hDigits (leading_toDigits number)
  have hNoLetter {letter : Char} (hLetter : letter.isDigit = false) :
      letter ∉ Nat.toDigits 10 number := not_mem_of_all hDigits hLetter
  unfold integer?
  split
  · rename_i hText
    exact absurd (hText ▸ by simp) (hNoLetter (show Char.isDigit 'x' = false from rfl))
  · rename_i hText
    exact absurd (hText ▸ by simp) (hNoLetter (show Char.isDigit 'o' = false from rfl))
  · rename_i hText
    exact absurd (hText ▸ by simp) (hNoLetter (show Char.isDigit 'b' = false from rfl))
  · simp [hSign, hPlain, digitsValue_toDigits]
    omega

end Words

/-! ## Scalars -/

/-- A text that is read as one value where it ends its line. -/
structure Writes (text : String) (value : Toml) : Prop where
  starts : ∀ first ∈ text.toList.head?, first ≠ ' ' ∧ first ≠ '\t'
  read : ∀ rest, value? largestDepth (text.toList ++ '\n' :: rest) = some (value, '\n' :: rest)

theorem word?_append {word : List Char} {value : Toml} (hWord : word.all isWordChar = true)
    (hValue : ofWord? word = some value) (rest : List Char) :
    word? (word ++ '\n' :: rest) = some (value, '\n' :: rest) := by
  have hSpan : (word ++ '\n' :: rest).span isWordChar = (word, '\n' :: rest) :=
    span_append hWord (by simp [isWordChar])
  rw [word?, hSpan]
  simp [hValue]

/-- A word is read as the scalar that it is. -/
theorem writes_word {text : String} {value : Toml} (hSome : text.toList ≠ [])
    (hWord : text.toList.all isWordChar = true) (hValue : ofWord? text.toList = some value) :
    Writes text value := by
  obtain ⟨first, word, hText⟩ := List.exists_cons_of_ne_nil hSome
  rw [hText] at hWord hValue
  have hFirst : isWordChar first = true := by
    rw [List.all_cons, Bool.and_eq_true] at hWord
    exact hWord.1
  have hNot {other : Char} (hOther : isWordChar other = false) : first ≠ other :=
    ne_of_true_of_false hFirst hOther
  refine ⟨?_, fun rest => ?_⟩
  · intro char hChar
    obtain rfl : first = char := by simpa [hText] using hChar
    exact ⟨hNot rfl, hNot rfl⟩
  · rw [hText, ← word?_append hWord hValue, List.cons_append]
    unfold value?
    split
    all_goals first
      | rfl
      | (rename_i hChars _; obtain ⟨rfl, -⟩ := List.cons.inj hChars; cases hFirst)
      | (rename_i hChars; obtain ⟨rfl, -⟩ := List.cons.inj hChars; cases hFirst)

theorem writes_boolean (truth : Bool) : Writes (toString truth) (.boolean truth) := by
  cases truth with
  | true => exact writes_word (by decide) rfl rfl
  | false => exact writes_word (by decide) rfl rfl

theorem isWordChar_of_isNumeric {word : List Char} (h : word.all isNumeric = true) :
    word.all isWordChar = true := by
  refine List.all_eq_true.mpr fun char hChar => ?_
  have hNumeric := List.all_eq_true.mp h char hChar
  simp only [isNumeric, Bool.or_eq_true, beq_iff_eq] at hNumeric
  rcases hNumeric with (hDigit | rfl) | rfl
  · simp [isWordChar, Char.isAlphanum, hDigit]
  · rfl
  · rfl

theorem isNumeric_of_isDigit {digits : List Char} (h : digits.all Char.isDigit = true) :
    digits.all isNumeric = true := by
  refine List.all_eq_true.mpr fun digit hDigit => ?_
  simp [isNumeric, List.all_eq_true.mp h digit hDigit]

theorem writes_natural {number : Nat} (h : number ≤ largestInteger) :
    Writes (toString number) (.integer number) := by
  have hText : (toString number).toList = Nat.toDigits 10 number := by simp
  have hDigits := all_isDigit_toDigits number
  have hNumeric := isNumeric_of_isDigit hDigits
  have hDash : '-' ∉ (Nat.toDigits 10 number).drop 4 := fun hMem =>
    not_mem_of_all hDigits (show Char.isDigit '-' = false from rfl) (List.mem_of_mem_drop hMem)
  refine writes_word ?_ ?_ ?_
  · rw [hText]
    exact Nat.toDigits_ne_nil
  · rw [hText]
    exact isWordChar_of_isNumeric hNumeric
  · rw [hText, ofWord?_eq hNumeric hDash, integer?_toDigits h]

/-- The digits with which a finite number is written; some of them stand behind the point. -/
theorem exists_digits {number : Float} (h : number.isFinite = true) :
    ∃ whole fraction, (layout.write number).toList =
        Numeral.signText (Layout.isNegative number) ++ (whole ++ '.' :: fraction) ∧
      fraction ≠ [] ∧ Numeral.Reads ⟨whole, fraction, none⟩ number.abs := by
  have hShown := ShortDecimal.shows_ofFloat h .up
  have hReads := hShown.reads_positional (hShown.point_lt (isFinite_abs h))
  have hWrite : (layout.write number).toList = Numeral.signText (Layout.isNegative number) ++
      (ShortDecimal.ofFloat .up number).positionalNumeral.text := by
    rw [Layout.write, if_neg (Bool.eq_false_iff.mp (isNaN_of_isFinite h)),
      if_neg (Bool.eq_false_iff.mp (isInf_of_isFinite h)), Layout.writeDecimal]
    have hSign : (if Layout.isNegative number then "-" else "").toList =
        Numeral.signText (Layout.isNegative number) := by
      cases Layout.isNegative number <;> rfl
    rw [String.toList_append, hSign]
    exact congrArg _ (@ShortDecimal.toList_positional _ layout rfl hShown.point_eq)
  have hFraction := (ShortDecimal.ofFloat .up number).fraction_positionalNumeral_ne_nil
  refine ⟨_, _, ?_, hFraction, hReads⟩
  rw [hWrite, Numeral.text, Numeral.fractionText, if_neg hFraction]
  simp [ShortDecimal.positionalNumeral, Numeral.exponentText]

/-- A finite number is written with a point and read again. -/
theorem writes_real {number : Float} (h : number.isFinite = true) :
    Writes (layout.write number) (.real number) := by
  obtain ⟨whole, fraction, hText, hSome, hReads⟩ := exists_digits h
  have hProper := hReads.proper
  have hValue : (Decimal.ofDigits (Layout.isNegative number) whole fraction 0).toFloat =
      number := by
    have hMagnitude := hReads.magnitude_eq
    simp only [Option.getD_none] at hMagnitude
    simp only [Decimal.ofDigits, Decimal.toFloat, hMagnitude]
    exact signed_abs h
  have hBehind : (whole ++ '.' :: fraction).all isNumeric = true := by
    rw [List.all_append, List.all_cons, isNumeric_of_isDigit hProper.whole,
      isNumeric_of_isDigit hProper.fraction]
    rfl
  have hNumeric : (layout.write number).toList.all isNumeric = true := by
    rw [hText, List.all_append, hBehind]
    cases Layout.isNegative number <;> rfl
  have hDash : '-' ∉ (layout.write number).toList.drop 4 := by
    have hNoDash : '-' ∉ whole ++ '.' :: fraction := by
      have hNoDigit {digits : List Char} (hDigits : digits.all Char.isDigit = true) :
          '-' ∉ digits := not_mem_of_all hDigits rfl
      simp [hNoDigit hProper.whole, hNoDigit hProper.fraction]
    rw [hText]
    cases Layout.isNegative number with
    | true => exact fun hMem => hNoDash (List.mem_of_mem_drop (i := 3) hMem)
    | false => exact fun hMem => hNoDash (List.mem_of_mem_drop (i := 4) hMem)
  have hPoint : '.' ∈ (layout.write number).toList := by simp [hText]
  refine writes_word (List.ne_nil_of_mem hPoint) (isWordChar_of_isNumeric hNumeric) ?_
  rw [ofWord?_eq hNumeric hDash, integer?_eq_none hPoint, specialReal?_eq_none hPoint, hText,
    decimalReal?_append hProper.whole hProper.leading hProper.fraction hSome (hValue.symm ▸ h),
    hValue]
  rfl

end Toml

end ForestGraph
