import ForestGraph.Json.Writer
import ForestGraph.Proofs.ShortDecimals

/-!
# Texts of numbers

The text of a number in a JSON document consists of digits before a point, digits behind
it and an exponent.  The reader finds these parts again, and what they amount to is the
number that was written.
-/

namespace ForestGraph

namespace JsonToken

/-- What follows a word in a document: nothing, or the end of its item or line. -/
def EndsWord (rest : List Char) : Prop :=
  ∀ first ∈ rest.head?, first = ',' ∨ first = '\n'

/-- No part of a number goes on behind its end. -/
theorem EndsWord.not_continued {rest : List Char} (h : EndsWord rest) :
    ∀ first ∈ rest.head?, first.isDigit = false ∧ first ≠ '.' ∧ first ≠ 'e' ∧ first ≠ 'E' := by
  intro first hFirst
  rcases h first hFirst with rfl | rfl <;> decide

end JsonToken

/-! ## Parts of a number -/

/-- The digits before and behind the point of a number and its exponent; what is missing
is not written. -/
structure Numeral where
  whole : List Char
  fraction : List Char
  exponent : Option Int

namespace Numeral

/-- The point and the digits behind it. -/
def fractionText (fraction : List Char) : List Char :=
  if fraction = [] then [] else '.' :: fraction

/-- The exponent with its mark and its sign. -/
def exponentText : Option Int → List Char
  | none => []
  | some power => 'e' :: (if power < 0 then '-' else '+') :: Nat.toDigits 10 power.natAbs

/-- The text without a sign. -/
def text (numeral : Numeral) : List Char :=
  numeral.whole ++ fractionText numeral.fraction ++ exponentText numeral.exponent

/-- The numeral as a decimal. -/
def decimal (negative : Bool) (numeral : Numeral) : Decimal :=
  .ofDigits negative numeral.whole numeral.fraction (numeral.exponent.getD 0)

/-- Neither a point nor an exponent is written. -/
def isIntegral (numeral : Numeral) : Bool :=
  numeral.fraction.isEmpty && numeral.exponent.isNone

/-- Only digits, no leading zero, and no more digits than are told apart. -/
structure Proper (numeral : Numeral) : Prop where
  whole : numeral.whole.all Char.isDigit = true
  fraction : numeral.fraction.all Char.isDigit = true
  leading : numeral.whole = ['0'] ∨ numeral.whole ≠ [] ∧ numeral.whole.head? ≠ some '0'
  length_le : ((numeral.whole ++ numeral.fraction).dropWhile (· == '0')).length ≤
    JsonToken.largestDigits

end Numeral

/-! ## Reading the parts -/

namespace JsonToken

variable {whole fraction rest : List Char}

/-- What starts in another way than with a digit. -/
def NoDigit (rest : List Char) : Prop :=
  ∀ first ∈ rest.head?, first.isDigit = false

theorem whole?_append (hDigits : whole.all Char.isDigit = true)
    (hLeading : whole = ['0'] ∨ whole ≠ [] ∧ whole.head? ≠ some '0') (hRest : NoDigit rest) :
    whole? (whole ++ rest) = some (whole, rest) := by
  rcases hLeading with rfl | ⟨hSome, hFirst⟩
  · rfl
  · have hSplit := splitDigits_digits_append hDigits hRest
    cases whole with
    | nil => exact absurd rfl hSome
    | cons first digits =>
        have hFirst : first ≠ '0' := by simpa using hFirst
        unfold whole?
        split
        · rename_i hText
          simp_all
        · rw [hSplit]
          rfl

theorem fraction?_append (hDigits : fraction.all Char.isDigit = true) (hRest : NoDigit rest)
    (hPoint : rest.head? ≠ some '.') :
    fraction? (Numeral.fractionText fraction ++ rest) = some (fraction, rest) := by
  by_cases hNone : fraction = []
  · subst hNone
    unfold fraction? Numeral.fractionText
    split
    · rename_i hText
      simp_all
    · rfl
  · rw [Numeral.fractionText, if_neg hNone]
    simp only [List.cons_append, fraction?, splitDigits_digits_append hDigits hRest]
    rw [if_neg (by simpa using hNone)]

theorem exponent?_append (exponent : Option Int) (hRest : EndsWord rest) :
    exponent? (Numeral.exponentText exponent ++ rest) = some (exponent, rest) := by
  have hEnd := hRest.not_continued
  cases exponent with
  | none =>
      cases rest with
      | nil => rfl
      | cons first rest =>
          obtain ⟨-, -, hSmall, hLarge⟩ := hEnd first rfl
          simp [Numeral.exponentText, exponent?, hSmall, hLarge]
  | some power =>
      have hDigits := all_isDigit_toDigits power.natAbs
      have hSplit := splitDigits_digits_append hDigits fun first hFirst => (hEnd first hFirst).1
      by_cases hNegative : power < 0
      · have hSize : -|power| = power := by rw [abs_of_neg hNegative, neg_neg]
        simp [Numeral.exponentText, exponent?, hNegative, splitSign, hSplit, digitsValue_toDigits,
          Nat.toDigits_ne_nil, hSize]
      · have hSize : |power| = power := abs_of_nonneg (not_lt.mp hNegative)
        simp [Numeral.exponentText, exponent?, hNegative, splitSign, hSplit, digitsValue_toDigits,
          Nat.toDigits_ne_nil, hSize]

theorem length_dropWhile_le_append (p : Char → Bool) (front back : List Char) :
    (front.dropWhile p).length ≤ ((front ++ back).dropWhile p).length := by
  rw [List.dropWhile_append]
  split
  · rename_i hNone
    rw [List.isEmpty_iff.mp hNone]
    exact Nat.zero_le _
  · rw [List.length_append]
    exact Nat.le_add_right _ _

/-- Leaving out zeros at the end of the fraction leaves out no digits that are told apart. -/
theorem decimal_eq (negative : Bool) (exponent : Int)
    (h : ((whole ++ fraction).dropWhile (· == '0')).length ≤ largestDigits) :
    decimal negative whole fraction exponent = .ofDigits negative whole fraction exponent := by
  have hZeros : fraction = (fraction.reverse.dropWhile (· == '0')).reverse ++
      (fraction.reverse.takeWhile (· == '0')).reverse := by
    rw [← List.reverse_append, List.takeWhile_append_dropWhile, List.reverse_reverse]
  rw [hZeros, ← List.append_assoc] at h
  rw [decimal, if_pos ((length_dropWhile_le_append ..).trans h)]

end JsonToken

/-- The sign in front of a number. -/
def Numeral.signText (negative : Bool) : List Char :=
  if negative then ['-'] else []

namespace Numeral.Proper

open JsonToken

variable {numeral : Numeral} {rest : List Char}

/-- The text starts with a digit. -/
theorem exists_first (h : numeral.Proper) :
    ∃ first more, numeral.text = first :: more ∧ first.isDigit = true := by
  have hDigits := h.whole
  unfold text
  cases hWhole : numeral.whole with
  | nil => exact absurd hWhole (by rcases h.leading with hZero | hSome <;> simp_all)
  | cons first digits =>
      rw [hWhole, List.all_cons, Bool.and_eq_true] at hDigits
      exact ⟨first, _, rfl, hDigits.1⟩

theorem exponent_noDigit (exponent : Option Int) (hRest : EndsWord rest) :
    NoDigit (exponentText exponent ++ rest) ∧ (exponentText exponent ++ rest).head? ≠ some '.' := by
  have hEnd := hRest.not_continued
  cases exponent with
  | none => exact ⟨fun first hFirst => (hEnd first hFirst).1, fun hPoint => (hEnd _ hPoint).2.1 rfl⟩
  | some power => simp [exponentText, NoDigit]

theorem fraction_noDigit (fraction : List Char) (exponent : Option Int) (hRest : EndsWord rest) :
    NoDigit (fractionText fraction ++ (exponentText exponent ++ rest)) := by
  unfold fractionText
  split
  · exact (exponent_noDigit exponent hRest).1
  · simp [NoDigit]

/-- The parts of a number are found again. -/
theorem number?_append (h : numeral.Proper) (negative : Bool) (hRest : EndsWord rest) :
    number? (signText negative ++ numeral.text ++ rest) =
      some (.ofDecimal numeral.isIntegral (numeral.decimal negative), rest) := by
  have hWhole : whole? (numeral.text ++ rest) =
      some (numeral.whole,
        fractionText numeral.fraction ++ (exponentText numeral.exponent ++ rest)) := by
    rw [text, List.append_assoc, List.append_assoc]
    exact whole?_append h.whole h.leading (fraction_noDigit numeral.fraction numeral.exponent hRest)
  obtain ⟨hDigit, hPoint⟩ := exponent_noDigit numeral.exponent hRest
  have hFraction := fraction?_append h.fraction hDigit hPoint
  have hExponent := exponent?_append numeral.exponent hRest
  rw [List.append_assoc]
  cases negative with
  | true =>
      simp [number?, signText, hWhole, hFraction, hExponent, decimal_eq _ _ h.length_le, decimal,
        isIntegral]
  | false =>
      obtain ⟨first, more, hFirst, hDigit⟩ := h.exists_first
      have hMinus : first ≠ '-' := by
        rintro rfl
        cases hDigit
      rw [hFirst, List.cons_append] at hWhole
      simp [number?, signText, hFirst, hMinus, hWhole, hFraction, hExponent,
        decimal_eq _ _ h.length_le, decimal, isIntegral]

/-- The text of a number is one token. -/
theorem read?_append (h : numeral.Proper) (negative : Bool) (hRest : EndsWord rest) :
    read? (signText negative ++ numeral.text ++ rest) =
      some (.number (.ofDecimal numeral.isIntegral (numeral.decimal negative)), rest) := by
  have hNumber := h.number?_append negative hRest
  have hFirst : ∃ first more, signText negative ++ numeral.text ++ rest = first :: more ∧
      (first = '-' ∨ first.isDigit = true) := by
    obtain ⟨first, more, hFirst, hDigit⟩ := h.exists_first
    cases negative with
    | true => exact ⟨'-', _, rfl, .inl rfl⟩
    | false => exact ⟨first, more ++ rest, by simp [signText, hFirst], .inr hDigit⟩
  obtain ⟨first, more, hText, hStart⟩ := hFirst
  rw [hText] at hNumber ⊢
  -- No other token starts with a digit or a minus sign.
  unfold read?
  split
  all_goals first
    | (rename_i hChars; obtain ⟨rfl, -⟩ := List.cons.inj hChars; simp at hStart)
    | rw [hNumber]; rfl

end Numeral.Proper

/-! ## The parts of a short decimal -/

/-- The numeral has the parts that it needs, is not taken for an index, and is read as a
number. -/
structure Numeral.Reads (numeral : Numeral) (size : Float) : Prop where
  proper : numeral.Proper
  isIntegral_eq : numeral.isIntegral = false
  magnitude_eq : Decimal.magnitude (digitsValue (numeral.whole ++ numeral.fraction))
    (numeral.exponent.getD 0 - numeral.fraction.length) = size

theorem digitsValue_zeros_append (places : Nat) (digits : List Char) :
    digitsValue (List.replicate places '0' ++ digits) = digitsValue digits := by
  rw [digitsValue, Nat.ofDigitChars_append, Nat.ofDigitChars_replicate_zero, mul_zero, digitsValue]

theorem digitsValue_append_zeros (digits : List Char) (places : Nat) :
    digitsValue (digits ++ List.replicate places '0') = digitsValue digits * 10 ^ places := by
  rw [digitsValue, Nat.ofDigitChars_append, Nat.ofDigitChars_replicate_zero, digitsValue, mul_comm]

theorem dropWhile_zeros_append (places : Nat) (digits : List Char) :
    (List.replicate places '0' ++ digits).dropWhile (· == '0') = digits.dropWhile (· == '0') :=
  List.dropWhile_append_of_pos fun _ hZero => by simp [List.eq_of_mem_replicate hZero]

namespace ShortDecimal

variable {decimal : ShortDecimal} {size : Float}

/-- The parts of a decimal that is written without an exponent. -/
def positionalNumeral (decimal : ShortDecimal) : Numeral where
  whole :=
    if 0 < decimal.point then
      decimal.digits.take decimal.point.toNat ++
        List.replicate (decimal.point.toNat - decimal.digits.length) '0'
    else ['0']
  fraction :=
    if decimal.point < decimal.digits.length then
      List.replicate (-decimal.point).toNat '0' ++ decimal.digits.drop decimal.point.toNat
    else ['0']
  exponent := none

/-- The parts of a decimal that is written with an exponent. -/
def scientificNumeral (decimal : ShortDecimal) : Numeral where
  whole := if decimal.digits = [] then ['0'] else decimal.digits.take 1
  fraction := decimal.digits.drop 1
  exponent := some (if decimal.digits = [] then 0 else decimal.point - 1)

theorem all_isDigit_replicate (places : Nat) :
    (List.replicate places '0').all Char.isDigit = true :=
  List.all_eq_true.mpr fun _ hZero => by rw [List.eq_of_mem_replicate hZero]; rfl

/-- Zeros stand between the point and the digits. -/
theorem Shows.reads_below (h : Shows decimal size) (hSome : decimal.digits ≠ [])
    (hPoint : decimal.point ≤ 0) : decimal.positionalNumeral.Reads size := by
  have hLength := List.length_pos_iff.mpr hSome
  have hZeros : ['0'] ++ (List.replicate (-decimal.point).toNat '0' ++ decimal.digits) =
      List.replicate ((-decimal.point).toNat + 1) '0' ++ decimal.digits := rfl
  have hNumeral : decimal.positionalNumeral =
      ⟨['0'], List.replicate (-decimal.point).toNat '0' ++ decimal.digits, none⟩ := by
    rw [positionalNumeral, if_neg (by omega), if_pos (by omega), Int.toNat_of_nonpos hPoint,
      List.drop_zero]
  rw [hNumeral]
  refine ⟨⟨rfl, ?_, .inl rfl, ?_⟩, ?_, ?_⟩
  · rw [List.all_append, all_isDigit_replicate, h.isDigit, Bool.and_self]
  · rw [hZeros, dropWhile_zeros_append]
    exact (List.length_dropWhile_le _ _).trans h.length_le
  · simp [Numeral.isIntegral, hSome]
  · rw [hZeros, digitsValue_zeros_append, List.length_append, List.length_replicate,
      ← h.magnitude_eq]
    congr 1
    simp only [Option.getD_none]
    omega

/-- The point stands among the digits. -/
theorem Shows.reads_inside (h : Shows decimal size) (hLow : 0 < decimal.point)
    (hHigh : decimal.point < decimal.digits.length) : decimal.positionalNumeral.Reads size := by
  have hWhole : decimal.digits.take decimal.point.toNat ++ decimal.digits.drop decimal.point.toNat =
      decimal.digits := List.take_append_drop _ _
  have hNumeral : decimal.positionalNumeral =
      ⟨decimal.digits.take decimal.point.toNat, decimal.digits.drop decimal.point.toNat, none⟩ := by
    have hNoZeros : decimal.point.toNat - decimal.digits.length = 0 := by omega
    have hNoMore : (-decimal.point).toNat = 0 := by omega
    rw [positionalNumeral, if_pos hLow, if_pos hHigh, hNoZeros, hNoMore, List.replicate_zero,
      List.append_nil, List.nil_append]
  have hAll := h.isDigit
  rw [← hWhole, List.all_append, Bool.and_eq_true] at hAll
  rw [hNumeral]
  refine ⟨⟨hAll.1, hAll.2, .inr ⟨?_, ?_⟩, ?_⟩, ?_, ?_⟩
  · rw [← List.length_pos_iff, List.length_take]
    omega
  · rw [List.head?_take, if_neg (by omega)]
    exact h.head?_ne
  · rw [hWhole]
    exact (List.length_dropWhile_le _ _).trans h.length_le
  · have hSome : decimal.digits.drop decimal.point.toNat ≠ [] := by
      rw [← List.length_pos_iff, List.length_drop]
      omega
    simp [Numeral.isIntegral, hSome]
  · rw [hWhole, List.length_drop, ← h.magnitude_eq]
    congr 1
    simp only [Option.getD_none]
    omega

/-- Zeros stand between the digits and the point. -/
theorem Shows.reads_above (h : Shows decimal size) (hSome : decimal.digits ≠ [])
    (hLow : decimal.digits.length ≤ decimal.point)
    (hHigh : decimal.point < JsonToken.largestDigits) : decimal.positionalNumeral.Reads size := by
  have hLength := List.length_pos_iff.mpr hSome
  have hNumeral : decimal.positionalNumeral = ⟨decimal.digits ++
      List.replicate (decimal.point.toNat - decimal.digits.length) '0', ['0'], none⟩ := by
    rw [positionalNumeral, if_pos (by omega), if_neg (by omega), List.take_of_length_le (by omega)]
  have hZeros : decimal.digits ++
      List.replicate (decimal.point.toNat - decimal.digits.length) '0' ++ ['0'] =
      decimal.digits ++ List.replicate (decimal.point.toNat - decimal.digits.length + 1) '0' := by
    rw [List.append_assoc, List.replicate_succ']
  rw [hNumeral]
  refine ⟨⟨?_, rfl, .inr ⟨by simp [hSome], ?_⟩, ?_⟩, rfl, ?_⟩
  · rw [List.all_append, all_isDigit_replicate, h.isDigit, Bool.and_self]
  · rw [List.head?_append_of_ne_nil _ hSome]
    exact h.head?_ne
  · refine (List.length_dropWhile_le _ _).trans ?_
    rw [hZeros, List.length_append, List.length_replicate]
    omega
  · rw [hZeros, digitsValue_append_zeros, magnitude_mul_ten, ← h.magnitude_eq]
    congr 1
    simp only [Option.getD_none, List.length_singleton]
    omega

/-- A decimal that is written without an exponent. -/
theorem Shows.reads_positional (h : Shows decimal size)
    (hPoint : decimal.point < JsonToken.largestDigits) : decimal.positionalNumeral.Reads size := by
  by_cases hNone : decimal.digits = []
  · have hValue := h.magnitude_eq
    have hNumeral : decimal.positionalNumeral = ⟨['0'], ['0'], none⟩ := by
      simp [positionalNumeral, hNone, h.point_eq hNone]
    rw [hNumeral]
    refine ⟨⟨rfl, rfl, .inl rfl, Nat.zero_le _⟩, rfl, ?_⟩
    rw [hNone] at hValue
    rw [← hValue]
    exact (magnitude_zero _).trans (magnitude_zero _).symm
  · rcases le_or_gt decimal.point 0 with hBelow | hLow
    · exact h.reads_below hNone hBelow
    · rcases lt_or_ge decimal.point decimal.digits.length with hInside | hAbove
      · exact h.reads_inside hLow hInside
      · exact h.reads_above hNone hAbove hPoint

/-- A decimal that is written with an exponent. -/
theorem Shows.reads_scientific (h : Shows decimal size) :
    decimal.scientificNumeral.Reads size := by
  have hDigits := h.isDigit
  have hFirst := h.head?_ne
  have hLength := h.length_le
  have hValue := h.magnitude_eq
  unfold scientificNumeral
  rcases hParts : decimal.digits with _ | ⟨digit, rest⟩
  · rw [hParts] at hValue
    refine ⟨⟨rfl, rfl, .inl rfl, Nat.zero_le _⟩, rfl, ?_⟩
    rw [← hValue]
    exact (magnitude_zero _).trans (magnitude_zero _).symm
  · rw [hParts] at hDigits hFirst hLength hValue
    rw [List.all_cons, Bool.and_eq_true] at hDigits
    refine ⟨⟨by simpa using hDigits.1, hDigits.2, .inr ⟨by simp, hFirst⟩, ?_⟩,
      Bool.and_false _, ?_⟩
    · exact (List.length_dropWhile_le _ _).trans hLength
    · have hExponent : decimal.point - 1 - (rest.length : Int) =
          decimal.point - ((digit :: rest).length : Int) := by
        rw [List.length_cons]
        omega
      simpa [hExponent] using hValue

theorem toList_scientific (decimal : ShortDecimal) :
    (Json.layout.scientific decimal).toList = decimal.scientificNumeral.text := by
  have hSign (point : Int) : (if point < 1 then "-" else "+").toList =
      [if point < 1 then '-' else '+'] := by
    split <;> rfl
  rcases decimal with ⟨_ | ⟨digit, _ | ⟨second, rest⟩⟩, point⟩
  · simp [Layout.scientific, scientificNumeral, Numeral.text, Numeral.fractionText,
      Numeral.exponentText, Json.layout]
  all_goals simp [Layout.scientific, scientificNumeral, Numeral.text, Numeral.fractionText,
      Numeral.exponentText, hSign, Json.layout]

/-- The text of a decimal in a layout in which integers keep their point. -/
theorem toList_positional {layout : Layout} (hKeep : layout.keepPoint = true)
    (h : decimal.digits = [] → decimal.point = 0) :
    (layout.positional decimal).toList = decimal.positionalNumeral.text := by
  have hZeros : decimal.point.toNat - (decimal.digits.take decimal.point.toNat).length =
      decimal.point.toNat - decimal.digits.length := by
    rw [List.length_take]
    omega
  have hWhole : (decimal.digits.take decimal.point.toNat ++ List.replicate
      (decimal.point.toNat - decimal.digits.length) '0').isEmpty = true ↔ ¬ 0 < decimal.point := by
    rw [List.isEmpty_iff_length_eq_zero, List.length_append, List.length_replicate,
      List.length_take]
    omega
  have hFraction : ((List.replicate (-decimal.point).toNat '0' ++
      decimal.digits.drop decimal.point.toNat).isEmpty || decimal.digits.isEmpty) = true ↔
      ¬ decimal.point < decimal.digits.length := by
    rw [Bool.or_eq_true, List.isEmpty_iff_length_eq_zero, List.isEmpty_iff, List.length_append,
      List.length_replicate, List.length_drop]
    by_cases hNone : decimal.digits = []
    · simp [hNone, h hNone]
    · have := List.length_pos_iff.mpr hNone
      simp only [hNone, or_false]
      omega
  have hSome : decimal.point < decimal.digits.length →
      List.replicate (-decimal.point).toNat '0' ++
        decimal.digits.drop decimal.point.toNat ≠ [] := by
    intro hInside hNone
    exact hFraction.mp (by rw [hNone]; rfl) hInside
  simp only [Layout.positional, hZeros, hFraction, hWhole, positionalNumeral, Numeral.text,
    Numeral.fractionText, Numeral.exponentText]
  split_ifs <;> simp_all

/-- The writer gives every decimal one of the two forms. -/
theorem Shows.exists_reads (h : Shows decimal size) (negative : Bool) :
    ∃ numeral : Numeral, numeral.Reads size ∧
      (Json.layout.writeDecimal negative decimal).toList =
        Numeral.signText negative ++ numeral.text := by
  have hSign : (if negative then "-" else "").toList = Numeral.signText negative := by
    cases negative <;> rfl
  simp only [Layout.writeDecimal, String.toList_append, hSign]
  by_cases hPositional : Json.layout.isPositional
      (if decimal.digits.isEmpty then 0 else decimal.point - 1) = true
  · have hPoint : decimal.point ≤ 16 := by
      by_cases hNone : decimal.digits = []
      · rw [h.point_eq hNone]
        decide
      · rw [if_neg (by simpa using hNone), Layout.isPositional, Bool.and_eq_true] at hPositional
        have hHighest : decimal.point - 1 ≤ 15 := by simpa [Json.layout] using hPositional.2
        omega
    rw [if_pos hPositional, toList_positional rfl h.point_eq]
    exact ⟨_, h.reads_positional (hPoint.trans_lt (by decide)), rfl⟩
  · rw [if_neg hPositional, toList_scientific]
    exact ⟨_, h.reads_scientific, rfl⟩

end ShortDecimal

/-! ## Words -/

namespace JsonToken

/-- A text that is read as one token where it ends its item or line. -/
structure Word (text : String) (token : JsonToken) : Prop where
  starts : ∃ first more, text.toList = first :: more ∧ isBlank first = false
  read : ∀ rest, EndsWord rest → read? (text.toList ++ rest) = some (token, rest)

theorem word_null : Word "null" .null where
  starts := ⟨'n', _, rfl, rfl⟩
  read _ _ := rfl

theorem word_bool (truth : Bool) : Word (toString truth) (.bool truth) := by
  cases truth with
  | true => exact ⟨⟨'t', _, rfl, rfl⟩, fun _ _ => rfl⟩
  | false => exact ⟨⟨'f', _, rfl, rfl⟩, fun _ _ => rfl⟩

theorem word_numeral {numeral : Numeral} (h : numeral.Proper) {negative : Bool} {text : String}
    (hText : text.toList = Numeral.signText negative ++ numeral.text) :
    Word text (.number (.ofDecimal numeral.isIntegral (numeral.decimal negative))) where
  starts := by
    obtain ⟨first, more, hFirst, hDigit⟩ := h.exists_first
    cases negative with
    | true => exact ⟨'-', _, hText, rfl⟩
    | false =>
        refine ⟨first, more, hText.trans hFirst, ?_⟩
        by_contra hBlank
        simp only [isBlank, Bool.not_eq_false, Bool.or_eq_true, beq_iff_eq] at hBlank
        rcases hBlank with ((rfl | rfl) | rfl) | rfl <;> cases hDigit
  read rest hRest := by
    rw [hText]
    exact h.read?_append negative hRest

/-- A finite number is written as a word that stands for it. -/
theorem word_write {number : Float} (h : number.isFinite = true) :
    Word (Json.layout.write number) (.number (.real number)) := by
  have hShown := ShortDecimal.shows_ofFloat h .even
  obtain ⟨numeral, hReads, hText⟩ := hShown.exists_reads (Layout.isNegative number)
  have hWrite : Json.layout.write number =
      Json.layout.writeDecimal (Layout.isNegative number) (ShortDecimal.ofFloat .even number) := by
    rw [Layout.write, if_neg (Bool.eq_false_iff.mp (isNaN_of_isFinite h)),
      if_neg (Bool.eq_false_iff.mp (isInf_of_isFinite h))]
    rfl
  have hDecimal : (numeral.decimal (Layout.isNegative number)).toFloat = number := by
    -- The parts amount to the absolute value, and the sign is read as it was written.
    have hMagnitude := hReads.magnitude_eq
    simp only [Numeral.decimal, Decimal.ofDigits, Decimal.toFloat, hMagnitude]
    exact signed_abs h
  have hLiteral : JsonNumber.ofDecimal numeral.isIntegral
      (numeral.decimal (Layout.isNegative number)) = .real number := by
    simp [JsonNumber.ofDecimal, hReads.isIntegral_eq, Decimal.toFinite?, hDecimal, h]
  exact hLiteral ▸ word_numeral hReads.proper (hWrite ▸ hText)

/-- What is no finite number is written as the absence of a value. -/
theorem write_eq_null {number : Float} (h : number.isFinite = false) :
    Json.layout.write number = "null" := by
  rw [Layout.write]
  by_cases hNumber : number.isNaN = true
  · rw [if_pos hNumber]
    rfl
  · rw [if_neg hNumber, if_pos (isInf_of_not_isFinite (Bool.eq_false_iff.mpr hNumber) h)]
    split <;> rfl

/-- The digits of an index. -/
theorem proper_toDigits {index : Nat} (h : index ≤ Index.largest) :
    Numeral.Proper ⟨Nat.toDigits 10 index, [], none⟩ := by
  refine ⟨all_isDigit_toDigits index, rfl, leading_toDigits index, ?_⟩
  have hFew : index < 10 ^ 20 := h.trans_lt (by decide)
  have hLength := (Nat.length_toDigits_le_iff (by decide) (by decide)).mpr hFew
  rw [List.append_nil]
  exact (List.length_dropWhile_le _ _).trans (hLength.trans (by decide))

/-- An index is written as a word that stands for it. -/
theorem word_toString {index : Nat} (h : index ≤ Index.largest) :
    Word (toString index) (.number (.index index)) := by
  have hText : (toString index).toList =
      Numeral.signText false ++ Numeral.text ⟨Nat.toDigits 10 index, [], none⟩ := by
    simp [Numeral.signText, Numeral.text, Numeral.fractionText, Numeral.exponentText]
  have hWord := word_numeral (proper_toDigits h) hText
  simpa [Numeral.decimal, Numeral.isIntegral, JsonNumber.ofDecimal, Decimal.ofDigits,
    digitsValue_toDigits, h] using hWord

end JsonToken

end ForestGraph
