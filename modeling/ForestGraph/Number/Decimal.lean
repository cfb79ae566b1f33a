/-!
# Decimal numbers

A `Decimal` is the number that a literal such as `-12.5e-3` spells: a sign, a
natural significand and a power of ten.  `Decimal.toFloat` rounds it to the
nearest binary64 number, ties to the even one, for every significand and every
exponent; what exceeds the largest number rounds to infinity.  Zeros at the end
of the significand are moved into the exponent first, so decimals that differ
only in such zeros are rounded alike.
-/

namespace ForestGraph

/-- The number `±significand * 10 ^ exponent`. -/
structure Decimal where
  negative : Bool
  significand : Nat
  exponent : Int
  deriving DecidableEq

/-- The count of decimal digits of a number; zero has one. -/
def digitCount (number : Nat) : Nat :=
  (Nat.toDigits 10 number).length

/-- The number that a string of decimal digits spells. -/
def digitsValue (digits : List Char) : Nat :=
  Nat.ofDigitChars 10 digits 0

/-- The digits that write a number spell it. -/
theorem digitsValue_toDigits (number : Nat) :
    digitsValue (Nat.toDigits 10 number) = number :=
  Nat.ofDigitChars_toDigits (by decide) (by decide)

/-- A number is written with digits only. -/
theorem all_isDigit_toDigits (number : Nat) : (Nat.toDigits 10 number).all Char.isDigit = true :=
  List.all_eq_true.mpr fun _ => Nat.isDigit_of_mem_toDigits (by decide) (by decide)

/-- The decimal digits at the front of a text, and what follows them. -/
def splitDigits (text : List Char) : List Char × List Char :=
  (text.takeWhile Char.isDigit, text.dropWhile Char.isDigit)

/-- Nothing of the text is lost. -/
theorem splitDigits_append (text : List Char) :
    (splitDigits text).1 ++ (splitDigits text).2 = text :=
  List.takeWhile_append_dropWhile

/-- The first part holds digits only. -/
theorem all_isDigit_splitDigits (text : List Char) :
    (splitDigits text).1.all Char.isDigit = true :=
  List.all_takeWhile

/-- Digits are split off whatever follows them, unless another digit does. -/
theorem splitDigits_digits_append {digits rest : List Char}
    (hDigits : digits.all Char.isDigit = true)
    (hRest : ∀ first ∈ rest.head?, first.isDigit = false) :
    splitDigits (digits ++ rest) = (digits, rest) := by
  induction digits with
  | nil =>
      cases rest with
      | nil => rfl
      | cons first rest =>
          have hFirst := hRest first rfl
          simp [splitDigits, hFirst]
  | cons digit digits ih =>
      simp only [List.all_cons, Bool.and_eq_true] at hDigits
      have hTail := ih hDigits.2
      simp only [splitDigits, Prod.mk.injEq] at hTail
      simp [splitDigits, hDigits.1, hTail]

/-- From this size on, no further digits of an exponent are read. -/
def exponentBound : Nat := 0x10000

/-- The size of an exponent that is spelled by decimal digits.  The digits are
read until they amount to `exponentBound`; a number with such an exponent is
zero or infinite, unless it has tens of thousands of digits itself. -/
def exponentSize (digits : List Char) : Nat :=
  digits.foldl (fun size digit =>
    if size < exponentBound then 10 * size + (digit.toNat - '0'.toNat) else size) 0

/-- Splits an optional sign off a text; the flag tells whether it is a minus. -/
def splitSign : List Char → Bool × List Char
  | '-' :: rest => (true, rest)
  | '+' :: rest => (false, rest)
  | text => (false, text)

/-- Nothing is split off a text that does not start with a sign. -/
theorem splitSign_of_noSign {text : List Char}
    (h : ∀ first ∈ text.head?, first ≠ '-' ∧ first ≠ '+') : splitSign text = (false, text) := by
  unfold splitSign
  split
  · exact absurd rfl (h '-' rfl).1
  · exact absurd rfl (h '+' rfl).2
  · rfl

/-- Digits are no signs. -/
theorem not_sign_of_isDigit {char : Char} (h : char.isDigit = true) :
    char ≠ '-' ∧ char ≠ '+' := by
  constructor <;> rintro rfl <;> cases h

/-- The number above all others. -/
def infinity : Float :=
  Float.ofBits 0x7ff0000000000000

/-- The value of operations that have no number as their result. -/
def notANumber : Float :=
  Float.ofBits 0x7ff8000000000000

namespace Decimal

/-- The decimal `±whole.fraction * 10 ^ exponent`, from the digits on both sides
of the point. -/
def ofDigits (negative : Bool) (whole fraction : List Char) (exponent : Int) : Decimal :=
  ⟨negative, digitsValue (whole ++ fraction), exponent - (fraction.length : Int)⟩

/-- The same number with a significand that does not end in zero. -/
def trim (significand : Nat) (exponent : Int) : Nat × Int :=
  if h : significand ≠ 0 ∧ significand % 10 = 0 then
    trim (significand / 10) (exponent + 1)
  else (significand, exponent)
termination_by significand
decreasing_by omega

/-- Every number from `10 ^ largestMagnitude` on rounds to infinity. -/
def largestMagnitude : Int := 400

/-- Every number below `10 ^ smallestMagnitude` rounds to zero. -/
def smallestMagnitude : Int := -400

/-- The nearest binary64 number of the absolute value.  The two guards only
spare the computation of powers of ten that no binary64 number comes near. -/
def magnitude (significand : Nat) (exponent : Int) : Float :=
  let (significand, exponent) := trim significand exponent
  let point := (digitCount significand : Int) + exponent
  if significand = 0 then 0
  else if largestMagnitude < point then infinity
  else if point < smallestMagnitude then 0
  else Float.ofScientific significand (decide (exponent < 0)) exponent.natAbs

/-- The nearest binary64 number, with the sign of the decimal also on zero. -/
def toFloat (decimal : Decimal) : Float :=
  let size := magnitude decimal.significand decimal.exponent
  if decimal.negative then -size else size

end Decimal

end ForestGraph
