import ForestGraph.Toml.Moment
import ForestGraph.Toml.Value

/-!
# TOML scalars

A scalar that is no string is a word: a run of letters, digits and the signs
`+`, `-`, `.`, `:` and `_`.  Which scalar it is follows from its form alone.
-/

namespace ForestGraph.Toml

/-- The digits of a run in which single underscores may stand between digits. -/
def separated? (isDigit : Char → Bool) : List Char → Option (List Char)
  | [] => none
  | [digit] => if isDigit digit then some [digit] else none
  | digit :: '_' :: rest =>
      if isDigit digit then (separated? isDigit rest).map (digit :: ·) else none
  | digit :: rest =>
      if isDigit digit then (separated? isDigit rest).map (digit :: ·) else none

/-- The digits of an integer part, which does not start with a needless zero. -/
def whole? (text : List Char) : Option (List Char) := do
  let digits ← separated? Char.isDigit text
  if digits.head? == some '0' && digits.length != 1 then none else some digits

/-- The value of a digit in any base up to sixteen. -/
def digitValue (digit : Char) : Nat :=
  if digit.isDigit then digit.toNat - '0'.toNat
  else digit.toLower.toNat - 'a'.toNat + 10

/-- A natural number written in a base. -/
def inBase? (base : Nat) (text : List Char) : Option Nat := do
  let isDigit (char : Char) : Bool :=
    (char.isDigit || char.isAlpha) && decide (digitValue char < base)
  let digits ← separated? isDigit text
  return digits.foldl (fun value digit => base * value + digitValue digit) 0

/-- An integer of 64 bits. -/
def integer? (text : List Char) : Option Int := do
  let number : Int ← match text with
    | '0' :: 'x' :: digits => (inBase? 16 digits).map Int.ofNat
    | '0' :: 'o' :: digits => (inBase? 8 digits).map Int.ofNat
    | '0' :: 'b' :: digits => (inBase? 2 digits).map Int.ofNat
    | _ => do
        let (negative, text) := splitSign text
        let digits ← whole? text
        let size : Int := digitsValue digits
        pure (if negative then -size else size)
  if -(largestInteger + 1 : Int) ≤ number ∧ number ≤ largestInteger then some number else none

/-- The exponent that ends a number, which may be missing. -/
def exponent? (text : List Char) : Option Int :=
  match text with
  | [] => some 0
  | mark :: rest => do
      let (negative, rest) := splitSign rest
      let digits ← separated? Char.isDigit rest
      let size : Int := exponentSize digits
      if mark = 'e' ∨ mark = 'E' then some (if negative then -size else size) else none

/-- Whether a character belongs to a run of digits. -/
def isDigitOrSeparator (char : Char) : Bool :=
  char.isDigit || char == '_'

/-- A number with a point or an exponent; it must not be too large for binary64,
while one that is too small for it is minus infinity. -/
def decimalReal? (text : List Char) : Option Float := do
  let (negative, text) := splitSign text
  let (whole, text) := text.span isDigitOrSeparator
  let whole ← whole? whole
  let number ← match text with
    | '.' :: text => do
        let (fraction, text) := text.span isDigitOrSeparator
        let fraction ← separated? Char.isDigit fraction
        let exponent ← exponent? text
        pure (Decimal.ofDigits negative whole fraction exponent).toFloat
    | _ :: _ => do
        let exponent ← exponent? text
        pure (Decimal.ofDigits negative whole [] exponent).toFloat
    | [] => none
  if number == infinity then none else some number

/-- An infinity or a NaN. -/
def specialReal? (text : List Char) : Option Float :=
  let (negative, word) := splitSign text
  if word = ['i', 'n', 'f'] then some (if negative then -infinity else infinity)
  else if word = ['n', 'a', 'n'] then some notANumber
  else none

/-! ## Words -/

/-- Whether a character may belong to a scalar that is no string. -/
def isWordChar (char : Char) : Bool :=
  char.isAlphanum || char == '+' || char == '-' || char == '.' || char == ':' || char == '_'

/-- The scalar that a word is. -/
def ofWord? (word : List Char) : Option Toml :=
  if word = ['t', 'r', 'u', 'e'] then some (.boolean true)
  else if word = ['f', 'a', 'l', 's', 'e'] then some (.boolean false)
  else if isMoment word then some .moment
  else match integer? word with
    | some number => some (.integer number)
    | none => ((specialReal? word).or (decimalReal? word)).map .real

/-- The scalar at the front of a text.  A date and a time may also be separated
by a blank. -/
def word? (text : List Char) : Option (Toml × List Char) := do
  let (word, rest) := text.span isWordChar
  let scalar ← ofWord? word
  match rest with
  | ' ' :: later =>
      let (time, behind) := later.span isWordChar
      if date? word == some [] && isOffsetTime time then some (.moment, behind)
      else some (scalar, rest)
  | _ => some (scalar, rest)

end ForestGraph.Toml
