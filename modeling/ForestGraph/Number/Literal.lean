import ForestGraph.Error
import ForestGraph.Number.Decimal

/-!
# Reading numbers from a word

Settings given as bare words are read by two strict rules.  A natural number is
an optional plus sign and decimal digits.  A real number is an optional sign
and either digits with at most one point and an optional exponent, or one of
the words for infinity and NaN in any case.  Neither admits blanks, separators
or digits outside ASCII.
-/

namespace ForestGraph.Literal

/-- Reads a number that is an index. -/
def natural? (text : String) : Option Nat :=
  let digits := match text.toList with
    | '+' :: rest => rest
    | digits => digits
  if digits.isEmpty || !digits.all Char.isDigit then none
  else if digitsValue digits ≤ Index.largest then some (digitsValue digits)
  else none

/-- Reads an optional exponent that extends to the end of the text. -/
def exponent? : List Char → Option Int
  | [] => some 0
  | mark :: rest =>
      let (negative, digits) := splitSign rest
      if (mark == 'e' || mark == 'E') && !digits.isEmpty && digits.all Char.isDigit then
        let size : Int := exponentSize digits
        some (if negative then -size else size)
      else none

/-- Reads digits with at most one point and an optional exponent. -/
def decimal? (negative : Bool) (text : List Char) : Option Decimal :=
  let (whole, rest) := splitDigits text
  let (fraction, rest) := match rest with
    | '.' :: rest => splitDigits rest
    | rest => ([], rest)
  if whole.isEmpty && fraction.isEmpty then none
  else (exponent? rest).map fun exponent =>
    Decimal.ofDigits negative whole fraction exponent

/-- Reads a number, an infinity or a NaN. -/
def real? (text : String) : Option Float :=
  let (negative, rest) := splitSign text.toList
  let word := rest.map Char.toLower
  if word == "nan".toList then some notANumber
  else if word == "inf".toList || word == "infinity".toList then
    some (if negative then -infinity else infinity)
  else (decimal? negative rest).map Decimal.toFloat

end ForestGraph.Literal
