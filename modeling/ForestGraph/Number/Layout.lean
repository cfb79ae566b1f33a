import ForestGraph.Number.Shortest

/-!
# Writing numbers and structures

All texts of a number show its shortest decimal.  What differs between the
formats of this library is collected in a `Layout`: which numbers are written
positionally, whether an integer keeps its point, how an exponent is signed,
and how the values that are no numbers are spelled.
-/

namespace ForestGraph

/-- The decisions a format takes when it writes a number. -/
structure Layout where
  /-- The least power of ten of the first digit that is written positionally. -/
  lowest : Option Int
  /-- The greatest power of ten of the first digit that is written positionally. -/
  highest : Option Int
  /-- Positional integers end in `.0`. -/
  keepPoint : Bool
  /-- Exponents that are not negative carry a plus sign. -/
  signExponent : Bool
  /-- The choice between equally near shortest decimals. -/
  tie : Tie
  nan : String
  infinity : String
  negativeInfinity : String
  deriving DecidableEq

namespace Layout

/-- Whether a number whose first digit stands for `10 ^ power` is written
without an exponent. -/
def isPositional (layout : Layout) (power : Int) : Bool :=
  layout.lowest.all (fun bound => decide (bound ≤ power)) &&
    layout.highest.all (fun bound => decide (power ≤ bound))

/-- The digits around the decimal point. -/
def positional (layout : Layout) (decimal : ShortDecimal) : String :=
  let whole := decimal.digits.take decimal.point.toNat
  let whole := whole ++ List.replicate (decimal.point.toNat - whole.length) '0'
  let fraction := List.replicate (-decimal.point).toNat '0' ++
    decimal.digits.drop decimal.point.toNat
  let whole := if whole.isEmpty then "0" else String.ofList whole
  if fraction.isEmpty || decimal.digits.isEmpty then
    if layout.keepPoint then whole ++ ".0" else whole
  else whole ++ "." ++ String.ofList fraction

/-- One digit before the point, then the power of ten of that digit. -/
def scientific (layout : Layout) (decimal : ShortDecimal) : String :=
  let power := if decimal.digits.isEmpty then 0 else decimal.point - 1
  let mantissa := match decimal.digits with
    | [] => "0"
    | [digit] => String.singleton digit
    | digit :: rest => String.singleton digit ++ "." ++ String.ofList rest
  let sign := if power < 0 then "-" else if layout.signExponent then "+" else ""
  mantissa ++ "e" ++ sign ++ toString power.natAbs

/-- Whether the sign bit is set, on zero as on any other number. -/
def isNegative (number : Float) : Bool :=
  decide (0x8000000000000000 ≤ number.toBits.toNat)

/-- The text of a decimal. -/
def writeDecimal (layout : Layout) (negative : Bool) (decimal : ShortDecimal) : String :=
  let power := if decimal.digits.isEmpty then 0 else decimal.point - 1
  let sign := if negative then "-" else ""
  sign ++ if layout.isPositional power then layout.positional decimal
    else layout.scientific decimal

/-- The text of a number. -/
def write (layout : Layout) (number : Float) : String :=
  if number.isNaN then layout.nan
  else if number.isInf then
    if isNegative number then layout.negativeInfinity else layout.infinity
  else layout.writeDecimal (isNegative number) (ShortDecimal.ofFloat layout.tie number)

/-- Numbers in running text never carry an exponent. -/
def plain : Layout where
  lowest := none
  highest := none
  keepPoint := false
  signExponent := false
  tie := .up
  nan := "NaN"
  infinity := "inf"
  negativeInfinity := "-inf"

/-- Numbers inside the text of a structure show that they are no integers, and
take an exponent below `10 ^ -4` and from `10 ^ 16` on. -/
def structural : Layout :=
  { plain with lowest := some (-4), highest := some 15, keepPoint := true }

/-- Deviations are always written with an exponent. -/
def exponential : Layout :=
  { plain with lowest := some 1, highest := some 0 }

end Layout

/-! ## Inspection texts -/

namespace Inspect

/-- The name of a structure, then its fields in order between braces. -/
def record (name : String) (fields : List (String × String)) : String :=
  name ++ " \x7b " ++
    ", ".intercalate (fields.map fun field => field.1 ++ ": " ++ field.2) ++ " \x7d"

/-- The text `[entry, ...]` of a list of shown entries. -/
def list (entries : List String) : String :=
  "[" ++ ", ".intercalate entries ++ "]"

end Inspect

end ForestGraph
