import ForestGraph.Error
import ForestGraph.Number.Decimal

/-!
# JSON values

A JSON text denotes a tree of values.  Natural numbers below `2 ^ 64` are told
apart from the other numbers, because indices are only read from them.  The
fields of an object keep their order and their repetitions.

A string may hold an escape that names half of a pair of UTF-16 units.  Such a
string has no text; where its contents do not matter, it is as good as any.
-/

namespace ForestGraph

/-- The nearest number of binary64; a decimal that rounds to infinity has none. -/
def Decimal.toFinite? (decimal : Decimal) : Option Float :=
  let number := decimal.toFloat
  if number.isFinite then some number else none

/-- What the digits of a number amount to. -/
inductive JsonNumber where
  /-- A word of 64 bits, written without a sign, a point and an exponent. -/
  | index (number : Nat)
  /-- Any other number, rounded to binary64. -/
  | real (number : Float)
  /-- A number that is too large for binary64. -/
  | beyond

namespace JsonNumber

/-- The number that is written as a decimal, which is integral if it is written
without a point and without an exponent. -/
def ofDecimal (integral : Bool) (decimal : Decimal) : JsonNumber :=
  if integral && !decimal.negative && decide (decimal.significand ≤ Index.largest) then
    index decimal.significand
  else
    match decimal.toFinite? with
    | some number => real number
    | none => beyond

/-- The number as one of binary64. -/
def real? : JsonNumber → Option Float
  | index number => Decimal.toFinite? ⟨false, number, 0⟩
  | real number => some number
  | beyond => none

end JsonNumber

/-- A tree of values. -/
inductive Json where
  | null
  | bool (truth : Bool)
  | number (literal : JsonNumber)
  | string (text : Option String)
  | array (items : List Json)
  | object (fields : List (Option String × Json))

namespace Json

/-- The number of arrays and objects around the innermost value. -/
def depth : Json → Nat
  | array items => 1 + itemsDepth items
  | object fields => 1 + fieldsDepth fields
  | _ => 0
where
  /-- The greatest depth of a list of values. -/
  itemsDepth : List Json → Nat
    | [] => 0
    | item :: items => max item.depth (itemsDepth items)
  /-- The greatest depth of the values of a list of fields. -/
  fieldsDepth : List (Option String × Json) → Nat
    | [] => 0
    | (_, value) :: fields => max value.depth (fieldsDepth fields)

/-- Whether every string has a text and every number is in the range of
binary64. -/
def isProper : Json → Bool
  | number literal => literal.real?.isSome
  | string text => text.isSome
  | array items => itemsProper items
  | object fields => fieldsProper fields
  | _ => true
where
  /-- Whether all of a list of values are proper. -/
  itemsProper : List Json → Bool
    | [] => true
    | item :: items => item.isProper && itemsProper items
  /-- Whether all of a list of fields have proper names and values. -/
  fieldsProper : List (Option String × Json) → Bool
    | [] => true
    | (name, value) :: fields => name.isSome && value.isProper && fieldsProper fields

/-- A number in the range of binary64. -/
def real? : Json → Option Float
  | number literal => literal.real?
  | _ => none

/-- An integer that is a word of 64 bits. -/
def index? : Json → Option Nat
  | number (.index value) => if value ≤ Index.largest then some value else none
  | _ => none

/-- A truth value. -/
def bool? : Json → Option Bool
  | bool truth => some truth
  | _ => none

/-- An array of values each of which is read in the same way. -/
def list? {α : Type} (read : Json → Option α) : Json → Option (List α)
  | array items => items.mapM read
  | _ => none

/-- The value of the only field with a given name; the name must not be
repeated. -/
def field? (fields : List (String × Json)) (name : String) : Option (Option Json) :=
  match fields.filter (fun field => field.1 == name) with
  | [] => some none
  | [field] => some (some field.2)
  | _ => none

/-- The values of the named fields of a record, in the order of the names.  A
record is an object, whose other fields are ignored, or an array of the values
in order, from which the last ones may be missing. -/
def record? (names : List String) : Json → Option (List (Option Json))
  | object fields => do
      let fields ← fields.mapM fun (name, value) => name.map (fun name => (name, value))
      names.mapM (field? fields)
  | array items =>
      if items.length ≤ names.length then
        some (items.map some ++ List.replicate (names.length - items.length) none)
      else none
  | _ => none

/-- The values of a record from which none is missing. -/
def fullRecord? (names : List String) (value : Json) : Option (List Json) := do
  let values ← value.record? names
  values.mapM id

end Json

end ForestGraph
