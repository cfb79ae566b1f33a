import ForestGraph.Json.Codec
import ForestGraph.Json.Reader
import ForestGraph.Number.Layout

/-!
# Writing JSON

Documents are written either on one line without blanks, or with every item and
field on a line of its own, indented by two blanks a level.  Empty arrays and
objects stay on one line.
-/

namespace ForestGraph.Json

/-- Numbers take an exponent below `10 ^ -5` and from `10 ^ 16` on, with a sign.
What is no number is written as `null`. -/
def layout : Layout where
  lowest := some (-5)
  highest := some 15
  keepPoint := true
  signExponent := true
  tie := .even
  nan := "null"
  infinity := "null"
  negativeInfinity := "null"

namespace Document

/-- The digit with a hexadecimal value. -/
def hexDigit (value : Nat) : Char :=
  if value < 10 then Char.ofNat ('0'.toNat + value) else Char.ofNat ('a'.toNat + value - 10)

/-- A character inside a string. -/
def escape (char : Char) : List Char :=
  match char with
  | '"' => ['\\', '"']
  | '\\' => ['\\', '\\']
  | '\x08' => ['\\', 'b']
  | '\x0c' => ['\\', 'f']
  | '\n' => ['\\', 'n']
  | '\r' => ['\\', 'r']
  | '\t' => ['\\', 't']
  | char =>
      if char.toNat < 0x20 then
        ['\\', 'u', '0', '0', hexDigit (char.toNat / 16), hexDigit (char.toNat % 16)]
      else [char]

/-- A string between quotes. -/
def quote (text : String) : String :=
  "\"" ++ String.ofList (text.toList.flatMap escape) ++ "\""

/-- The text on one line. -/
def compact : Document → String
  | null => "null"
  | bool truth => toString truth
  | index word => toString word
  | real size => layout.write size
  | string text => quote text
  | array items => "[" ++ ",".intercalate (compactItems items) ++ "]"
  | object fields => "\x7b" ++ ",".intercalate (compactFields fields) ++ "\x7d"
where
  /-- The texts of items. -/
  compactItems : List Document → List String
    | [] => []
    | item :: items => item.compact :: compactItems items
  /-- The texts of fields. -/
  compactFields : List (String × Document) → List String
    | [] => []
    | (name, value) :: fields => (quote name ++ ":" ++ value.compact) :: compactFields fields

/-- The blanks at the beginning of a line. -/
def indentation (level : Nat) : String :=
  String.ofList (List.replicate (2 * level) ' ')

/-- Lines between an opening and a closing bracket. -/
def block (opening closing : String) (level : Nat) : List String → String
  | [] => opening ++ closing
  | lines =>
      let lead := "\n" ++ indentation (level + 1)
      opening ++ lead ++ ("," ++ lead).intercalate lines ++ "\n" ++ indentation level ++ closing

/-- The text with a line for every item and field, at a level of indentation. -/
def prettyAt (level : Nat) : Document → String
  | array items => block "[" "]" level (prettyItems (level + 1) items)
  | object fields => block "\x7b" "\x7d" level (prettyFields (level + 1) fields)
  | word => word.compact
where
  /-- The texts of items. -/
  prettyItems (level : Nat) : List Document → List String
    | [] => []
    | item :: items => item.prettyAt level :: prettyItems level items
  /-- The texts of fields. -/
  prettyFields (level : Nat) : List (String × Document) → List String
    | [] => []
    | (name, value) :: fields =>
        (quote name ++ ": " ++ value.prettyAt level) :: prettyFields level fields

/-- The text with a line for every item and field. -/
def pretty (document : Document) : String :=
  document.prettyAt 0

end Document

/-- The codec of this library. -/
def Codec.standard : Codec where
  write? document := some document.pretty
  parse? := Json.parse?

end ForestGraph.Json
