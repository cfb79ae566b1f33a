import ForestGraph.Json.Value

/-!
# JSON codecs

A structure is written as a document and read from a value.  How documents are
printed and texts are parsed is left to a codec.  What this library relies on
is that a document which is nested no deeper than texts are parsed, and whose
numbers are words of 64 bits or finite, is read back as it was printed; that
other numbers are printed as `null`; and that a number which is too large is
not read as an infinity.
-/

namespace ForestGraph.Json

/-! ## Documents -/

/-- A tree to be printed. -/
inductive Document where
  | null
  | bool (truth : Bool)
  | index (number : Nat)
  | real (number : Float)
  | string (text : String)
  | array (items : List Document)
  | object (fields : List (String × Document))

namespace Document

/-- The value that a document stands for. -/
def value : Document → Json
  | null => .null
  | bool truth => .bool truth
  | index word => .number (.index word)
  | real size => .number (.real size)
  | string text => .string (some text)
  | array items => .array (itemValues items)
  | object fields => .object (fieldValues fields)
where
  /-- The values of items. -/
  itemValues : List Document → List Json
    | [] => []
    | item :: items => item.value :: itemValues items
  /-- The values of fields. -/
  fieldValues : List (String × Document) → List (Option String × Json)
    | [] => []
    | (name, document) :: fields => (some name, document.value) :: fieldValues fields

/-- The document with `null` in place of every number that is not finite. -/
def withNulls : Document → Document
  | real size => if size.isFinite then real size else null
  | array items => array (itemsWithNulls items)
  | object fields => object (fieldsWithNulls fields)
  | document => document
where
  /-- The items with `null` in them. -/
  itemsWithNulls : List Document → List Document
    | [] => []
    | item :: items => item.withNulls :: itemsWithNulls items
  /-- The fields with `null` in them. -/
  fieldsWithNulls : List (String × Document) → List (String × Document)
    | [] => []
    | (name, document) :: fields => (name, document.withNulls) :: fieldsWithNulls fields

/-- A document of a depth whose indices are words, whose other numbers are
finite, and in whose objects no name is repeated. -/
inductive IsPlain : Nat → Document → Prop where
  | null {depth : Nat} : IsPlain depth null
  | bool {depth : Nat} (truth : Bool) : IsPlain depth (bool truth)
  | index {depth number : Nat} : number ≤ Index.largest → IsPlain depth (index number)
  | real {depth : Nat} {number : Float} : number.isFinite = true → IsPlain depth (real number)
  | string {depth : Nat} (text : String) : IsPlain depth (string text)
  | array {depth : Nat} {items : List Document} :
      (∀ item ∈ items, IsPlain depth item) → IsPlain (depth + 1) (array items)
  | object {depth : Nat} {fields : List (String × Document)} :
      (fields.map Prod.fst).Nodup → (∀ field ∈ fields, IsPlain depth field.2) →
      IsPlain (depth + 1) (object fields)

end Document

/-! ## Finite values -/

/-- No number in a value is read as an infinity or as no number. -/
inductive IsFinite : Json → Prop where
  | null : IsFinite null
  | bool (truth : Bool) : IsFinite (bool truth)
  | number {literal : JsonNumber} :
      (∀ number ∈ literal.real?, number.isFinite = true) → IsFinite (number literal)
  | string (text : Option String) : IsFinite (string text)
  | array {items : List Json} : (∀ item ∈ items, IsFinite item) → IsFinite (array items)
  | object {fields : List (Option String × Json)} :
      (∀ field ∈ fields, IsFinite field.2) → IsFinite (object fields)

/-! ## Codecs -/

/-- The greatest depth of a text that is parsed. -/
def largestDepth : Nat := 127

/-- A way to print documents and to parse texts. -/
structure Codec where
  /-- The text of a document, if it can be printed. -/
  write? : Document → Option String
  /-- The value that a text denotes. -/
  parse? : String → Option Json

namespace Codec

/-- Printing and parsing are inverse on plain documents. -/
structure Inverts (codec : Codec) : Prop where
  reads_back : ∀ document : Document, document.IsPlain largestDepth →
    ∃ text, codec.write? document = some text ∧ codec.parse? text = some document.value

/-- What is relied on wherever numbers may be infinite. -/
structure Faithful (codec : Codec) : Prop extends codec.Inverts where
  /-- What is no finite number is printed as `null`. -/
  writes_null : ∀ document, codec.write? document = codec.write? document.withNulls
  /-- A number that is too large is refused, and not read as an infinity. -/
  refuses_infinity : ∀ text value, codec.parse? text = some value → value.IsFinite

end Codec

end ForestGraph.Json
