import ForestGraph.Toml.Value

/-!
# TOML codecs

A structure is written as a flat table of scalars and read from the entries of a
document.  How tables are printed and texts are parsed is left to a codec.  What
this library relies on is that plain tables are read back as they were printed,
and that they are printed if and only if their integers fit into a signed word
of 64 bits.
-/

namespace ForestGraph.Toml

/-! ## Tables -/

/-- A scalar to be printed. -/
inductive Scalar where
  | string (text : String)
  | natural (number : Nat)
  | real (number : Float)
  | boolean (truth : Bool)

/-- The value that a scalar stands for. -/
def Scalar.value : Scalar → Toml
  | string text => .string text
  | natural number => .integer number
  | real number => .real number
  | boolean truth => .boolean truth

/-- An integer that fits into a signed word, or a scalar of another kind. -/
def Scalar.Fits : Scalar → Prop
  | natural number => number ≤ largestInteger
  | _ => True

/-- Whether a character may belong to a key without quotes. -/
def isKeyChar (char : Char) : Bool :=
  char.isAlphanum || char == '-' || char == '_'

/-- A key may stand without quotes. -/
def IsPlainKey (key : String) : Prop :=
  key.toList ≠ [] ∧ key.toList.all isKeyChar = true

/-- A string without escapes, a finite number, or a scalar of another kind. -/
def Scalar.IsPlain : Scalar → Prop
  | string text => text.toList.all isKeyChar = true
  | real number => number.isFinite = true
  | natural _ | boolean _ => True

/-- A flat table that needs no quotes for its keys and no escapes in its strings. -/
structure IsPlainTable (table : List (String × Scalar)) : Prop where
  keys : ∀ entry ∈ table, IsPlainKey entry.1
  nodup : (table.map Prod.fst).Nodup
  scalars : ∀ entry ∈ table, entry.2.IsPlain

/-! ## Codecs -/

/-- A way to print flat tables and to parse texts. -/
structure Codec where
  /-- The text of a table, if it can be printed. -/
  write? : List (String × Scalar) → Option String
  /-- The entries of the document that a text denotes. -/
  parse? : String → Option Entries

/-- Plain tables are printed if their integers fit, and read back. -/
structure Codec.Faithful (codec : Codec) : Prop where
  /-- Integers that do not fit are refused. -/
  writes_iff : ∀ table, IsPlainTable table →
    ((∃ text, codec.write? table = some text) ↔ ∀ entry ∈ table, entry.2.Fits)
  /-- Every key has the value of its scalar, and no other key has one. -/
  reads_back : ∀ table text, IsPlainTable table → codec.write? table = some text →
    ∃ entries, codec.parse? text = some entries ∧
      ∀ key, entries.find? key = (table.lookup key).map Scalar.value

end ForestGraph.Toml
