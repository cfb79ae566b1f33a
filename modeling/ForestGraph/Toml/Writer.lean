import ForestGraph.Json.Writer
import ForestGraph.Number.Layout
import ForestGraph.Toml.Reader

/-!
# Writing TOML

A flat table is written as one line for every entry.  Integers must fit into a
signed word of 64 bits.
-/

namespace ForestGraph.Toml

/-- Numbers never take an exponent, and integers keep their point. -/
def layout : Layout :=
  { Layout.plain with keepPoint := true, nan := "nan" }

/-- The text of a scalar, if it has one. -/
def Scalar.write? : Scalar → Option String
  | string text => some (Json.Document.quote text)
  | natural number => if number ≤ largestInteger then some (toString number) else none
  | real number => some (layout.write number)
  | boolean truth => some (toString truth)

/-- The lines of a flat table whose keys need no quotes. -/
def writeLines? (entries : List (String × Scalar)) : Option String := do
  let lines ← entries.mapM fun (key, value) => do
    let text ← value.write?
    return key ++ " = " ++ text ++ "\n"
  return String.join lines

/-- The codec of this library. -/
def Codec.standard : Codec where
  write? := writeLines?
  parse? := Toml.parse?

end ForestGraph.Toml
