import ForestGraph.Json.Codec
import ForestGraph.Json.Token

/-!
# Reading JSON

The values of a text are put together from its tokens.  The arrays and objects
that are still open are kept in a list, the innermost first, so the depth of a
text is not limited by the reader.
-/

namespace ForestGraph.Json

/-- An array or object that is still open: what it holds so far, the latest
first, and for an object the name of the field that is being read. -/
inductive Frame where
  | array (items : List Json)
  | object (fields : List (Option String × Json)) (name : Option String)

mutual

/-- Reads a value that belongs into the innermost open frame. -/
def readValue? (stack : List Frame) : List JsonToken → Option Json
  | .null :: rest => readAfter? null stack rest
  | .bool truth :: rest => readAfter? (bool truth) stack rest
  | .number value :: rest => readAfter? (number value) stack rest
  | .string text :: rest => readAfter? (string text) stack rest
  | .openArray :: .closeArray :: rest => readAfter? (array []) stack rest
  | .openArray :: rest => readValue? (.array [] :: stack) rest
  | .openObject :: .closeObject :: rest => readAfter? (object []) stack rest
  | .openObject :: .string name :: .colon :: rest =>
      readValue? (.object [] name :: stack) rest
  | _ => none
termination_by tokens => tokens.length

/-- Continues behind a complete value. -/
def readAfter? (value : Json) (stack : List Frame) (tokens : List JsonToken) : Option Json :=
  match stack, tokens with
  | [], [] => some value
  | .array items :: stack, .comma :: rest =>
      readValue? (.array (value :: items) :: stack) rest
  | .array items :: stack, .closeArray :: rest =>
      readAfter? (array (value :: items).reverse) stack rest
  | .object fields name :: stack, .comma :: .string next :: .colon :: rest =>
      readValue? (.object ((name, value) :: fields) next :: stack) rest
  | .object fields name :: stack, .closeObject :: rest =>
      readAfter? (object ((name, value) :: fields).reverse) stack rest
  | _, _ => none
termination_by tokens.length

end

/-- The value that a text denotes. -/
def parse? (text : String) : Option Json := do
  let tokens ← JsonToken.readAll? text.toList
  readValue? [] tokens

/-- The value that a text denotes, if it is proper and not too deep to be read
without knowing what it is for. -/
def parseAny? (text : String) : Option Json := do
  let value ← parse? text
  if value.isProper && decide (value.depth ≤ largestDepth) then some value else none

end ForestGraph.Json
