import ForestGraph.Toml.Codec
import ForestGraph.Toml.Quoted
import ForestGraph.Toml.Scalar

/-!
# Reading TOML

A document is read line by line; values may extend over several lines.  Arrays
and tables between braces are nested up to a fixed depth.
-/

namespace ForestGraph.Toml

/-- Drops blanks. -/
def skipBlanks (text : List Char) : List Char :=
  text.dropWhile (fun char => char == ' ' || char == '\t')

/-- Drops blanks, line ends and comments. -/
def skipFiller? (inComment : Bool) : List Char → Option (List Char)
  | [] => some []
  | '\n' :: rest => skipFiller? false rest
  | '\r' :: '\n' :: rest => skipFiller? false rest
  | char :: rest =>
      if inComment then (if isText char then skipFiller? true rest else none)
      else if char = ' ' ∨ char = '\t' then skipFiller? false rest
      else if char = '#' then skipFiller? true rest
      else some (char :: rest)

/-- Reads the rest of a line, which holds at most a comment; gives the lines
that follow. -/
def endLine? (text : List Char) : Option (List Char) :=
  match skipBlanks text with
  | '#' :: rest => toEnd (rest.dropWhile isText)
  | rest => toEnd rest
where
  /-- Drops a line end; the end of the text will do. -/
  toEnd : List Char → Option (List Char)
    | [] => some []
    | '\n' :: rest => some rest
    | '\r' :: '\n' :: rest => some rest
    | _ => none

/-! ## Keys -/

/-- A key without dots. -/
def simpleKey? (text : List Char) : Option (String × List Char) :=
  match quoted?.line? text with
  | some key => some key
  | none =>
      let (key, rest) := text.span isKeyChar
      if key.isEmpty then none else some (String.ofList key, rest)

/-- The parts of a key with at most `count` dots, and what follows the blanks
behind it. -/
def keyUpTo? : Nat → List Char → Option (List String × List Char)
  | 0, _ => none
  | count + 1, text => do
      let (key, rest) ← simpleKey? (skipBlanks text)
      match skipBlanks rest with
      | '.' :: rest =>
          let (keys, rest) ← keyUpTo? count rest
          return (key :: keys, rest)
      | rest => return ([key], rest)

/-- The depth up to which arrays and tables are nested and keys have parts. -/
def largestDepth : Nat := 79

/-- A key, split into the parts before the last dot and the part behind it. -/
def key? (text : List Char) : Option ((List String × String) × List Char) := do
  let (keys, rest) ← keyUpTo? largestDepth text
  return ((keys.dropLast, keys.getLastD ""), rest)

/-! ## Values -/

/-- A way to read a value from the front of a text. -/
abbrev ReadValue := List Char → Option (Toml × List Char)

/-- The items of an array up to its closing bracket. -/
def items? (read : ReadValue) : Nat → List Char → Option (List Toml × List Char)
  | 0, _ => none
  | count + 1, text => do
      match ← skipFiller? false text with
      | ']' :: rest => return ([], rest)
      | text =>
          let (item, rest) ← read text
          match ← skipFiller? false rest with
          | ',' :: rest =>
              let (items, rest) ← items? read count rest
              return (item :: items, rest)
          | ']' :: rest => return ([item], rest)
          | _ => none

/-- A key, an equals sign and a value. -/
def entry? (read : ReadValue) (text : List Char) :
    Option ((List String × String) × Toml × List Char) := do
  let (key, rest) ← key? text
  let rest ← expect? '=' rest
  let (value, rest) ← read (skipBlanks rest)
  return (key, value, rest)

/-- The entries between braces, added to those before, up to the closing brace.
There is at least one. -/
def entries? (read : ReadValue) : Nat → Entries → List Char → Option (Entries × List Char)
  | 0, _, _ => none
  | count + 1, entries, text => do
      let ((path, key), value, rest) ← entry? read text
      let entries ← entries.insert path key value .braces
      match skipBlanks rest with
      | ',' :: rest => entries? read count entries rest
      | '\x7d' :: rest => return (entries, rest)
      | _ => none

/-- The value at the front of a text, nested at most to a depth. -/
def value? : Nat → ReadValue
  | depth, text =>
      match text, depth with
      | '[' :: rest, depth + 1 => do
          let (items, rest) ← items? (value? depth) rest.length rest
          return (array items, rest)
      | '\x7b' :: rest, depth + 1 =>
          match skipBlanks rest with
          | '\x7d' :: rest => some (table .braces [], rest)
          | _ => do
              let (entries, rest) ← entries? (value? depth) rest.length [] rest
              return (table .braces entries, rest)
      | '"' :: _, _ | '\'' :: _, _ => do
          let (text, rest) ← quoted? text
          return (string text, rest)
      | _, _ => word? text

/-! ## Documents -/

/-- Reads the lines of a document, at most `count` of them, into the entries
read so far; `section` is the path of the last header. -/
def lines? : Nat → List String → Entries → List Char → Option Entries
  | 0, _, _, _ => none
  | count + 1, path, entries, text =>
      match skipBlanks text with
      | [] => some entries
      | '\n' :: rest => lines? count path entries rest
      | '\r' :: '\n' :: rest => lines? count path entries rest
      | '#' :: rest => do
          let rest ← endLine? ('#' :: rest)
          lines? count path entries rest
      | '[' :: '[' :: rest => do
          let ((parents, key), rest) ← key? rest
          let rest ← expect? ']' rest
          let rest ← expect? ']' rest
          let rest ← endLine? rest
          let entries ← entries.openSection parents key
          lines? count (parents ++ [key]) entries rest
      | '[' :: rest => do
          let ((parents, key), rest) ← key? rest
          let rest ← expect? ']' rest
          let rest ← endLine? rest
          let entries ← entries.openTable parents key
          lines? count (parents ++ [key]) entries rest
      | text => do
          let ((parents, key), value, rest) ← entry? (value? largestDepth) text
          let rest ← endLine? rest
          let entries ← entries.within false path
            (fun origin entries => entries.insert parents key value origin) .header
          lines? count path entries rest

/-- The entries of a document.  A byte order mark may come first. -/
def parse? (text : String) : Option Entries :=
  let text := match text.toList with
    | '\ufeff' :: rest => rest
    | text => text
  lines? (text.length + 1) [] [] text

end ForestGraph.Toml
