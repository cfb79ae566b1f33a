import ForestGraph.Json.Token

/-!
# TOML strings

Basic strings stand between double quotes and know escapes; literal strings
stand between single quotes and are taken as they are.  Three quotes on both
sides make a string that may contain line ends and up to two quotes in a row.
-/

namespace ForestGraph.Toml

/-- Whether a character may stand in a comment or a string as it is. -/
def isText (char : Char) : Bool :=
  char == '\t' || (decide (0x20 ≤ char.toNat) && char.toNat != 0x7f)

/-- The character that a hexadecimal escape names. -/
def namedChar? (digits : List Char) : Option Char := do
  let code ← JsonToken.hexValue? digits
  if code < 0xd800 ∨ (0xe000 ≤ code ∧ code < 0x110000) then some (Char.ofNat code) else none

/-- The character named by a letter after a backslash. -/
def escaped? : Char → Option Char
  | 'b' => some '\x08'
  | 't' => some '\t'
  | 'n' => some '\n'
  | 'f' => some '\x0c'
  | 'r' => some '\r'
  | '"' => some '"'
  | '\\' => some '\\'
  | _ => none

/-- Puts a character in front of what has been read. -/
def prepend (char : Option Char) (read : Option (List Char × List Char)) :
    Option (List Char × List Char) := do
  let char ← char
  let (chars, rest) ← read
  return (char :: chars, rest)

/-- The characters of a basic string up to its closing quote, and what follows. -/
def basic? : List Char → Option (List Char × List Char)
  | [] => none
  | '"' :: rest => some ([], rest)
  | '\\' :: 'u' :: a :: b :: c :: d :: rest => prepend (namedChar? [a, b, c, d]) (basic? rest)
  | '\\' :: 'U' :: a :: b :: c :: d :: e :: f :: g :: h :: rest =>
      prepend (namedChar? [a, b, c, d, e, f, g, h]) (basic? rest)
  | '\\' :: letter :: rest => prepend (escaped? letter) (basic? rest)
  | char :: rest => if isText char then prepend (some char) (basic? rest) else none

/-- The characters of a literal string up to its closing quote, and what
follows. -/
def literal? : List Char → Option (List Char × List Char)
  | [] => none
  | '\'' :: rest => some ([], rest)
  | char :: rest => if isText char then prepend (some char) (literal? rest) else none

/-- Whether only blanks come before the end of the line. -/
def endsLine (text : List Char) : Bool :=
  match text.dropWhile (fun char => char == ' ' || char == '\t') with
  | '\n' :: _ => true
  | '\r' :: '\n' :: _ => true
  | _ => false

/-- The characters of a basic string of several lines up to its closing quotes,
and what follows.  After a backslash at the end of a line, blanks and line ends
are skipped. -/
def basicLines? (skipping : Bool) : List Char → Option (List Char × List Char)
  | [] => none
  | '"' :: '"' :: '"' :: '"' :: '"' :: rest => some (['"', '"'], rest)
  | '"' :: '"' :: '"' :: '"' :: rest => some (['"'], rest)
  | '"' :: '"' :: '"' :: rest => some ([], rest)
  | '\r' :: '\n' :: rest =>
      if skipping then basicLines? true rest
      else prepend (some '\n') (basicLines? false rest)
  | '\n' :: rest =>
      if skipping then basicLines? true rest
      else prepend (some '\n') (basicLines? false rest)
  | '\\' :: 'u' :: a :: b :: c :: d :: rest =>
      prepend (namedChar? [a, b, c, d]) (basicLines? false rest)
  | '\\' :: 'U' :: a :: b :: c :: d :: e :: f :: g :: h :: rest =>
      prepend (namedChar? [a, b, c, d, e, f, g, h]) (basicLines? false rest)
  | '\\' :: letter :: rest =>
      if endsLine (letter :: rest) then basicLines? true (letter :: rest)
      else prepend (escaped? letter) (basicLines? false rest)
  | char :: rest =>
      if skipping && (char == ' ' || char == '\t') then basicLines? true rest
      else if isText char then prepend (some char) (basicLines? false rest)
      else none

/-- The characters of a literal string of several lines up to its closing
quotes, and what follows. -/
def literalLines? : List Char → Option (List Char × List Char)
  | [] => none
  | '\'' :: '\'' :: '\'' :: '\'' :: '\'' :: rest => some (['\'', '\''], rest)
  | '\'' :: '\'' :: '\'' :: '\'' :: rest => some (['\''], rest)
  | '\'' :: '\'' :: '\'' :: rest => some ([], rest)
  | '\r' :: '\n' :: rest => prepend (some '\n') (literalLines? rest)
  | char :: rest =>
      if isText char || char == '\n' then prepend (some char) (literalLines? rest) else none

/-- Drops a line end at the front of a text. -/
def dropLineEnd : List Char → List Char
  | '\n' :: rest => rest
  | '\r' :: '\n' :: rest => rest
  | text => text

/-- The string at the front of a text, if it starts with a quote. -/
def quoted? : List Char → Option (String × List Char)
  | '"' :: '"' :: '"' :: rest => do
      let (chars, rest) ← basicLines? false (dropLineEnd rest)
      return (String.ofList chars, rest)
  | '\'' :: '\'' :: '\'' :: rest => do
      let (chars, rest) ← literalLines? (dropLineEnd rest)
      return (String.ofList chars, rest)
  | text => line? text
where
  /-- A string on one line. -/
  line? : List Char → Option (String × List Char)
    | '"' :: rest => do
        let (chars, rest) ← basic? rest
        return (String.ofList chars, rest)
    | '\'' :: rest => do
        let (chars, rest) ← literal? rest
        return (String.ofList chars, rest)
    | _ => none

end ForestGraph.Toml
