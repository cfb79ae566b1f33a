import ForestGraph.Json.Value

/-!
# JSON tokens

A JSON text is a sequence of tokens between which blanks may stand.  Reading is
strict: no comments, no leading zeros, no bare point, no control characters in
strings.
-/

namespace ForestGraph

/-- The tokens of a JSON text. -/
inductive JsonToken where
  | openArray
  | closeArray
  | openObject
  | closeObject
  | colon
  | comma
  | null
  | bool (truth : Bool)
  | number (literal : JsonNumber)
  | string (text : Option String)

namespace JsonToken

/-- A piece of a string: a character, or a UTF-16 unit named by an escape. -/
inductive Piece where
  | char (char : Char)
  | unit (unit : Nat)

/-- The value of a hexadecimal digit. -/
def hexDigit? (digit : Char) : Option Nat :=
  if digit.isDigit then some (digit.toNat - '0'.toNat)
  else if 'a' ≤ digit ∧ digit ≤ 'f' then some (digit.toNat - 'a'.toNat + 10)
  else if 'A' ≤ digit ∧ digit ≤ 'F' then some (digit.toNat - 'A'.toNat + 10)
  else none

/-- The value of hexadecimal digits. -/
def hexValue? (digits : List Char) : Option Nat :=
  digits.foldlM (fun value digit => (hexDigit? digit).map (16 * value + ·)) 0

/-- The character named by a letter after a backslash. -/
def escaped? : Char → Option Char
  | '"' => some '"'
  | '\\' => some '\\'
  | '/' => some '/'
  | 'b' => some '\x08'
  | 'f' => some '\x0c'
  | 'n' => some '\n'
  | 'r' => some '\r'
  | 't' => some '\t'
  | _ => none

/-- The pieces of a string up to its closing quote, and what follows it. -/
def pieces? : List Char → Option (List Piece × List Char)
  | '"' :: rest => some ([], rest)
  | '\\' :: 'u' :: a :: b :: c :: d :: rest => do
      let unit ← hexValue? [a, b, c, d]
      let (pieces, rest) ← pieces? rest
      return (.unit unit :: pieces, rest)
  | '\\' :: letter :: rest => do
      let char ← escaped? letter
      let (pieces, rest) ← pieces? rest
      return (.char char :: pieces, rest)
  | char :: rest =>
      if char.toNat < 0x20 then none
      else do
        let (pieces, rest) ← pieces? rest
        return (.char char :: pieces, rest)
  | [] => none

/-- The characters that pieces spell: a leading and a trailing unit of a pair
make one character, and neither may stand alone. -/
def spell? : List Piece → Option (List Char)
  | [] => some []
  | .char char :: rest => (spell? rest).map (char :: ·)
  | .unit leading :: rest =>
      if leading < 0xd800 ∨ 0xe000 ≤ leading then
        (spell? rest).map (Char.ofNat leading :: ·)
      else
        match rest with
        | .unit trailing :: rest =>
            if leading < 0xdc00 ∧ 0xdc00 ≤ trailing ∧ trailing < 0xe000 then
              let code := 0x10000 + (leading - 0xd800) * 0x400 + (trailing - 0xdc00)
              (spell? rest).map (Char.ofNat code :: ·)
            else none
        | _ => none

/-- The digits of an integer part: a zero alone, or digits that start with
another one. -/
def whole? (text : List Char) : Option (List Char × List Char) :=
  match text with
  | '0' :: rest => some (['0'], rest)
  | _ =>
      let (digits, rest) := splitDigits text
      if digits.isEmpty then none else some (digits, rest)

/-- The digits behind a point, if there is one. -/
def fraction? (text : List Char) : Option (List Char × List Char) :=
  match text with
  | '.' :: rest =>
      let (digits, rest) := splitDigits rest
      if digits.isEmpty then none else some (digits, rest)
  | _ => some ([], text)

/-- The exponent at the front of a text, if there is one. -/
def exponent? (text : List Char) : Option (Option Int × List Char) :=
  match text with
  | mark :: rest =>
      if mark = 'e' ∨ mark = 'E' then
        let (negative, rest) := splitSign rest
        let (digits, rest) := splitDigits rest
        let size : Int := digitsValue digits
        if digits.isEmpty then none else some (some (if negative then -size else size), rest)
      else some (none, text)
  | [] => some (none, [])

/-- The largest count of digits that are told apart.  No midpoint between two
binary64 numbers has more. -/
def largestDigits : Nat := 768

/-- The decimal of a literal.  If it has more digits than are told apart, a
single digit one stands for the others, be they zeros or not.  Zeros in front
of all digits or at the end of the fraction are not counted. -/
def decimal (negative : Bool) (whole fraction : List Char) (exponent : Int) : Decimal :=
  let trimmed := (fraction.reverse.dropWhile (fun digit => digit == '0')).reverse
  let digits := (whole ++ trimmed).dropWhile (fun digit => digit == '0')
  if digits.length ≤ largestDigits then Decimal.ofDigits negative whole fraction exponent
  else
    let others := digits.length - largestDigits
    ⟨negative, digitsValue (digits.take largestDigits ++ ['1']),
      exponent - (trimmed.length : Int) + (others : Int) - 1⟩

/-- The number at the front of a text. -/
def number? (text : List Char) : Option (JsonNumber × List Char) := do
  let (negative, text) := match text with
    | '-' :: rest => (true, rest)
    | _ => (false, text)
  let (whole, text) ← whole? text
  let (fraction, text) ← fraction? text
  let (exponent, text) ← exponent? text
  let decimal := decimal negative whole fraction (exponent.getD 0)
  return (.ofDecimal (fraction.isEmpty && exponent.isNone) decimal, text)

/-- The token at the front of a text that does not start with a blank. -/
def read? (text : List Char) : Option (JsonToken × List Char) :=
  match text with
  | '[' :: rest => some (openArray, rest)
  | ']' :: rest => some (closeArray, rest)
  | '\x7b' :: rest => some (openObject, rest)
  | '\x7d' :: rest => some (closeObject, rest)
  | ':' :: rest => some (colon, rest)
  | ',' :: rest => some (comma, rest)
  | 'n' :: 'u' :: 'l' :: 'l' :: rest => some (null, rest)
  | 't' :: 'r' :: 'u' :: 'e' :: rest => some (bool true, rest)
  | 'f' :: 'a' :: 'l' :: 's' :: 'e' :: rest => some (bool false, rest)
  | '"' :: rest => do
      let (pieces, rest) ← pieces? rest
      return (string ((spell? pieces).map String.ofList), rest)
  | _ => do
      let (literal, rest) ← number? text
      return (number literal, rest)

/-- The blanks between tokens. -/
def isBlank (char : Char) : Bool :=
  char == ' ' || char == '\n' || char == '\r' || char == '\t'

/-- The next tokens of a text, at most `count` of them. -/
def readUpTo : Nat → List Char → Option (List JsonToken)
  | 0, _ => none
  | count + 1, text =>
      match text.dropWhile isBlank with
      | [] => some []
      | text => do
          let (token, rest) ← read? text
          let tokens ← readUpTo count rest
          return token :: tokens

/-- The tokens of a text.  There are no more of them than characters. -/
def readAll? (text : List Char) : Option (List JsonToken) :=
  readUpTo (text.length + 1) text

end JsonToken

end ForestGraph
