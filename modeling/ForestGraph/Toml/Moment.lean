import ForestGraph.Number.Decimal

/-!
# TOML dates and times

A moment is a date, a time of day, or both; a time of day behind a date may tell
its offset from universal time.  Leap seconds are numbered 60.
-/

namespace ForestGraph.Toml

/-- Reads a number of exactly `count` digits. -/
def fixed? (count : Nat) (text : List Char) : Option (Nat × List Char) :=
  let digits := text.take count
  if digits.length = count ∧ digits.all Char.isDigit then
    some (digitsValue digits, text.drop count)
  else none

/-- Reads one given character. -/
def expect? (char : Char) : List Char → Option (List Char)
  | present :: rest => if present = char then some rest else none
  | [] => none

/-! ## Dates -/

/-- The number of days of a month. -/
def daysIn (year month : Nat) : Nat :=
  let leap := year % 4 = 0 ∧ (year % 100 ≠ 0 ∨ year % 400 = 0)
  if month = 2 then (if leap then 29 else 28)
  else if month = 4 ∨ month = 6 ∨ month = 9 ∨ month = 11 then 30
  else 31

/-- Reads a date; gives what follows. -/
def date? (text : List Char) : Option (List Char) := do
  let (year, text) ← fixed? 4 text
  let text ← expect? '-' text
  let (month, text) ← fixed? 2 text
  let text ← expect? '-' text
  let (day, text) ← fixed? 2 text
  if 1 ≤ month ∧ month ≤ 12 ∧ 1 ≤ day ∧ day ≤ daysIn year month then some text else none

/-! ## Times of day -/

/-- Reads the fraction of a second, which may be missing; gives what follows. -/
def secondFraction? : List Char → Option (List Char)
  | '.' :: text =>
      let (digits, rest) := splitDigits text
      if digits.isEmpty then none else some rest
  | text => some text

/-- Reads a time of day; gives what follows. -/
def time? (text : List Char) : Option (List Char) := do
  let (hour, text) ← fixed? 2 text
  let text ← expect? ':' text
  let (minute, text) ← fixed? 2 text
  let text ← expect? ':' text
  let (second, text) ← fixed? 2 text
  if hour < 24 ∧ minute < 60 ∧ second ≤ 60 then secondFraction? text else none

/-- Whether a text is a distance from universal time, or empty. -/
def isOffset (text : List Char) : Bool :=
  match text with
  | [] | ['Z'] | ['z'] => true
  | sign :: rest =>
      (sign == '+' || sign == '-') &&
        ((do
          let (hours, rest) ← fixed? 2 rest
          let rest ← expect? ':' rest
          let (minutes, rest) ← fixed? 2 rest
          if hours < 24 ∧ minutes < 60 ∧ rest = [] then some () else none).isSome)

/-- Whether a text is a time of day with an offset or without one. -/
def isOffsetTime (text : List Char) : Bool :=
  match time? text with
  | some rest => isOffset rest
  | none => false

/-- Whether a character may stand between a date and a time of day. -/
def isTimeMark (char : Char) : Bool :=
  char == 'T' || char == 't' || char == ' '

/-- Whether a text is a date, a time of day without an offset, or a date and a
time of day. -/
def isMoment (text : List Char) : Bool :=
  time? text == some [] ||
    match date? text with
    | some [] => true
    | some (mark :: rest) => isTimeMark mark && isOffsetTime rest
    | none => false

end ForestGraph.Toml
