import ForestGraph.Number.Decimal

/-!
# Shortest decimals

The shortest decimal of a positive finite number is the one with the fewest
digits that rounds back to it; among several of that length, the one nearest
to the number.  The search works in exact natural-number arithmetic on
`numerator / denominator`: for one digit, two digits and so on it looks at the
two neighbours of the number on the decimal grid and keeps those that read
back.  Seventeen digits always suffice for binary64.

Two neighbours may be equally near; which of them is chosen is up to the
format that is written.
-/

namespace ForestGraph

/-- The choice between two equally near decimals. -/
inductive Tie where
  /-- The larger one. -/
  | up
  /-- The one with an even last digit. -/
  | even
  deriving DecidableEq

/-- The number `0.d₁d₂d₃... * 10 ^ point`, whose first and last digits are not
zero; zero has no digits. -/
structure ShortDecimal where
  digits : List Char
  point : Int
  deriving DecidableEq

namespace ShortDecimal

/-- The decimal `significand * 10 ^ exponent` with its digits written out. -/
def ofScaled (significand : Nat) (exponent : Int) : ShortDecimal :=
  if significand = 0 then ⟨[], 0⟩
  else
    let (significand, exponent) := Decimal.trim significand exponent
    let digits := Nat.toDigits 10 significand
    ⟨digits, digits.length + exponent⟩

/-- The leading bit of a significand, which binary64 does not store. -/
def leadingBit : Nat := 0x10000000000000

/-- The `significand` and `scale` of the absolute value
`significand * 2 ^ scale` of a finite number, read off its bits. -/
def unpack (number : Float) : Nat × Int :=
  let bits := number.toBits.toNat
  let biased : Nat := bits / leadingBit % 0x800
  let fraction : Nat := bits % leadingBit
  if biased = 0 then (fraction, -1074)
  else (leadingBit + fraction, (biased : Int) - 1075)

/-- The absolute value of a finite number as a numerator and a denominator,
the denominator a power of two. -/
def ratio (number : Float) : Nat × Nat :=
  let (significand, scale) := unpack number
  (significand * Nat.pow 2 scale.toNat, Nat.pow 2 (-scale).toNat)

/-- The `point` for which the fraction lies between `10 ^ (point - 1)` and
`10 ^ point`, the lower bound included. -/
def leadingPoint (numerator denominator : Nat) : Int :=
  if denominator ≤ numerator then digitCount (numerator / denominator)
  else 1 - (digitCount ((denominator - 1) / numerator) : Int)

/-- The quotient of the fraction by `10 ^ exponent`, rounded down, and the
rest as a fraction of one. -/
def gridBelow (numerator denominator : Nat) (exponent : Int) : Nat × Nat × Nat :=
  let numerator := numerator * Nat.pow 10 (-exponent).toNat
  let denominator := denominator * Nat.pow 10 exponent.toNat
  (numerator / denominator, numerator % denominator, denominator)

/-- The neighbour of the number on the grid of `10 ^ exponent` that reads back
as the number and lies nearest to it, if one of the two reads back. -/
def onGrid? (tie : Tie) (number : Float) (numerator denominator : Nat)
    (exponent : Int) : Option Nat :=
  let (below, rest, unit) := gridBelow numerator denominator exponent
  let readsBack (significand : Nat) : Bool :=
    Decimal.magnitude significand exponent == number
  match readsBack below, readsBack (below + 1) with
  | false, false => none
  | true, false => some below
  | false, true => some (below + 1)
  | true, true =>
      if 2 * rest < unit then some below
      else if unit < 2 * rest then some (below + 1)
      else match tie with
        | .up => some (below + 1)
        | .even => some (if below % 2 = 0 then below else below + 1)

/-- The shortest decimal of a positive finite number. -/
def ofPositive (tie : Tie) (number : Float) : ShortDecimal :=
  let (numerator, denominator) := ratio number
  let point := leadingPoint numerator denominator
  let shortest? := (List.range 17).findSome? fun index =>
    let exponent := point - ((index + 1 : Nat) : Int)
    (onGrid? tie number numerator denominator exponent).map
      (fun significand => ofScaled significand exponent)
  match shortest? with
  | some shortest => shortest
  | none =>
      -- the exact value: with a denominator `2 ^ k`, `k` decimal places
      let places := denominator.log2
      ofScaled (numerator * Nat.pow 5 places) (-(places : Int))

/-- The shortest decimal of the absolute value of a finite number. -/
def ofFloat (tie : Tie) (number : Float) : ShortDecimal :=
  if number == 0 then ⟨[], 0⟩ else ofPositive tie number.abs

end ShortDecimal

end ForestGraph
