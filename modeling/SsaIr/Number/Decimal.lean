import SsaIr.Number.Binary

/-!
# Decimal numerals

Reading a decimal or hexadecimal numeral as a binary floating-point number, and the shortest
decimal digits that read back as a given one. `DecimalDigits` is the meeting point: digits
`d₁ d₂ … dₙ` with a point position `p` stand for `0.d₁d₂…dₙ * 10 ^ p`.
-/

namespace SsaIr

/-- Digits with the position of the decimal point: the value is `0.d₁d₂… * 10 ^ point`. -/
structure DecimalDigits where
  digits : List Nat
  point : Int
deriving DecidableEq, Repr

namespace Decimal

def isDigit (c : Char) : Bool := '0' ≤ c && c ≤ '9'

def digitValue (c : Char) : Nat := c.toNat - '0'.toNat

def value (digits : List Char) : Nat := digits.foldl (fun n c => 10 * n + digitValue c) 0

/-- The magnitude bits of the number nearest to `significand * 10 ^ exponent`. Exponents that put
the value beyond every finite number, or below half the least one, are settled without computing
the power. -/
def nearest (f : FloatFormat) (significand : Nat) (exponent : Int) : Nat :=
  let places : Int := (Nat.toDigits 10 significand).length + exponent
  if significand = 0 then 0
  else if 400 < places then f.infinityBits
  else if places < -400 then 0
  else if 0 ≤ exponent then f.roundRatio (significand * Nat.pow 10 exponent.toNat) 1
  else f.roundRatio significand (Nat.pow 10 (-exponent).toNat)

/-- Three values with a common scale: a number and the ends of the interval of reals that round to
it. The number is `middle / denominator`. -/
structure Interval where
  low : Nat
  middle : Nat
  high : Nat
  denominator : Nat
  closed : Bool

/-- The interval of reals that read as `significand * 2 ^ exponent`. The gap below a power of two
is half as wide, and the ends belong to an even significand. -/
def Interval.of (f : FloatFormat) (significand : Nat) (exponent : Int) : Interval :=
  let below := if significand = Nat.pow 2 f.fractionBits && f.minExponent < exponent then 1 else 2
  let up := if 2 ≤ exponent then Nat.pow 2 (exponent - 2).toNat else 1
  let down := if 2 ≤ exponent then 1 else Nat.pow 2 (2 - exponent).toNat
  { low := (4 * significand - below) * up
    middle := 4 * significand * up
    high := (4 * significand + 2) * up
    denominator := down
    closed := significand % 2 = 0 }

def Interval.holds (i : Interval) (numerator denominator : Nat) : Bool :=
  let x := numerator * i.denominator
  if i.closed then i.low * denominator ≤ x && x ≤ i.high * denominator
  else i.low * denominator < x && x < i.high * denominator

/-- The point position of a positive ratio: the least `p` with `numerator / denominator < 10 ^ p`,
found from an estimate that is at most one too small. -/
def pointOf (numerator denominator : Nat) : Int :=
  let p : Int :=
    ((Nat.toDigits 10 numerator).length : Int) - (Nat.toDigits 10 denominator).length
  let below (p : Int) : Bool :=
    if 0 ≤ p then numerator < denominator * Nat.pow 10 p.toNat
    else numerator * Nat.pow 10 (-p).toNat < denominator
  if below p then p else p + 1

/-- The decimals with `count` digits nearest to the number from below and above, if they read back:
the nearer one, and of two equally near ones the even one. -/
def Interval.atPrecision (i : Interval) (point : Int) (count : Nat) : Option Nat :=
  let unit : Int := point - count
  let up := if 0 ≤ unit then Nat.pow 10 unit.toNat else 1
  let down := if 0 ≤ unit then 1 else Nat.pow 10 (-unit).toNat
  let scaled := i.middle * down
  let grid := i.denominator * up
  let floor := scaled / grid
  let remainder := scaled % grid
  let lower := i.holds (floor * up) down
  let upper := i.holds ((floor + 1) * up) down
  let upperNearer := grid < 2 * remainder || (grid = 2 * remainder && floor % 2 = 1)
  if lower && upper then some (if upperNearer then floor + 1 else floor)
  else if lower then some floor
  else if upper then some (floor + 1)
  else none

/-- The digits of a number, most significant first, without trailing zeros. -/
def trimmedDigits (n : Nat) : List Nat :=
  let digits := (Nat.toDigits 10 n).map digitValue
  (digits.reverse.dropWhile (· = 0)).reverse

/-- The fewest digits that read back as `significand * 2 ^ exponent`, nearest to it among those. -/
def shortest (f : FloatFormat) (significand : Nat) (exponent : Int) : DecimalDigits :=
  if significand = 0 then ⟨[], 0⟩
  else
    let i := Interval.of f significand exponent
    let point := pointOf i.middle i.denominator
    let found := (List.range 20).findSome? fun k => (i.atPrecision point (k + 1)).map ((k + 1), ·)
    match found with
    | some (count, n) =>
      let carried := Nat.pow 10 count ≤ n
      ⟨trimmedDigits n, if carried then point + 1 else point⟩
    | none => ⟨[], 0⟩

end Decimal

end SsaIr
