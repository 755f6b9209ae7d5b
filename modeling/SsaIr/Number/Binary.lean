/-!
# Binary floating point as bit patterns

A floating-point number is held as its bit pattern, because two patterns that compare equal, or
two that are both no number, are still told apart. A `FloatFormat` gives the sizes of the fields;
`classify` reads a pattern as an exact value, `roundRatio` finds the pattern nearest to an exact
ratio, ties to the even one, and `narrow` and `widen` convert between the two formats.
-/

namespace SsaIr

structure FloatFormat where
  fractionBits : Nat
  exponentBits : Nat
deriving DecidableEq, Repr

/-- The exact value of a bit pattern. A finite one is `significand * 2 ^ exponent`. -/
inductive FloatClass where
  | nan
  | infinite (negative : Bool)
  | finite (negative : Bool) (significand : Nat) (exponent : Int)
deriving DecidableEq, Repr

namespace FloatFormat

def binary64 : FloatFormat := ⟨52, 11⟩

def binary32 : FloatFormat := ⟨23, 8⟩

def bias (f : FloatFormat) : Nat := Nat.pow 2 (f.exponentBits - 1) - 1

def minExponent (f : FloatFormat) : Int := 1 - (f.bias : Int) - f.fractionBits

def infinityBits (f : FloatFormat) : Nat :=
  (Nat.pow 2 f.exponentBits - 1) * Nat.pow 2 f.fractionBits

def signBit (f : FloatFormat) : Nat := Nat.pow 2 (f.fractionBits + f.exponentBits)

def classify (f : FloatFormat) (bits : Nat) : FloatClass :=
  let negative := bits / f.signBit % 2 == 1
  let field := bits / Nat.pow 2 f.fractionBits % Nat.pow 2 f.exponentBits
  let fraction := bits % Nat.pow 2 f.fractionBits
  if field = Nat.pow 2 f.exponentBits - 1 then
    if fraction = 0 then .infinite negative else .nan
  else if field = 0 then .finite negative fraction f.minExponent
  else .finite negative (Nat.pow 2 f.fractionBits + fraction) (f.minExponent + (field - 1 : Nat))

/-- `numerator / denominator` to the nearest integer, a half to the even one. -/
def divideNearest (numerator denominator : Nat) : Nat :=
  let quotient := numerator / denominator
  let twice := 2 * (numerator % denominator)
  if twice < denominator then quotient
  else if twice = denominator then quotient + quotient % 2
  else quotient + 1

/-- The exponent `e` with `2 ^ e ≤ numerator / denominator < 2 ^ (e + 1)`. -/
def ratioExponent (numerator denominator : Nat) : Int :=
  let e : Int := (numerator.log2 : Int) - denominator.log2
  let reaches : Bool :=
    if 0 ≤ e then denominator * Nat.pow 2 e.toNat ≤ numerator
    else denominator ≤ numerator * Nat.pow 2 (-e).toNat
  if reaches then e else e - 1

/-- The magnitude bits of the number nearest to a ratio, ties to even; infinity when it is too
large. Writing the significand onto the exponent field by addition lets a carry out of the
fraction raise the exponent by itself. -/
def roundRatio (f : FloatFormat) (numerator denominator : Nat) : Nat :=
  if numerator = 0 then 0
  else
    let unit := max (ratioExponent numerator denominator - f.fractionBits) f.minExponent
    let significand :=
      if 0 ≤ unit then divideNearest numerator (denominator * Nat.pow 2 unit.toNat)
      else divideNearest (numerator * Nat.pow 2 (-unit).toNat) denominator
    let field := (unit - f.minExponent).toNat
    min (field * Nat.pow 2 f.fractionBits + significand) f.infinityBits

/-- The magnitude bits of the number nearest to `significand * 2 ^ exponent`. -/
def roundScaled (f : FloatFormat) (significand : Nat) (exponent : Int) : Nat :=
  if 0 ≤ exponent then f.roundRatio (significand * Nat.pow 2 exponent.toNat) 1
  else f.roundRatio significand (Nat.pow 2 (-exponent).toNat)

def withSign (f : FloatFormat) (negative : Bool) (magnitude : Nat) : Nat :=
  if negative then magnitude + f.signBit else magnitude

def ofInt (f : FloatFormat) (v : Int) : Nat :=
  f.withSign (v < 0) (f.roundRatio v.natAbs 1)

end FloatFormat

def nanBits : UInt64 := 0x7FF8000000000001

def isNan64 (bits : UInt64) : Bool := FloatFormat.binary64.classify bits.toNat = .nan

/-- Convert double to single precision, to nearest. A NaN stays one: it is made quiet and keeps the
leading bits of its payload. -/
def narrow (bits : UInt64) : UInt32 :=
  match FloatFormat.binary64.classify bits.toNat with
  | .nan =>
    let negative := bits.toNat / 0x8000000000000000 % 2 == 1
    let payload := bits.toNat % 0x8000000000000 / 0x20000000
    (FloatFormat.binary32.withSign negative (0x7FC00000 + payload)).toUInt32
  | .infinite negative =>
    (FloatFormat.binary32.withSign negative FloatFormat.binary32.infinityBits).toUInt32
  | .finite negative significand exponent =>
    (FloatFormat.binary32.withSign negative
      (FloatFormat.binary32.roundScaled significand exponent)).toUInt32

/-- Convert single to double precision, which is exact. A NaN is made quiet and keeps its
payload. -/
def widen (bits : UInt32) : UInt64 :=
  match FloatFormat.binary32.classify bits.toNat with
  | .nan =>
    let negative := bits.toNat / 0x80000000 % 2 == 1
    let payload := bits.toNat % 0x400000 * 0x20000000
    (FloatFormat.binary64.withSign negative (0x7FF8000000000000 + payload)).toUInt64
  | .infinite negative =>
    (FloatFormat.binary64.withSign negative FloatFormat.binary64.infinityBits).toUInt64
  | .finite negative significand exponent =>
    (FloatFormat.binary64.withSign negative
      (FloatFormat.binary64.roundScaled significand exponent)).toUInt64

def roundToSingle (bits : UInt64) : UInt64 := widen (narrow bits)

/-- The integer part of a finite pattern, `none` for infinities and NaN. -/
def integerPart (bits : UInt64) : Option Int :=
  match FloatFormat.binary64.classify bits.toNat with
  | .finite negative significand exponent =>
    let magnitude : Nat :=
      if 0 ≤ exponent then significand * Nat.pow 2 exponent.toNat
      else significand / Nat.pow 2 (-exponent).toNat
    some (if negative then -(magnitude : Int) else magnitude)
  | _ => none

end SsaIr
