import SsaIr.Number.Decimal

/-!
# The text of floating-point numbers

`FloatWidth.literal` writes a number so that it reads back as the same number and never looks like
an integer; `FloatWidth.general` is the plain form below it. `readFloat` reads decimal and
hexadecimal numerals and the words for infinity and NaN, rounding to nearest.
-/

namespace SsaIr

inductive FloatWidth where
  | f32
  | f64
deriving DecidableEq, Repr, Inhabited

/-- The decisions of a float writer: which decimal exponents are written positionally, and how many
digits an exponent has at least. -/
structure FloatLayout where
  leastPositional : Int
  exponentialFrom : Int
  exponentDigits : Nat

/-- Exponents -4 to 5 are written positionally, other exponents with a sign and two digits. -/
def FloatLayout.standard : FloatLayout := ⟨-4, 6, 2⟩

namespace FloatLayout

def digitsText (digits : List Nat) : String := String.ofList (digits.map Nat.digitChar)

/-- An exponent with its sign, filled with zeros to the least number of digits. -/
def exponentText (layout : FloatLayout) (exponent : Int) : String :=
  let digits := Nat.toDigits 10 exponent.natAbs
  let padding := List.replicate (layout.exponentDigits - digits.length) '0'
  (if exponent < 0 then "-" else "+") ++ String.ofList (padding ++ digits)

/-- Scientific notation, with a point only when there is more than one digit. -/
def scientific (layout : FloatLayout) (d : DecimalDigits) : String :=
  let first := digitsText (d.digits.take 1)
  let rest := d.digits.drop 1
  first ++ (if rest.isEmpty then "" else "." ++ digitsText rest) ++ "e"
    ++ layout.exponentText (d.point - 1)

def positional (d : DecimalDigits) : String :=
  if d.point ≤ 0 then
    if d.digits.isEmpty then "0"
    else "0." ++ digitsText (List.replicate (-d.point).toNat 0 ++ d.digits)
  else
    let places := d.point.toNat
    let whole := d.digits.take places
    let filled := whole ++ List.replicate (places - whole.length) 0
    let fraction := d.digits.drop places
    digitsText filled ++ (if fraction.isEmpty then "" else "." ++ digitsText fraction)

def text (layout : FloatLayout) (d : DecimalDigits) : String :=
  let exponent := d.point - 1
  if !d.digits.isEmpty && (exponent < layout.leastPositional || layout.exponentialFrom ≤ exponent)
  then layout.scientific d
  else positional d

end FloatLayout

namespace FloatWidth

def bits : FloatWidth → Nat
  | f32 => 32
  | f64 => 64

def name : FloatWidth → String
  | f32 => "f32"
  | f64 => "f64"

def format : FloatWidth → FloatFormat
  | f32 => .binary32
  | f64 => .binary64

def classify (w : FloatWidth) (bits : UInt64) : FloatClass :=
  match w with
  | f32 => FloatFormat.binary32.classify (narrow bits).toNat
  | f64 => FloatFormat.binary64.classify bits.toNat

def general (w : FloatWidth) (bits : UInt64) : String :=
  match w.classify bits with
  | .nan => "NaN"
  | .infinite negative => if negative then "-Inf" else "+Inf"
  | .finite negative significand exponent =>
    (if negative then "-" else "")
      ++ FloatLayout.standard.text (Decimal.shortest w.format significand exponent)

/-- The text of a float constant: `nan`, `inf`, `-inf`, or the shortest text, to which `.0` is added
when it has neither a point nor an exponent. Only the double itself decides whether it is infinite,
so a finite double too large for the width keeps the plain form. -/
def literal (w : FloatWidth) (bits : UInt64) : String :=
  match FloatFormat.binary64.classify bits.toNat with
  | .nan => "nan"
  | .infinite negative => if negative then "-inf" else "inf"
  | .finite .. =>
    let s := w.general bits
    if s.any (fun c => c == '.' || c == 'e') then s else s ++ ".0"

end FloatWidth

inductive FloatReading where
  | value (bits : UInt64)
  | overflow (negative : Bool)
  | malformed
deriving DecidableEq, Repr

namespace FloatReading

def signed (negative : Bool) (magnitude : Nat) : UInt64 :=
  (FloatFormat.binary64.withSign negative magnitude).toUInt64

/-- A rounded magnitude, where infinity means that the numeral was too large. -/
def ofMagnitude (negative : Bool) (magnitude : Nat) : FloatReading :=
  if magnitude = FloatFormat.binary64.infinityBits then .overflow negative
  else .value (signed negative magnitude)

def saturated? : FloatReading → Option UInt64
  | value bits => some bits
  | overflow negative => some (signed negative FloatFormat.binary64.infinityBits)
  | malformed => none

end FloatReading

namespace Numeral

def digit? (hexadecimal : Bool) (c : Char) : Option Nat :=
  if Decimal.isDigit c then some (Decimal.digitValue c)
  else if hexadecimal && 'a' ≤ c.toLower && c.toLower ≤ 'f' then
    some (c.toLower.toNat - 'a'.toNat + 10)
  else none

structure Significand where
  value : Nat := 0
  fractionDigits : Nat := 0
  sawDigit : Bool := false
  sawPoint : Bool := false
  sawUnderscore : Bool := false

def significand (hexadecimal : Bool) (s : Significand) : List Char → Significand × List Char
  | [] => (s, [])
  | c :: rest =>
    if c = '_' then significand hexadecimal { s with sawUnderscore := true } rest
    else if c = '.' then
      if s.sawPoint then (s, c :: rest)
      else significand hexadecimal { s with sawPoint := true } rest
    else
      match digit? hexadecimal c with
      | some d =>
        significand hexadecimal
          { s with
            value := (if hexadecimal then 16 else 10) * s.value + d
            fractionDigits := if s.sawPoint then s.fractionDigits + 1 else s.fractionDigits
            sawDigit := true } rest
      | none => (s, c :: rest)

inductive Seen where
  | start
  | digit
  | underscore
  | other
deriving DecidableEq

/-- Each underscore stands between two digits, where a base marker counts as a digit. -/
def underscoresFrom (hexadecimal : Bool) (seen : Seen) : List Char → Bool
  | [] => seen ≠ .underscore
  | c :: rest =>
    if (digit? hexadecimal c).isSome then underscoresFrom hexadecimal .digit rest
    else if c = '_' then seen = .digit && underscoresFrom hexadecimal .underscore rest
    else seen ≠ .underscore && underscoresFrom hexadecimal .other rest

def unsigned : List Char → Bool × List Char
  | '-' :: rest => (true, rest)
  | '+' :: rest => (false, rest)
  | s => (false, s)

/-- The underscores of a numeral, sign and base marker included, are placed well. -/
def underscoresOk (s : List Char) : Bool :=
  match (unsigned s).2 with
  | '0' :: c :: rest =>
    if c.toLower = 'x' then underscoresFrom true .digit rest
    else if c.toLower = 'b' || c.toLower = 'o' then underscoresFrom false .digit rest
    else underscoresFrom false .start ('0' :: c :: rest)
  | rest => underscoresFrom false .start rest

/-- Read an exponent after its mark: a sign, then digits with underscores among them, the first a
digit. The flag tells whether there was an underscore. -/
def exponent? (s : List Char) : Option (Int × Bool) :=
  let (negative, digits) := unsigned s
  match digits with
  | first :: _ =>
    if Decimal.isDigit first && digits.all (fun c => Decimal.isDigit c || c = '_') then
      let value : Int := Decimal.value (digits.filter Decimal.isDigit)
      some (if negative then -value else value, digits.contains '_')
    else none
  | [] => none

/-- The words for infinity and NaN, in any case; only infinity takes a sign. -/
def word? (s : List Char) : Option FloatReading :=
  let lower := s.map Char.toLower
  let (negative, rest) := unsigned lower
  if rest = "inf".toList || rest = "infinity".toList then
    some (.value (FloatReading.signed negative FloatFormat.binary64.infinityBits))
  else if lower = "nan".toList then some (.value nanBits)
  else none

def nearestBinary (significand : Nat) (exponent : Int) : Nat :=
  let places : Int := significand.log2 + exponent
  if significand = 0 then 0
  else if 2000 < places then FloatFormat.binary64.infinityBits
  else if places < -2000 then 0
  else FloatFormat.binary64.roundScaled significand exponent

/-- Read a numeral that is no word. A hexadecimal one must have a binary exponent. -/
def read (s : List Char) : FloatReading :=
  let (negative, body) := unsigned s
  let (hexadecimal, body) :=
    match body with
    | '0' :: c :: d :: rest => if c.toLower = 'x' then (true, d :: rest) else (false, body)
    | _ => (false, body)
  let (m, rest) := significand hexadecimal {} body
  let exponent : Option (Int × Bool) :=
    match rest with
    | [] => if hexadecimal then none else some (0, false)
    | c :: after =>
      if c.toLower = (if hexadecimal then 'p' else 'e') then exponent? after else none
  match exponent with
  | none => .malformed
  | some (e, underscore) =>
    if !m.sawDigit || ((m.sawUnderscore || underscore) && !underscoresOk s) then .malformed
    else if hexadecimal then
      .ofMagnitude negative (nearestBinary m.value (e - 4 * m.fractionDigits))
    else
      .ofMagnitude negative (Decimal.nearest .binary64 m.value (e - m.fractionDigits))

end Numeral

def readFloat (s : String) : FloatReading :=
  match Numeral.word? s.toList with
  | some reading => reading
  | none => Numeral.read s.toList

end SsaIr
