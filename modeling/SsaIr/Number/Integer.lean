import SsaIr.Number.FloatText

/-!
# Integer and truth-value numerals

Reading the words that stand for integers and truth values on a command line. An integer has an
optional sign and is decimal unless a leading `0b`, `0o`, `0x` or `0` says otherwise; underscores
may stand between digits. Read `readInt` first.
-/

namespace SsaIr

inductive IntReading where
  | value (v : Int64)
  | outOfRange
  | malformed
deriving DecidableEq, Repr, Inhabited

namespace Numeral

def base : List Char → Nat × List Char
  | '0' :: m :: c :: rest =>
    if m.toLower = 'b' then (2, c :: rest)
    else if m.toLower = 'o' then (8, c :: rest)
    else if m.toLower = 'x' then (16, c :: rest)
    else (8, m :: c :: rest)
  | '0' :: rest => (8, rest)
  | s => (10, s)

def letterDigit? (c : Char) : Option Nat :=
  if Decimal.isDigit c then some (Decimal.digitValue c)
  else if 'a' ≤ c.toLower && c.toLower ≤ 'z' then some (c.toLower.toNat - 'a'.toNat + 10)
  else none

inductive Magnitude where
  | value (n : Nat)
  | tooLarge
  | malformed
deriving DecidableEq, Repr

/-- Add up digits, skipping underscores. A magnitude that does not fit a 64-bit word ends the
reading at once, so that what follows is not looked at. -/
def magnitude (base : Nat) (n : Nat) : List Char → Magnitude
  | [] => .value n
  | c :: rest =>
    if c = '_' then magnitude base n rest
    else
      match letterDigit? c with
      | none => .malformed
      | some d =>
        if base ≤ d then .malformed
        else if 0x10000000000000000 ≤ n * base + d then .tooLarge
        else magnitude base (n * base + d) rest

def unsignedMagnitude (s : List Char) : Magnitude :=
  if s.isEmpty then .malformed
  else
    let (b, digits) := base s
    match magnitude b 0 digits with
    | .value n => if digits.contains '_' && !underscoresOk s then .malformed else .value n
    | m => m

end Numeral

def readInt (s : String) : IntReading :=
  let (negative, digits) := Numeral.unsigned s.toList
  match Numeral.unsignedMagnitude digits with
  | .malformed => .malformed
  | .tooLarge => .outOfRange
  | .value n =>
    if negative then if n ≤ 0x8000000000000000 then .value (Int64.ofInt (-n)) else .outOfRange
    else if n < 0x8000000000000000 then .value (Int64.ofNat n)
    else .outOfRange

def readBool? (s : String) : Option Bool :=
  if ["1", "t", "T", "TRUE", "true", "True"].contains s then some true
  else if ["0", "f", "F", "FALSE", "false", "False"].contains s then some false
  else none

end SsaIr
