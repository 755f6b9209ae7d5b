/-!
# Texts of octets

Source text, names and printed programs are sequences of bytes, not of code points: columns
count bytes, and a string literal may hold bytes that are no UTF-8 at all. A byte is held as the
character of the same number, so a text is an ordinary `String` all of whose characters lie below
256. `ofBytes` and `toBytes` pass between the two views, and `runes` reads a text as UTF-8.
-/

namespace SsaIr.Text

def ofByte (b : UInt8) : Char := Char.ofNat b.toNat

def toByte (c : Char) : UInt8 := c.toNat.toUInt8

def ofBytes (bytes : List UInt8) : String := String.ofList (bytes.map ofByte)

def toBytes (text : String) : List UInt8 := text.toList.map toByte

def ofUtf8 (s : String) : String := ofBytes s.toUTF8.toList

def encodeRune (c : Char) : List Char := (ofUtf8 (String.singleton c)).toList

/-- One step of reading a text as UTF-8: a code point, or a byte that belongs to none. -/
inductive Rune where
  | valid (c : Char)
  | stray (byte : Char)
deriving DecidableEq, Repr

def continues (low high : Nat) (c : Char) : Bool := low ≤ c.toNat && c.toNat ≤ high

/-- The number of bytes that must follow a leading byte, with the range allowed for the first of
them. Ranges narrower than 80–BF exclude overlong forms, surrogates and values above 10FFFF. -/
def trailing (lead : Nat) : Option (Nat × Nat × Nat) :=
  if 0xC2 ≤ lead && lead ≤ 0xDF then some (1, 0x80, 0xBF)
  else if lead = 0xE0 then some (2, 0xA0, 0xBF)
  else if lead = 0xED then some (2, 0x80, 0x9F)
  else if 0xE1 ≤ lead && lead ≤ 0xEF then some (2, 0x80, 0xBF)
  else if lead = 0xF0 then some (3, 0x90, 0xBF)
  else if 0xF1 ≤ lead && lead ≤ 0xF3 then some (3, 0x80, 0xBF)
  else if lead = 0xF4 then some (3, 0x80, 0x8F)
  else none

def payload (c : Char) : Nat := c.toNat % 64

/-- The code point that starts with `lead`, with the number of bytes after `lead` it takes. -/
def multibyte (lead : Nat) (rest : List Char) : Option (Char × Nat) :=
  match trailing lead, rest with
  | some (1, low, high), a :: _ =>
    if continues low high a then
      some (Char.ofNat (lead % 32 * 64 + payload a), 1)
    else none
  | some (2, low, high), a :: b :: _ =>
    if continues low high a && continues 0x80 0xBF b then
      some (Char.ofNat ((lead % 16 * 64 + payload a) * 64 + payload b), 2)
    else none
  | some (3, low, high), a :: b :: c :: _ =>
    if continues low high a && continues 0x80 0xBF b && continues 0x80 0xBF c then
      some (Char.ofNat (((lead % 8 * 64 + payload a) * 64 + payload b) * 64 + payload c), 3)
    else none
  | _, _ => none

/-- Read octets as UTF-8. A byte that is not part of a valid sequence is reported by itself. -/
def runes : List Char → List Rune
  | [] => []
  | c :: rest =>
    if c.toNat < 0x80 then .valid c :: runes rest
    else
      match multibyte c.toNat rest with
      | some (rune, taken) => .valid rune :: runes (rest.drop taken)
      | none => .stray c :: runes rest
termination_by octets => octets.length
decreasing_by all_goals (simp [List.length_drop]; try omega)

def hexDigit (n : Nat) : Char := (Nat.digitChar (n % 16))

def hexByte (n : Nat) : String := String.ofList [hexDigit (n / 16), hexDigit n]

def hex (n : Nat) : String := String.ofList (Nat.toDigits 16 n)

/-- `n` in lowercase hexadecimal, filled with zeros up to `width` digits. -/
def hexPadded (width n : Nat) : String :=
  let digits := Nat.toDigits 16 n
  String.ofList (List.replicate (width - digits.length) '0' ++ digits)

end SsaIr.Text
