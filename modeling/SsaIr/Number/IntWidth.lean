/-!
# Integer widths

The integers of the representation are 1, 8, 16, 32 and 64 bits wide. A value of any width is
carried in 64 bits, sign extended from its width, except that a one-bit value is 0 or 1.
`IntWidth.truncate` brings a 64-bit value into that form.
-/

namespace SsaIr

inductive IntWidth where
  | w1
  | w8
  | w16
  | w32
  | w64
deriving DecidableEq, Repr, Inhabited

namespace IntWidth

def bits : IntWidth → Nat
  | w1 => 1
  | w8 => 8
  | w16 => 16
  | w32 => 32
  | w64 => 64

def ofBits? (bits : Int) : Option IntWidth :=
  if bits = 1 then some w1
  else if bits = 8 then some w8
  else if bits = 16 then some w16
  else if bits = 32 then some w32
  else if bits = 64 then some w64
  else none

/-- Narrow to the width: the low bits, sign extended, or just the low bit for width 1. -/
def truncate : IntWidth → Int64 → Int64
  | w1, v => v &&& 1
  | w8, v => v.toInt8.toInt64
  | w16, v => v.toInt16.toInt64
  | w32, v => v.toInt32.toInt64
  | w64, v => v

/-- The value read as signed: the low bits sign extended, so that a one-bit 1 is -1. -/
def signed : IntWidth → Int64 → Int64
  | w1, v => -(v &&& 1)
  | w, v => w.truncate v

def unsigned : IntWidth → Int64 → UInt64
  | w1, v => v.toUInt64 &&& 1
  | w8, v => v.toUInt64 &&& 0xFF
  | w16, v => v.toUInt64 &&& 0xFFFF
  | w32, v => v.toUInt64 &&& 0xFFFFFFFF
  | w64, v => v.toUInt64

def name : IntWidth → String
  | w1 => "i1"
  | w8 => "i8"
  | w16 => "i16"
  | w32 => "i32"
  | w64 => "i64"

/-- A decimal integer is representable in the width as a signed or as an unsigned number. Whatever
could be read has a pattern of 64 bits. -/
def fits (w : IntWidth) (negative : Bool) (v : Int64) : Bool :=
  match w with
  | w64 => true
  | w =>
    if negative then -(Nat.pow 2 (w.bits - 1) : Int) ≤ v.toInt
    else 0 ≤ v.toInt && v.toInt ≤ Nat.pow 2 w.bits - 1

end IntWidth

/-- Narrow a 64-bit value to a number of bits, when it is a width; otherwise leave it. -/
def truncateBits (v : Int64) (bits : Int) : Int64 :=
  match IntWidth.ofBits? bits with
  | some w => w.truncate v
  | none => v

end SsaIr
