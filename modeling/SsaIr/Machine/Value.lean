import SsaIr.Const
import SsaIr.Text.Octets

/-!
# Runtime values

The values that a program computes with: integers in the canonical 64-bit form of their width,
floats as bit patterns, addresses, and a value without contents that reads as zero everywhere. All
of them are 64 bits with a kind, and the readings `toInt`, `toUInt`, `toFloat` and so on are defined
for each.
-/

namespace SsaIr

inductive RuntimeKind where
  | undef
  | int (w : IntWidth)
  | float (w : FloatWidth)
  | ptr
deriving DecidableEq, Repr, Inhabited

namespace RuntimeKind

def all : List RuntimeKind :=
  [.undef, .int .w1, .int .w8, .int .w16, .int .w32, .int .w64, .float .f32, .float .f64, .ptr]

def name : RuntimeKind → String
  | undef => "undef"
  | int w => w.name
  | float w => w.name
  | ptr => "ptr"

def ofCode? (code : Nat) : Option RuntimeKind := all[code]?

def codeName (code : Nat) : String :=
  match ofCode? code with
  | some k => k.name
  | none => s!"Kind({code})"

def isInteger : RuntimeKind → Bool
  | int _ => true
  | _ => false

def isFloat : RuntimeKind → Bool
  | float _ => true
  | _ => false

/-- The kind of the values of a type; aggregates have no runtime values. -/
def ofType : Ty → RuntimeKind
  | .int w => .int w
  | .float w => .float w
  | .pointer _ => .ptr
  | _ => .undef

end RuntimeKind

/-- A payload of 64 bits, and the kind that says how to read it. -/
structure RuntimeValue where
  kind : RuntimeKind := .undef
  bits : UInt64 := 0
deriving DecidableEq, Repr, Inhabited

namespace RuntimeValue

def undef : RuntimeValue := {}

def int (w : IntWidth) (v : Int64) : RuntimeValue := { kind := .int w, bits := v.toUInt64 }

def f32 (bits : UInt32) : RuntimeValue := { kind := .float .f32, bits := bits.toUInt64 }

def f64 (bits : UInt64) : RuntimeValue := { kind := .float .f64, bits }

def ptr (address : UInt64) : RuntimeValue := { kind := .ptr, bits := address }

def isUndef (v : RuntimeValue) : Bool := v.kind = .undef

def ofInt (w : IntWidth) (v : Int64) : RuntimeValue := .int w (w.truncate v)

def ofBool (b : Bool) : RuntimeValue := .int .w1 (if b then 1 else 0)

def ofFloat (w : FloatWidth) (bits : UInt64) : RuntimeValue :=
  match w with
  | .f32 => .f32 (narrow bits)
  | .f64 => .f64 bits

def toInt (v : RuntimeValue) : Int64 :=
  match v.kind with
  | .int w => w.signed v.bits.toInt64
  | _ => v.bits.toInt64

def toUInt (v : RuntimeValue) : UInt64 :=
  match v.kind with
  | .int w => w.unsigned v.bits.toInt64
  | _ => v.bits

def toBool (v : RuntimeValue) : Bool := v.bits &&& 1 != 0

def toSingle (v : RuntimeValue) : UInt32 := v.bits.toUInt32

def toFloat (v : RuntimeValue) : UInt64 :=
  match v.kind with
  | .float .f32 => widen v.toSingle
  | _ => v.bits

def toAddress (v : RuntimeValue) : UInt64 := v.bits

def text (v : RuntimeValue) : String :=
  match v.kind with
  | .undef => "undef"
  | .int .w1 => (if v.toBool then "true" else "false") ++ ": i1"
  | .int w => s!"{v.toInt.toInt}: {w.name}"
  | .float .f32 => FloatWidth.f32.literal (widen v.toSingle) ++ ": f32"
  | .float .f64 => FloatWidth.f64.literal v.bits ++ ": f64"
  | .ptr => s!"0x{Text.hex v.bits.toNat}: ptr"

def ofConst : Const → RuntimeValue
  | .int w v => ofInt w v
  | .float w b => ofFloat w b
  | .null _ => .ptr 0
  | .undef _ => .undef

end RuntimeValue

end SsaIr
