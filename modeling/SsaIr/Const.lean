import SsaIr.Ty

/-!
# Constants

A constant is a piece of data, so constants are the same when they have the same category, type
and payload. An integer is kept as its width keeps it, and a float as the pattern of the double
that equals it, rounded to single precision for the narrower type.
-/

namespace SsaIr

inductive Const where
  | int (w : IntWidth) (v : Int64)
  | float (w : FloatWidth) (bits : UInt64)
  | undef (ty : Ty)
  | null (pointee : Ty)
deriving DecidableEq, Repr, Inhabited

namespace Const

def ofInt (w : IntWidth) (v : Int64) : Const := .int w (w.truncate v)

def ofFloat (w : FloatWidth) (bits : UInt64) : Const :=
  match w with
  | .f32 => .float .f32 (roundToSingle bits)
  | .f64 => .float .f64 bits

def ofBool (b : Bool) : Const := .int .w1 (if b then 1 else 0)

def type : Const → Ty
  | int w _ => .int w
  | float w _ => .float w
  | undef t => t
  | null t => .pointer t

def literal : Const → String
  | int .w1 v => if v ≠ 0 then "true" else "false"
  | int _ v => toString v.toInt
  | float w bits => w.literal bits
  | undef _ => "undef"
  | null _ => "null"

def isInt : Const → Bool
  | int .. => true
  | _ => false

def isFloat : Const → Bool
  | float .. => true
  | _ => false

def isUndef : Const → Bool
  | undef _ => true
  | _ => false

def isNull : Const → Bool
  | null _ => true
  | _ => false

def intValue : Const → Int64
  | int _ v => v
  | _ => 0

def uintValue : Const → UInt64
  | int w v => w.unsigned v
  | _ => 0

def floatBits : Const → UInt64
  | float _ bits => bits
  | _ => 0

def kindCode : Const → Nat
  | int .. => 0
  | float .. => 1
  | undef _ => 2
  | null _ => 3

end Const

end SsaIr
