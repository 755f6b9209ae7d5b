import SsaIr.Machine.Fault

/-!
# Arithmetic on runtime values

Integer operations compute on 64 bits and narrow to the width; shifts by the width or more give zero
or copies of the sign. Floats are computed in double precision and narrowed. Division by zero is a
fault for integers and for floats.
-/

namespace SsaIr.Arithmetic

def shiftLeft (x amount : UInt64) : UInt64 := if amount < 64 then x <<< amount else 0

def shiftRight (x amount : UInt64) : UInt64 := if amount < 64 then x >>> amount else 0

def shiftRightSigned (x : Int64) (amount : UInt64) : Int64 :=
  if amount < 64 then x >>> amount.toInt64 else if x < 0 then -1 else 0

def intResult (op : IntOp) (a b : RuntimeValue) : Except FaultCause Int64 :=
  let x := a.toInt
  let y := b.toInt
  let ux := a.toUInt
  let uy := b.toUInt
  match op with
  | .add => .ok (x + y)
  | .sub => .ok (x - y)
  | .mul => .ok (x * y)
  | .udiv => if uy = 0 then .error (.integerDivision op) else .ok (ux / uy).toInt64
  | .urem => if uy = 0 then .error (.integerDivision op) else .ok (ux % uy).toInt64
  | .sdiv => if y = 0 then .error (.integerDivision op) else .ok (x / y)
  | .srem => if y = 0 then .error (.integerDivision op) else .ok (x % y)
  | .shl => .ok (shiftLeft ux uy).toInt64
  | .lshr => .ok (shiftRight ux uy).toInt64
  | .ashr => .ok (shiftRightSigned x uy)
  | .and => .ok (x &&& y)
  | .or => .ok (x ||| y)
  | .xor => .ok (x ^^^ y)

def intBinary (op : IntOp) (w : IntWidth) (a b : RuntimeValue) : Except FaultCause RuntimeValue :=
  return .ofInt w (← intResult op a b)

def isZero (bits : UInt64) : Bool := bits <<< 1 = 0

def isNegative (bits : UInt64) : Bool := !isNan64 bits && !isZero bits && bits >>> 63 = 1

def floatBinary (op : FloatOp) (w : FloatWidth) (a b : RuntimeValue) :
    Except FaultCause RuntimeValue :=
  let x := Float.ofBits a.toFloat
  let y := Float.ofBits b.toFloat
  match op with
  | .fadd => .ok (.ofFloat w (x + y).toBits)
  | .fsub => .ok (.ofFloat w (x - y).toBits)
  | .fmul => .ok (.ofFloat w (x * y).toBits)
  | .fdiv => if isZero b.toFloat then .error .floatDivision else .ok (.ofFloat w (x / y).toBits)

def icmp (p : IntPredicate) (a b : RuntimeValue) : Bool :=
  let x := a.toInt
  let y := b.toInt
  let ux := a.toUInt
  let uy := b.toUInt
  match p with
  | .eq => ux = uy
  | .ne => ux ≠ uy
  | .ugt => uy < ux
  | .uge => uy ≤ ux
  | .ult => ux < uy
  | .ule => ux ≤ uy
  | .sgt => y < x
  | .sge => y ≤ x
  | .slt => x < y
  | .sle => x ≤ y

/-- Compare floats. An ordered predicate fails on NaN, an unordered one holds. -/
def fcmp (p : FloatPredicate) (a b : UInt64) : Bool :=
  let unordered := isNan64 a || isNan64 b
  let x := Float.ofBits a
  let y := Float.ofBits b
  match p with
  | .oeq => !unordered && x == y
  | .ogt => !unordered && y < x
  | .oge => !unordered && y ≤ x
  | .olt => !unordered && x < y
  | .ole => !unordered && x ≤ y
  | .one => !unordered && x != y
  | .ueq => unordered || x == y
  | .ugt => unordered || y < x
  | .uge => unordered || y ≤ x
  | .ult => unordered || x < y
  | .ule => unordered || x ≤ y
  | .une => unordered || x != y
  | .ord => !unordered
  | .uno => unordered
  | .always => true
  | .never => false

/-- The signed integer part of a float; what does not fit is the least integer. -/
def toSigned (bits : UInt64) : Int64 :=
  match integerPart bits with
  | some n =>
    if -0x8000000000000000 ≤ n && n < 0x8000000000000000 then Int64.ofInt n else Int64.minValue
  | none => Int64.minValue

/-- The integer part of a float that is not negative, taken as an unsigned integer. -/
def toUnsigned (bits : UInt64) : UInt64 :=
  match integerPart bits with
  | some n => if n < 0x10000000000000000 then n.toNat.toUInt64 else 0x8000000000000000
  | none => 0x8000000000000000

def ofInteger (w : FloatWidth) (n : Int) : RuntimeValue :=
  match w with
  | .f32 => .f32 (FloatFormat.binary32.ofInt n).toUInt32
  | .f64 => .f64 (FloatFormat.binary64.ofInt n).toUInt64

def castBits (source : Ty) (v : RuntimeValue) : UInt64 :=
  match source with
  | .int w => w.unsigned v.toInt
  | _ => v.bits

def cast (op : CastOp) (v : RuntimeValue) (source : Option Ty) (target : Ty) :
    Except FaultCause RuntimeValue :=
  match op, target with
  | .trunc, .int w | .sext, .int w => .ok (.ofInt w v.toInt)
  | .zext, .int w => .ok (.ofInt w v.toUInt.toInt64)
  | .fptrunc, .float w | .fpext, .float w => .ok (.ofFloat w v.toFloat)
  | .fptoui, .int w =>
    let f := v.toFloat
    .ok (.ofInt w (if isNegative f then toSigned f else (toUnsigned f).toInt64))
  | .fptosi, .int w => .ok (.ofInt w (toSigned v.toFloat))
  | .uitofp, .float w => .ok (ofInteger w v.toUInt.toNat)
  | .sitofp, .float w => .ok (ofInteger w v.toInt.toInt)
  | .ptrtoint, .int w => .ok (.ofInt w v.bits.toInt64)
  | .inttoptr, .pointer _ => .ok (.ptr v.toUInt)
  | .bitcast, .pointer _ => .ok (.ptr v.bits)
  | .bitcast, .int w => .ok (.ofInt w (castBits (source.getD .void) v).toInt64)
  | .bitcast, .float .f32 => .ok (.f32 (castBits (source.getD .void) v).toUInt32)
  | .bitcast, .float .f64 => .ok (.f64 (castBits (source.getD .void) v))
  | op, target => .error (.badCast op source (some target))

end SsaIr.Arithmetic
