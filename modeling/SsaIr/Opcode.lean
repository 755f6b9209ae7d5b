/-!
# Operations of instructions

The opcodes and comparison predicates, their spellings and their numbers. The families that share
a typing rule are types of their own: integer arithmetic, float arithmetic and casts; integer and
float predicates. A number that belongs to no opcode or predicate is kept as `unknown`, since it
can be asked about by number.
-/

namespace SsaIr

inductive IntOp where
  | add
  | sub
  | mul
  | udiv
  | sdiv
  | urem
  | srem
  | shl
  | lshr
  | ashr
  | and
  | or
  | xor
deriving DecidableEq, Repr, Inhabited

inductive FloatOp where
  | fadd
  | fsub
  | fmul
  | fdiv
deriving DecidableEq, Repr, Inhabited

inductive CastOp where
  | trunc
  | zext
  | sext
  | fptrunc
  | fpext
  | fptoui
  | fptosi
  | uitofp
  | sitofp
  | ptrtoint
  | inttoptr
  | bitcast
deriving DecidableEq, Repr, Inhabited

namespace IntOp

def all : List IntOp :=
  [.add, .sub, .mul, .udiv, .sdiv, .urem, .srem, .shl, .lshr, .ashr, .and, .or, .xor]

def name : IntOp → String
  | add => "add"
  | sub => "sub"
  | mul => "mul"
  | udiv => "udiv"
  | sdiv => "sdiv"
  | urem => "urem"
  | srem => "srem"
  | shl => "shl"
  | lshr => "lshr"
  | ashr => "ashr"
  | and => "and"
  | or => "or"
  | xor => "xor"

end IntOp

namespace FloatOp

def all : List FloatOp := [.fadd, .fsub, .fmul, .fdiv]

def name : FloatOp → String
  | fadd => "fadd"
  | fsub => "fsub"
  | fmul => "fmul"
  | fdiv => "fdiv"

end FloatOp

namespace CastOp

def all : List CastOp :=
  [.trunc, .zext, .sext, .fptrunc, .fpext, .fptoui, .fptosi, .uitofp, .sitofp, .ptrtoint,
    .inttoptr, .bitcast]

def name : CastOp → String
  | trunc => "trunc"
  | zext => "zext"
  | sext => "sext"
  | fptrunc => "fptrunc"
  | fpext => "fpext"
  | fptoui => "fptoui"
  | fptosi => "fptosi"
  | uitofp => "uitofp"
  | sitofp => "sitofp"
  | ptrtoint => "ptrtoint"
  | inttoptr => "inttoptr"
  | bitcast => "bitcast"

end CastOp

inductive Opcode where
  | ret
  | br
  | condBr
  | switch
  | int (op : IntOp)
  | float (op : FloatOp)
  | icmp
  | fcmp
  | alloca
  | load
  | store
  | gep
  | cast (op : CastOp)
  | phi
  | call
  | unknown (code : UInt8)
deriving DecidableEq, Repr, Inhabited

namespace Opcode

def all : List Opcode :=
  [.ret, .br, .condBr, .switch] ++ IntOp.all.map .int ++ FloatOp.all.map .float
    ++ [.icmp, .fcmp, .alloca, .load, .store, .gep] ++ CastOp.all.map .cast ++ [.phi, .call]

def name : Opcode → String
  | ret => "ret"
  | br => "br"
  | condBr => "cond_br"
  | switch => "switch"
  | int op => op.name
  | float op => op.name
  | icmp => "icmp"
  | fcmp => "fcmp"
  | alloca => "alloca"
  | load => "load"
  | store => "store"
  | gep => "gep"
  | cast op => op.name
  | phi => "phi"
  | call => "call"
  | unknown code => s!"Opcode({code})"

def mnemonic : Opcode → String
  | condBr => "br"
  | op => op.name

def ofCode (code : UInt8) : Opcode := (all[code.toNat]?).getD (unknown code)

def code : Opcode → Nat
  | unknown code => code.toNat
  | op => all.idxOf op

def ofMnemonic? (name : String) : Option Opcode :=
  all.find? fun op => op ≠ condBr && op.name = name

def isTerminator : Opcode → Bool
  | ret | br | condBr | switch => true
  | _ => false

def isIntBinary : Opcode → Bool
  | int _ => true
  | _ => false

def isFloatBinary : Opcode → Bool
  | float _ => true
  | _ => false

def isBinary (op : Opcode) : Bool := op.isIntBinary || op.isFloatBinary

def isCast : Opcode → Bool
  | cast _ => true
  | _ => false

end Opcode

inductive IntPredicate where
  | eq
  | ne
  | ugt
  | uge
  | ult
  | ule
  | sgt
  | sge
  | slt
  | sle
deriving DecidableEq, Repr, Inhabited

/-- Float comparisons: ordered ones are false, unordered ones true, when an operand is no number. -/
inductive FloatPredicate where
  | oeq
  | ogt
  | oge
  | olt
  | ole
  | one
  | ueq
  | ugt
  | uge
  | ult
  | ule
  | une
  | ord
  | uno
  | always
  | never
deriving DecidableEq, Repr, Inhabited

namespace IntPredicate

def all : List IntPredicate := [.eq, .ne, .ugt, .uge, .ult, .ule, .sgt, .sge, .slt, .sle]

def name : IntPredicate → String
  | eq => "eq"
  | ne => "ne"
  | ugt => "ugt"
  | uge => "uge"
  | ult => "ult"
  | ule => "ule"
  | sgt => "sgt"
  | sge => "sge"
  | slt => "slt"
  | sle => "sle"

def ofName? (name : String) : Option IntPredicate := all.find? fun p => p.name = name

end IntPredicate

namespace FloatPredicate

def all : List FloatPredicate :=
  [.oeq, .ogt, .oge, .olt, .ole, .one, .ueq, .ugt, .uge, .ult, .ule, .une, .ord, .uno, .always,
    .never]

def name : FloatPredicate → String
  | oeq => "oeq"
  | ogt => "ogt"
  | oge => "oge"
  | olt => "olt"
  | ole => "ole"
  | one => "one"
  | ueq => "ueq"
  | ugt => "ugt"
  | uge => "uge"
  | ult => "ult"
  | ule => "ule"
  | une => "une"
  | ord => "ord"
  | uno => "uno"
  | always => "true"
  | never => "false"

def ofName? (name : String) : Option FloatPredicate := all.find? fun p => p.name = name

end FloatPredicate

inductive Predicate where
  | int (p : IntPredicate)
  | float (p : FloatPredicate)
  | unknown (code : UInt8)
deriving DecidableEq, Repr, Inhabited

namespace Predicate

def all : List Predicate := IntPredicate.all.map .int ++ FloatPredicate.all.map .float

def ofCode (code : UInt8) : Predicate := (all[code.toNat]?).getD (unknown code)

def code : Predicate → Nat
  | unknown code => code.toNat
  | p => all.idxOf p

def name : Predicate → String
  | int p => p.name
  | float p => p.name
  | unknown code => s!"Predicate({code})"

def isInt : Predicate → Bool
  | int _ => true
  | _ => false

def isFloat : Predicate → Bool
  | float _ => true
  | _ => false

end Predicate

end SsaIr
