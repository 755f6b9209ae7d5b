import SsaIr.Const
import SsaIr.Opcode

/-!
# The program graph

Programs are graphs of values: constants, arguments, instructions, blocks, functions and globals.
A `Context` owns every entity and hands out identifiers for them; constants have no identity beyond
their contents. An operand slot of an instruction that refers to a value is a `Use`, recorded with
the value as well, so that the users of a value are known. Entities are never destroyed: an erased
instruction only leaves its block.
-/

namespace SsaIr

structure ArgId where
  index : Nat
deriving DecidableEq, Repr, Inhabited

structure InstId where
  index : Nat
deriving DecidableEq, Repr, Inhabited

structure BlockId where
  index : Nat
deriving DecidableEq, Repr, Inhabited

structure FuncId where
  index : Nat
deriving DecidableEq, Repr, Inhabited

structure GlobalId where
  index : Nat
deriving DecidableEq, Repr, Inhabited

structure ModuleId where
  index : Nat
deriving DecidableEq, Repr, Inhabited

/-- What instructions refer to. -/
inductive Value where
  | const (c : Const)
  | arg (a : ArgId)
  | inst (i : InstId)
  | block (b : BlockId)
  | func (f : FuncId)
  | global (g : GlobalId)
deriving DecidableEq, Repr, Inhabited

/-- An operand slot: position `index` among the operands of `user`. -/
structure Use where
  user : InstId
  index : Nat
deriving DecidableEq, Repr, Inhabited

inductive ValueKind where
  | argument
  | instruction
  | block
  | function
  | constant
  | global
deriving DecidableEq, Repr, Inhabited

namespace ValueKind

def all : List ValueKind := [.argument, .instruction, .block, .function, .constant, .global]

def name : ValueKind → String
  | argument => "argument"
  | instruction => "instruction"
  | block => "basic block"
  | function => "function"
  | constant => "constant"
  | global => "global"

def codeName (code : Nat) : String :=
  match all[code]? with
  | some k => k.name
  | none => s!"ValueKind({code})"

end ValueKind

def Value.kind : Value → ValueKind
  | const _ => .constant
  | arg _ => .argument
  | inst _ => .instruction
  | block _ => .block
  | func _ => .function
  | global _ => .global

inductive Operation where
  | ret
  | br
  | condBr
  | switch
  | int (op : IntOp)
  | float (op : FloatOp)
  | icmp (p : IntPredicate)
  | fcmp (p : FloatPredicate)
  | alloca (allocated : Ty)
  | load
  | store
  | gep (source : Ty) (inBounds : Bool)
  | cast (op : CastOp)
  | phi
  | call
deriving DecidableEq, Repr, Inhabited

namespace Operation

def opcode : Operation → Opcode
  | ret => .ret
  | br => .br
  | condBr => .condBr
  | switch => .switch
  | int op => .int op
  | float op => .float op
  | icmp _ => .icmp
  | fcmp _ => .fcmp
  | alloca _ => .alloca
  | load => .load
  | store => .store
  | gep .. => .gep
  | cast op => .cast op
  | phi => .phi
  | call => .call

def isTerminator (op : Operation) : Bool := op.opcode.isTerminator

def isPhi : Operation → Bool
  | phi => true
  | _ => false

def sourceType? : Operation → Option Ty
  | alloca t => some t
  | gep t _ => some t
  | _ => none

end Operation

/-- A formal parameter, or a stand-in for a value that is used before its definition, which has no
index. -/
structure Argument where
  name : String
  type : Option Ty
  parent : FuncId
  index : Option Nat
  users : List Use := []
deriving Repr, Inhabited

/-- An instruction. The operands of each operation are

* `ret` [value], `br` [dest], `condBr` [cond, then, else],
* `switch` [cond, default, case, dest, case, dest, …],
* arithmetic and comparisons [lhs, rhs], `alloca` [], `load` [ptr], `store` [value, ptr],
* `gep` [base, index, …], casts [value], `phi` [value, block, value, block, …],
* `call` [callee, argument, …].

An erased instruction has no parent and no operands. -/
structure Instruction where
  op : Operation
  name : String
  type : Ty
  parent : Option BlockId
  operands : Array (Option Value) := #[]
  users : List Use := []
deriving Repr, Inhabited

/-- A basic block. It belongs to a function from the start, and is linked once it stands in the
function's list of blocks. -/
structure Block where
  name : String
  parent : FuncId
  linked : Bool := false
  insts : Array InstId := #[]
  users : List Use := []
deriving Repr, Inhabited

/-- A function. Its signature is fixed once all arguments are known; without blocks it is a
declaration. It is linked once its module lists it. -/
structure Function where
  name : String
  parent : ModuleId
  ret : Ty
  signature : Option Ty := none
  args : Array ArgId := #[]
  blocks : Array BlockId := #[]
  linked : Bool := false
  users : List Use := []
deriving Repr, Inhabited

/-- A global variable. Its value is a pointer to the cell; without an initializer the cell is
zero. -/
structure Global where
  name : String
  parent : ModuleId
  allocated : Ty
  init : Option Value := none
  users : List Use := []
deriving Repr, Inhabited

inductive Symbol where
  | func (f : FuncId)
  | global (g : GlobalId)
deriving DecidableEq, Repr, Inhabited

def Symbol.value : Symbol → Value
  | func f => .func f
  | global g => .global g

/-- A module: globals and functions in definition order, the symbol table they share, and the named
structs that its text declares. -/
structure Module where
  name : String
  globals : Array GlobalId := #[]
  functions : Array FuncId := #[]
  symbols : List (String × Symbol) := []
  structs : List Ty := []
deriving Repr, Inhabited

structure ConstEntry where
  const : Const
  users : List Use := []
deriving Repr, Inhabited

/-- The owner of all entities. Types and constants are recorded when they are first asked for; the
counts of instructions and uses start over when the programs are forgotten. -/
structure Context where
  types : List Ty
  namedStructs : List Ty := []
  constants : Array ConstEntry
  args : Array Argument := #[]
  insts : Array Instruction := #[]
  blocks : Array Block := #[]
  functions : Array Function := #[]
  globals : Array Global := #[]
  modules : Array Module := #[]
  live : List ModuleId := []
  instCount : Nat := 0
  useCount : Nat := 0
deriving Repr, Inhabited

namespace Context

/-- The context that knows the primitive types and the two truth values. -/
def new : Context where
  types :=
    [.void, .int .w1, .int .w8, .int .w16, .int .w32, .int .w64, .float .f32, .float .f64, .label]
  constants := #[{ const := .ofBool true }, { const := .ofBool false }]

def arg (c : Context) (a : ArgId) : Argument := c.args.getD a.index default

def inst (c : Context) (i : InstId) : Instruction := c.insts.getD i.index default

def block (c : Context) (b : BlockId) : Block := c.blocks.getD b.index default

def func (c : Context) (f : FuncId) : Function := c.functions.getD f.index default

def global (c : Context) (g : GlobalId) : Global := c.globals.getD g.index default

def module (c : Context) (m : ModuleId) : Module := c.modules.getD m.index default

def modifyArg (c : Context) (a : ArgId) (f : Argument → Argument) : Context :=
  { c with args := c.args.modify a.index f }

def modifyInst (c : Context) (i : InstId) (f : Instruction → Instruction) : Context :=
  { c with insts := c.insts.modify i.index f }

def modifyBlock (c : Context) (b : BlockId) (f : Block → Block) : Context :=
  { c with blocks := c.blocks.modify b.index f }

def modifyFunc (c : Context) (f : FuncId) (g : Function → Function) : Context :=
  { c with functions := c.functions.modify f.index g }

def modifyGlobal (c : Context) (g : GlobalId) (f : Global → Global) : Context :=
  { c with globals := c.globals.modify g.index f }

def modifyModule (c : Context) (m : ModuleId) (f : Module → Module) : Context :=
  { c with modules := c.modules.modify m.index f }

/-- The type of a value. Only a function without signature, or a stand-in made without a type, has
none. -/
def typeOf (c : Context) : Value → Option Ty
  | .const k => some k.type
  | .arg a => (c.arg a).type
  | .inst i => some (c.inst i).type
  | .block _ => some .label
  | .func f => (c.func f).signature.map .pointer
  | .global g => some (.pointer (c.global g).allocated)

def typeOf? (c : Context) (v : Option Value) : Option Ty := v.bind c.typeOf

def nameOf (c : Context) : Value → String
  | .const _ => ""
  | .arg a => (c.arg a).name
  | .inst i => (c.inst i).name
  | .block b => (c.block b).name
  | .func f => (c.func f).name
  | .global g => (c.global g).name

def constIndex? (c : Context) (k : Const) : Option Nat :=
  c.constants.findIdx? fun e => e.const = k

def users (c : Context) : Value → List Use
  | .const k =>
    match c.constIndex? k with
    | some i => (c.constants.getD i default).users
    | none => []
  | .arg a => (c.arg a).users
  | .inst i => (c.inst i).users
  | .block b => (c.block b).users
  | .func f => (c.func f).users
  | .global g => (c.global g).users

def modifyUsers (c : Context) (v : Value) (f : List Use → List Use) : Context :=
  match v with
  | .const k =>
    match c.constIndex? k with
    | some i =>
      { c with constants := c.constants.modify i fun e => { e with users := f e.users } }
    | none => c
  | .arg a => c.modifyArg a fun x => { x with users := f x.users }
  | .inst i => c.modifyInst i fun x => { x with users := f x.users }
  | .block b => c.modifyBlock b fun x => { x with users := f x.users }
  | .func g => c.modifyFunc g fun x => { x with users := f x.users }
  | .global g => c.modifyGlobal g fun x => { x with users := f x.users }

end Context

namespace Instruction

def isTerminator (i : Instruction) : Bool := i.op.isTerminator

def isPhi (i : Instruction) : Bool := i.op.isPhi

def operand (i : Instruction) (n : Nat) : Option Value := (i.operands.getD n none)

def pairs : List (Option Value) → List (Option Value × Option Value)
  | a :: b :: rest => (a, b) :: pairs rest
  | _ => []

def incoming (i : Instruction) : List (Option Value × Option Value) := pairs i.operands.toList

def cases (i : Instruction) : List (Option Value × Option Value) :=
  pairs (i.operands.toList.drop 2)

def condition (i : Instruction) : Option Value :=
  match i.op with
  | .condBr | .switch => i.operand 0
  | _ => none

def callee (i : Instruction) : Option Value :=
  match i.op with
  | .call => i.operand 0
  | _ => none

def callArgs (i : Instruction) : List (Option Value) :=
  match i.op with
  | .call => i.operands.toList.drop 1
  | _ => []

def targetOperands (i : Instruction) : List (Option Value) :=
  match i.op with
  | .br => [i.operand 0]
  | .condBr => [i.operand 1, i.operand 2]
  | .switch => i.operand 1 :: i.cases.map (·.2)
  | _ => []

def incomingFor (i : Instruction) (b : BlockId) : Option (Option Value) :=
  (i.incoming.find? fun p => p.2 = some (.block b)).map (·.1)

end Instruction

def Value.block? : Value → Option BlockId
  | block b => some b
  | _ => none

def Value.inst? : Value → Option InstId
  | inst i => some i
  | _ => none

namespace Context

/-- The blocks a terminator may go to, in operand order and with repetitions; `none` if an operand
that should name a block does not. -/
def instSuccessors (c : Context) (i : InstId) : Option (List BlockId) :=
  (c.inst i).targetOperands.mapM fun v => v.bind Value.block?

def lastInst (c : Context) (b : BlockId) : Option InstId := (c.block b).insts.back?

def terminator (c : Context) (b : BlockId) : Option InstId :=
  (c.lastInst b).filter fun i => (c.inst i).isTerminator

def phis (c : Context) (b : BlockId) : List InstId :=
  (c.block b).insts.toList.takeWhile fun i => (c.inst i).isPhi

/-- The targets of the terminator of a block; none without a terminator. -/
def blockSuccessors (c : Context) (b : BlockId) : Option (List BlockId) :=
  match c.terminator b with
  | some i => c.instSuccessors i
  | none => some []

def isDeclaration (c : Context) (f : FuncId) : Bool := (c.func f).blocks.isEmpty

def entry (c : Context) (f : FuncId) : Option BlockId := (c.func f).blocks[0]?

def lookup (c : Context) (m : ModuleId) (name : String) : Option Symbol :=
  (c.module m).symbols.lookup name

def functionNamed (c : Context) (m : ModuleId) (name : String) : Option FuncId :=
  match c.lookup m name with
  | some (.func f) => some f
  | _ => none

end Context

end SsaIr
