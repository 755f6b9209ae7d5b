import SsaIr.Inspect.Datum
import SsaIr.Graph.Print
import SsaIr.TypeKind

/-!
# Describing types and values

What can be asked of a type, a constant or a value of a program, as a `Datum`
(`SsaIr.Inspect.Datum`).
-/

namespace SsaIr

def Ty.describe : Option Ty → Datum
  | none => .text (Ty.optionText none)
  | some t =>
    .record [("text", .text t.text), ("kind", .text t.kind.name), ("width", .number t.bitWidth),
      ("len", .number t.count), ("name", .text t.structName),
      ("pointee", .text? (t.pointee?.map Ty.text)), ("elem", .text? (t.elem?.map Ty.text)),
      ("ret", .text? (t.ret?.map Ty.text)), ("params", .texts (t.params.map Ty.text)),
      ("fields", .texts (t.members.map Ty.text)), ("nfields", .number t.members.length),
      ("variadic", .flag t.variadic),
      ("is", .flags [t.isVoid, t.isLabel, t.isPointer, t.isArray, t.isStruct, t.isFunction,
        t.isInteger, t.isFloat, t.isAggregate, t.isPrimitive, t.isSized, t.isNamed])]

def Const.describe (k : Const) : Datum :=
  .record [("text", .text (k.literal ++ ": " ++ k.type.text)), ("literal", .text k.literal),
    ("kind", .number k.kindCode), ("int", .digits k.intValue.toInt),
    ("uint", .digits k.uintValue.toNat), ("float", .text (FloatWidth.f64.literal k.floatBits)),
    ("is", .flags [k.isInt, k.isFloat, k.isUndef, k.isNull])]

namespace Context

/-- The text of a value on its own: instructions and globals as they are printed, a function with
its type if that is settled, a block by its label and other values as operands. -/
def display (c : Context) : Value → String
  | .inst i => c.instText i
  | .global g => c.globalText g
  | .func f =>
    "@" ++ (c.func f).name
      ++ (match c.typeOf (.func f) with
        | some t => ": " ++ t.text
        | none => "")
  | .block b => "$" ++ (c.block b).name
  | v => c.operandText (some v)

def display? (c : Context) (v : Option Value) : Datum := .text? (v.map c.display)

def blockNames (c : Context) (bs : List BlockId) : Datum :=
  .texts (bs.map fun b => (c.block b).name)

def targetName (c : Context) (v : Option Value) : Datum :=
  .text (((v.bind Value.block?).map fun b => (c.block b).name).getD "")

def describePairs (c : Context) (ps : List (Option Value × Option Value)) : Datum :=
  .list (ps.map fun (v, b) => .list [c.display? v, c.targetName b])

def describeOperation (c : Context) (i : Instruction) : List (String × Datum) :=
  match i.op with
  | .switch => [("cases", c.describePairs i.cases), ("default", c.targetName (i.operand 1))]
  | .phi => [("incoming", c.describePairs i.incoming)]
  | .icmp p => [("pred", .text (Predicate.name (.int p)))]
  | .fcmp p => [("pred", .text (Predicate.name (.float p)))]
  | .gep t inBounds => [("source", .text t.text), ("inbounds", .flag inBounds)]
  | .alloca t => [("allocated", .text t.text)]
  | _ => []

def describePlace (c : Context) (i : Instruction) : List (String × Datum) :=
  match i.parent with
  | some b =>
    [("parent", .text (c.block b).name), ("func", .text (c.func (c.block b).parent).name)]
  | none => []

def describeInst (c : Context) (id : InstId) : List (String × Datum) :=
  let i := c.inst id
  let operands := i.operands.toList.zipIdx.map fun (v, n) =>
    Datum.list [.text (c.operandText v), .number n]
  let direct : Bool :=
    match i.callee with
    | some (.func _) => true
    | _ => false
  [("opcode", .text i.op.opcode.name), ("operands", .list operands),
    ("is_terminator", .flag i.isTerminator),
    ("successors", c.blockNames ((c.instSuccessors id).getD [])),
    ("condition", c.display? i.condition), ("callee", c.display? i.callee),
    ("direct", .flag direct), ("args", .list (i.callArgs.map c.display?))]
    ++ c.describePlace i ++ c.describeOperation i

def describeArg (c : Context) (a : Argument) : List (String × Datum) :=
  [("index", .number ((a.index.map Int.ofNat).getD (-1))),
    ("parent", .text (c.func a.parent).name), ("placeholder", .flag a.index.isNone)]

def describeBlock (c : Context) (b : BlockId) : List (String × Datum) :=
  let x := c.block b
  [("parent", .text (c.func x.parent).name), ("linked", .flag x.linked),
    ("len", .number x.insts.size), ("empty", .flag x.insts.isEmpty),
    ("phis", .number (c.phis b).length),
    ("successors", c.blockNames ((c.blockSuccessors b).getD [])),
    ("last", .flag (c.lastInst b).isSome), ("terminator", .flag (c.terminator b).isSome)]

def describeFunc (c : Context) (f : FuncId) : List (String × Datum) :=
  let x := c.func f
  [("linked", .flag x.linked), ("finalized", .flag x.signature.isSome),
    ("declaration", .flag (c.isDeclaration f)),
    ("variadic", .flag ((x.signature.map Ty.variadic).getD false)),
    ("args", .number x.args.size), ("blocks", c.blockNames x.blocks.toList),
    ("entry", .flag (c.entry f).isSome), ("ret", .text x.ret.text),
    ("module", .text (c.module x.parent).name)]

def describeGlobal (c : Context) (g : Global) : List (String × Datum) :=
  [("allocated", .text g.allocated.text), ("init", c.display? g.init),
    ("module", .text (c.module g.parent).name)]

def describe (c : Context) : Option Value → Datum
  | none => .nothing
  | some v =>
    let users := c.users v
    .record
      ([("kind", .text v.kind.name), ("name", .text (c.nameOf v)),
        ("type", .text (((c.typeOf v).map Ty.text).getD "")), ("text", .text (c.display v)),
        ("users", .list (users.map fun u => .list [.text (c.instText u.user), .number u.index])),
        ("nusers", .number users.length), ("used", .flag !users.isEmpty)]
      ++ match v with
        | .const _ => []
        | .arg a => c.describeArg (c.arg a)
        | .inst i => c.describeInst i
        | .block b => c.describeBlock b
        | .func f => c.describeFunc f
        | .global g => c.describeGlobal (c.global g))

end Context

end SsaIr
