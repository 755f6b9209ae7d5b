import SsaIr.Graph.Basic
import SsaIr.Text.Quoted

/-!
# Printing programs

The textual form of values, instructions, functions and modules. A printer yields a list of
fragments, in the order and the portions in which they are written out; the text is their
concatenation. The form is canonical: the reader accepts it and gives the program back.
-/

namespace SsaIr

namespace Context

/-- The name of an operand with its sigil, or the literal of a constant. -/
def operandName (c : Context) : Option Value → String
  | none => "<null_operand>"
  | some (.const k) => k.literal
  | some (.block b) => "$" ++ (c.block b).name
  | some (.func f) => "@" ++ (c.func f).name
  | some (.global g) => "@" ++ (c.global g).name
  | some (.arg a) => "%" ++ (c.arg a).name
  | some (.inst i) => "%" ++ (c.inst i).name

/-- An operand as it stands in an instruction: locals and constants carry their type. -/
def operandText (c : Context) (v : Option Value) : String :=
  match v with
  | some (.const _) | some (.arg _) | some (.inst _) =>
    c.operandName v ++ ": " ++ Ty.optionText (c.typeOf? v)
  | _ => c.operandName v

def operandFragments (c : Context) : List (Option Value) → List String
  | [] => []
  | [v] => [c.operandText v]
  | v :: w :: rest => c.operandText v :: ", " :: c.operandFragments (w :: rest)

/-- The bracketed pairs of a phi or a switch, each after the given separator. -/
def pairFragments (c : Context) (opening : String) :
    List (Option Value × Option Value) → List String
  | [] => []
  | (a, b) :: rest =>
    opening :: (c.operandFragments [a, b] ++ " ]" :: c.pairFragments ", [ " rest)

def argumentFragments (c : Context) (i : Instruction) : List String :=
  let ops := i.operands.toList
  match i.op with
  | .ret => if ops.isEmpty then [" void"] else [" ", c.operandText (i.operand 0)]
  | .switch => " " :: (c.operandFragments (ops.take 2) ++ c.pairFragments ", [ " i.cases)
  | .icmp p => (" " ++ p.name ++ " ") :: c.operandFragments ops
  | .fcmp p => (" " ++ p.name ++ " ") :: c.operandFragments ops
  | .alloca t => [" " ++ t.text]
  | .gep t inBounds =>
    " " :: ((if inBounds then ["inbounds "] else []) ++ (t.text ++ ", ") :: c.operandFragments ops)
  | .phi => c.pairFragments " [ " i.incoming
  | .call =>
    (" " ++ Ty.optionText (c.typeOf? (i.operand 0)) ++ " ") :: c.operandName (i.operand 0) :: "("
      :: (c.operandFragments (ops.drop 1) ++ [")"])
  | _ => if ops.isEmpty then [] else " " :: c.operandFragments ops

def instFragments (c : Context) (id : InstId) : List String :=
  let i := c.inst id
  let result := if i.type.isVoid then [] else ["%" ++ i.name ++ ": " ++ i.type.text ++ " = "]
  result ++ i.op.opcode.mnemonic :: c.argumentFragments i

def blockFragments (c : Context) (id : BlockId) : List String :=
  let b := c.block id
  ("$" ++ b.name ++ ":\n")
    :: b.insts.toList.flatMap fun i => "  " :: (c.instFragments i ++ ["\n"])

def globalFragments (c : Context) (id : GlobalId) : List String :=
  let g := c.global id
  let head := "@" ++ g.name ++ ": " ++ (Ty.pointer g.allocated).text ++ " = global "
    ++ g.allocated.text ++ " "
  match g.init with
  | none => [head, "zeroinitializer"]
  | some v => [head, c.operandText (some v)]

/-- Parameters separated by commas: a declaration shows only their types. -/
def paramFragments (c : Context) (declaration : Bool) : List ArgId → List String
  | [] => []
  | a :: rest =>
    let arg := c.arg a
    let text :=
      if declaration then Ty.optionText arg.type
      else "%" ++ arg.name ++ ": " ++ Ty.optionText arg.type
    if rest.isEmpty then [text] else text :: ", " :: c.paramFragments declaration rest

def functionFragments (c : Context) (id : FuncId) : List String :=
  let f := c.func id
  let declaration := f.blocks.isEmpty
  let variadic := (f.signature.map Ty.variadic).getD false
  let dots := if variadic then (if f.args.isEmpty then ["..."] else [", ", "..."]) else []
  (if declaration then "declare " else "define ") :: (f.ret.text ++ " @" ++ f.name ++ "(")
    :: (c.paramFragments declaration f.args.toList ++ dots ++ ")"
    :: (if declaration then ["\n"]
        else " \x7b\n" :: (f.blocks.toList.flatMap c.blockFragments ++ ["\x7d\n"])))

def instText (c : Context) (i : InstId) : String := String.join (c.instFragments i)

def blockText (c : Context) (b : BlockId) : String := String.join (c.blockFragments b)

def globalText (c : Context) (g : GlobalId) : String := String.join (c.globalFragments g)

def functionText (c : Context) (f : FuncId) : String := String.join (c.functionFragments f)

end Context

namespace Ty

mutual
/-- The named structs that occur in a type, through pointers, arrays, functions and members. -/
def namedWithin : Ty → List Ty
  | void | int _ | float _ | label => []
  | pointer t => t.namedWithin
  | array _ t => t.namedWithin
  | struct ts => namedWithinList ts
  | named n ts => .named n ts :: namedWithinList ts
  | function r ps _ => r.namedWithin ++ namedWithinList ps

def namedWithinList : List Ty → List Ty
  | [] => []
  | t :: ts => t.namedWithin ++ namedWithinList ts
end

end Ty

namespace Context

/-- The types that an instruction mentions: its own, its source type and those of its operands. -/
def instTypes (c : Context) (id : InstId) : List Ty :=
  let i := c.inst id
  i.type :: (i.op.sourceType?.toList ++ i.operands.toList.filterMap c.typeOf?)

def functionTypes (c : Context) (id : FuncId) : List Ty :=
  let f := c.func id
  f.signature.toList
    ++ f.blocks.toList.flatMap fun b => (c.block b).insts.toList.flatMap c.instTypes

/-- The types that a module mentions: the structs it declares and the types of its globals and
functions. -/
def moduleTypes (c : Context) (id : ModuleId) : List Ty :=
  let m := c.module id
  m.structs ++ m.globals.toList.map (fun g => .pointer (c.global g).allocated)
    ++ m.functions.toList.flatMap c.functionTypes

/-- The named structs that a module declares or refers to, in the order in which the context came to
know them. -/
def moduleStructs (c : Context) (id : ModuleId) : List Ty :=
  let names := ((Ty.namedWithinList (c.moduleTypes id).eraseDups).map Ty.structName).eraseDups
  c.namedStructs.filter fun t => names.contains t.structName

def functionListFragments (c : Context) : List FuncId → List String
  | [] => []
  | f :: rest =>
    c.functionFragments f
      ++ (if rest.isEmpty then [] else "\n" :: c.functionListFragments rest)

def moduleFragments (c : Context) (id : ModuleId) : List String :=
  let m := c.module id
  let structs := c.moduleStructs id
  let globals := m.globals.toList
  ("module = " ++ Text.quote m.name ++ "\n\n")
    :: (structs.map (fun t => "%" ++ t.structName ++ " = type " ++ Ty.bodyText t.members ++ "\n")
    ++ (if structs.isEmpty then [] else ["\n"])
    ++ globals.flatMap (fun g => c.globalFragments g ++ ["\n"])
    ++ (if globals.isEmpty then [] else ["\n"])
    ++ c.functionListFragments m.functions.toList)

def moduleText (c : Context) (m : ModuleId) : String := String.join (c.moduleFragments m)

end Context

end SsaIr
