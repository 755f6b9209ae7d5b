import SsaIr.Graph.Typing
import SsaIr.Graph.Uses

/-!
# Building instructions

A `Builder` appends instructions to a block. Each of its operations checks the typing rule of the
instruction and then places it: phis after the phis already there, all others at the end. Results
other than void are named by the hint, or numbered when it is empty.
-/

namespace SsaIr

/-- Where the next instruction goes, and the next number for an unnamed result. -/
structure Builder where
  block : Option BlockId := none
  next : Nat := 0
deriving DecidableEq, Repr, Inhabited

/-- A context and the builder that works on it. -/
structure Bench where
  context : Context
  builder : Builder := {}
deriving Inhabited

/-- Work of a builder. A refusal keeps the state reached, the builder's included. -/
abbrev Building := EStateM ContractError Bench

namespace Building

/-- A computation on the context, which leaves the builder alone. -/
def ofBuild {α : Type} (x : Build α) : Building α := fun ⟨c, builder⟩ =>
  match x c with
  | .ok a c => .ok a ⟨c, builder⟩
  | .error e c => .error e ⟨c, builder⟩

instance : MonadLift Build Building := ⟨ofBuild⟩

/-- Work done with a builder that is given up afterwards. -/
def withBuilder {α : Type} (x : Building α) (builder : Builder) : Build α := fun c =>
  match x ⟨c, builder⟩ with
  | .ok a s => .ok a s.context
  | .error e s => .error e s.context

end Building

/-- Put a new instruction into a block. -/
def Build.place (block : BlockId) (op : Operation) (name : String) (type : Ty)
    (operands : List (Option Value)) : Build InstId := do
  let c ← get
  let id : InstId := ⟨c.insts.size⟩
  let position := if op.isPhi then (c.phis block).length else (c.block block).insts.size
  modify fun c =>
    { c with
      insts := c.insts.push { op, name, type, parent := some block }
      instCount := c.instCount + 1 }
  modify fun c => c.addOperands id operands
  modify fun c => c.modifyBlock block fun x =>
    { x with insts := x.insts.insertIdxIfInBounds position id }
  return id

namespace Builder

def insertAt (b : Builder) (block : Option BlockId) : Builder := { b with block }

def resultName (b : Builder) (type : Ty) (hint : String) : String :=
  if type.isVoid then "" else if hint = "" then toString b.next else hint

/-- The builder once a result got its name. -/
def counted (b : Builder) (type : Ty) (hint : String) : Builder :=
  if type.isVoid then b else if hint = "" then { b with next := b.next + 1 } else b

def function : Building FuncId := do
  let s ← get
  match s.builder.block with
  | none => throw .noInsertionPoint
  | some id => return (s.context.block id).parent

def operandType (v : Option Value) (what : String) : Building Ty := do
  match (← get).context.typeOf? v with
  | some t => return t
  | none => throw (.missingOperand what)

def ensure (r : Except ContractError Unit) : Building Unit :=
  match r with
  | .ok _ => pure ()
  | .error e => throw e

def emit (op : Operation) (type : Ty) (hint : String) (operands : List (Option Value)) :
    Building InstId := do
  let b := (← get).builder
  match b.block with
  | none => throw .noInsertionPoint
  | some block =>
    modify fun s => { s with builder := b.counted type hint }
    Build.place block op (b.resultName type hint) type operands

def ret (v : Option Value) : Building InstId := do
  let f ← function
  let t ← operandType v "ret"
  let c := (← get).context
  let x := c.func f
  Build.require (t = x.ret) (.retType (c.operandText v) x.name x.ret)
  emit .ret .void "" [v]

def retVoid : Building InstId := do
  let f ← function
  let x := (← get).context.func f
  Build.require x.ret.isVoid (.retVoid x.name x.ret)
  emit .ret .void "" []

def br (dest : Option BlockId) : Building InstId :=
  match dest with
  | none => throw .brDestination
  | some d => emit .br .void "" [some (.block d)]

def condBr (cond : Option Value) (yes no : Option BlockId) : Building InstId := do
  let t ← operandType cond "br"
  let c := (← get).context
  Build.require (t = .i1) (.brCondition (c.operandText cond))
  match yes, no with
  | some y, some n => emit .condBr .void "" [cond, some (.block y), some (.block n)]
  | _, _ => throw .brDestination

def switch (cond : Option Value) (default : Option BlockId) : Building InstId := do
  let t ← operandType cond "switch"
  let c := (← get).context
  Build.require t.isInteger (.switchCondition (c.operandText cond))
  match default with
  | none => throw .switchDefault
  | some d => emit .switch .void "" [cond, some (.block d)]

def binary (op : Opcode) (lhs rhs : Option Value) (name : String) : Building InstId := do
  Build.require op.isBinary (.notBinary op)
  let t ← operandType lhs op.name
  let u ← operandType rhs op.name
  let c := (← get).context
  Build.require (u = t) (.operandsDiffer op (c.operandText lhs) (c.operandText rhs))
  match op with
  | .int i =>
    Build.require t.isInteger (.needsIntegers op t)
    emit (.int i) t name [lhs, rhs]
  | .float f =>
    Build.require t.isFloat (.needsFloats op t)
    emit (.float f) t name [lhs, rhs]
  | _ => throw (.notBinary op)

def icmp (p : Predicate) (lhs rhs : Option Value) (name : String) : Building InstId := do
  match p with
  | .int p =>
    let t ← operandType lhs "icmp"
    let u ← operandType rhs "icmp"
    let c := (← get).context
    Build.require (u = t) (.operandsDiffer .icmp (c.operandText lhs) (c.operandText rhs))
    Build.require (t.isInteger || t.isPointer) (.icmpOperands t)
    emit (.icmp p) .i1 name [lhs, rhs]
  | _ => throw (.icmpPredicate p)

def fcmp (p : Predicate) (lhs rhs : Option Value) (name : String) : Building InstId := do
  match p with
  | .float p =>
    let t ← operandType lhs "fcmp"
    let u ← operandType rhs "fcmp"
    let c := (← get).context
    Build.require (u = t && t.isFloat)
      (.fcmpOperands (c.operandText lhs) (c.operandText rhs))
    emit (.fcmp p) .i1 name [lhs, rhs]
  | _ => throw (.fcmpPredicate p)

def alloca (t : Option Ty) (name : String) : Building InstId := do
  match t with
  | none => throw (.unsizedAlloca none)
  | some u =>
    Build.require u.isSized (.unsizedAlloca t)
    let p ← Build.pointerTo t
    emit (.alloca u) p name []

def load (ptr : Option Value) (name : String) : Building InstId := do
  let t ← operandType ptr "load"
  let c := (← get).context
  match t.pointee? with
  | none => throw (.loadSource (c.operandText ptr))
  | some u =>
    Build.require u.isSized (.loadSource (c.operandText ptr))
    emit .load u name [ptr]

def store (v ptr : Option Value) : Building InstId := do
  let t ← operandType v "store"
  let u ← operandType ptr "store"
  let c := (← get).context
  match u.pointee? with
  | none => throw (.storeTarget (c.operandText ptr))
  | some p =>
    Build.require (p = t) (.storeType (c.operandText v) (c.operandText ptr))
    emit .store .void "" [v, ptr]

def gep (source : Option Ty) (base : Option Value) (inBounds : Bool)
    (indices : List (Option Value)) (name : String) : Building InstId := do
  let t ← operandType base "gep"
  match source with
  | none => throw (.gepUnsized none)
  | some s =>
    Build.require s.isSized (.gepUnsized source)
    let p ← Build.pointerTo source
    let c := (← get).context
    Build.require (t = p) (.gepBase (c.operandText base) s)
    match c.elementType source indices with
    | .error e => throw e
    | .ok elem =>
      let q ← Build.pointerTo elem
      emit (.gep s inBounds) q name (base :: indices)

def cast (op : Opcode) (v : Option Value) (target : Option Ty) (name : String) :
    Building InstId := do
  let t ← operandType v op.name
  match target with
  | none => throw (.castTarget op)
  | some u =>
    ensure (checkCast op (some t) target)
    match op with
    | .cast k => emit (.cast k) u name [v]
    | _ => throw (.notCast op)

def phi (t : Option Ty) (name : String) : Building InstId := do
  match t with
  | none => throw (.unsizedPhi none)
  | some u =>
    Build.require u.isSized (.unsizedPhi t)
    emit .phi u name []

def call (callee : Option Value) (args : List (Option Value)) (name : String) :
    Building InstId := do
  let t ← operandType callee "call"
  let c := (← get).context
  match t with
  | .pointer (.function r ps v) =>
    ensure (c.checkCall (.function r ps v) args)
    emit .call r name (callee :: args)
  | _ => throw (.calleeType (c.operandText callee))

end Builder

end SsaIr
