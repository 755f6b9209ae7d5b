import SsaIr.Graph.Typing
import SsaIr.Verify.Violation

/-!
# Checks on single instructions

Every operand must be a value of the same function or module, and have the type that the operation
asks for. Values must be defined before they are used: on every path, as dominance tells.

A check reads the program and records the pointer types it asks the context for; it stops at the
first violation.
-/

namespace SsaIr

/-- Why a check stopped: a violation, or a terminator whose operands are no blocks. -/
inductive VerifyError where
  | violation (v : Violation)
  | malformed
deriving Repr, Inhabited

abbrev Verify := EStateM VerifyError (List Ty)

/-- What a check looks at: the program, the function, its flow and the block. -/
structure Site where
  context : Context
  func : FuncId
  analysis : FlowAnalysis
  block : BlockId

namespace Verify

@[inline]
def require (condition : Bool) (violation : Violation) : Verify Unit :=
  if condition then pure () else throw (.violation violation)

def ask (t : Ty) : Verify Unit := modify (t :: ·)

end Verify

namespace Site

open Verify

def found (s : Site) (i : InstId) (cause : ViolationCause) : Violation where
  cause
  func := (s.context.func s.func).name
  block := (s.context.block s.block).name
  object := some (.inst i)

@[inline]
def check (s : Site) (i : InstId) (condition : Bool) (cause : ViolationCause) : Verify Unit :=
  require condition (s.found i cause)

def typeAt (s : Site) (x : Instruction) (n : Nat) : Option Ty := s.context.typeOf? (x.operand n)

def operand (s : Site) (i : InstId) (v : Option Value) : Verify Unit := do
  let c := s.context
  check s i (c.typeOf? v).isSome .missingOperand
  let m := (c.func s.func).parent
  match v with
  | some (.arg a) => do
    let x := c.arg a
    check s i x.index.isSome (.unresolvedValue x.name)
    check s i (x.parent = s.func) (.foreignArgument x.name)
  | some (.inst d) =>
    let x := c.inst d
    let here : Bool :=
      match x.parent with
      | some b => (c.block b).parent = s.func && (c.block b).linked
      | none => false
    check s i here (.foreignInstruction x.name)
  | some (.block b) =>
    let x := c.block b
    check s i (x.parent = s.func && x.linked) (.foreignBlock x.name)
  | some (.func f) =>
    let x := c.func f
    check s i (x.parent = m && x.linked) (.foreignFunction x.name)
  | some (.global g) =>
    let x := c.global g
    check s i (x.parent = m) (.foreignGlobalUse x.name)
  | _ => pure ()

def operands (s : Site) (i : InstId) : List (Option Value) → Verify Unit
  | [] => pure ()
  | v :: rest => do
    operand s i v
    operands s i rest

/-- An instruction operand is defined before the instruction at the given position. -/
def defined (s : Site) (i : InstId) (position : Nat) (d : InstId) : Verify Unit :=
  let c := s.context
  let x := c.inst d
  if x.parent = some s.block then
    check s i (((c.block s.block).insts.idxOf? d).getD 0 < position) (.usedEarly x.name)
  else
    match x.parent with
    | none => pure ()
    | some b =>
      check s i (s.analysis.dominatesBlock b s.block)
        (.undominatedUse x.name (c.block b).name (c.block s.block).name)

/-- All instruction operands are defined before the instruction at the given position. -/
def definitions (s : Site) (i : InstId) (position : Nat) : List (Option Value) → Verify Unit
  | [] => pure ()
  | some (.inst d) :: rest => do
    defined s i position d
    definitions s i position rest
  | _ :: rest => definitions s i position rest

/-- Operands of what is not a phi are defined before it, if it can be reached. -/
def dominance (s : Site) (i : InstId) (position : Nat) : Verify Unit :=
  if s.analysis.reachable (some s.block) then
    definitions s i position (s.context.inst i).operands.toList
  else pure ()

def label (s : Site) (i : InstId) (v : Option Value) : Verify Unit :=
  check s i (v.bind Value.block?).isSome (.notLabel (s.context.operandText v))

def ret (s : Site) (i : InstId) (x : Instruction) : Verify Unit := do
  let want := (s.context.func s.func).ret
  if want.isVoid then check s i x.operands.isEmpty .returnedValue
  else
    check s i (x.operands.size = 1) (.missingValue want)
    check s i (s.typeAt x 0 = some want) (.returnedType (s.typeAt x 0) want)

/-- The cases of a switch are distinct constants of the type of the condition. -/
def switchCases (s : Site) (i : InstId) (t : Option Ty) (seen : List Int64) :
    List (Option Value × Option Value) → Verify Unit
  | [] => pure ()
  | (k, dest) :: rest => do
    let cause := ViolationCause.switchCase (s.context.operandText k) t
    match k with
    | some (.const (.int w v)) =>
      check s i (some (Ty.int w) = t) cause
      label s i dest
      check s i (!seen.contains v) (.duplicateCase (Const.int w v).literal)
      switchCases s i t (v :: seen) rest
    | _ => check s i false cause

def switch (s : Site) (i : InstId) (x : Instruction) : Verify Unit := do
  check s i (2 ≤ x.operands.size && x.operands.size % 2 = 0) .switchOperands
  let t := s.typeAt x 0
  check s i ((t.map Ty.isInteger).getD false) (.switchCondition t)
  label s i (x.operand 1)
  switchCases s i t [] x.cases

def binary (s : Site) (i : InstId) (x : Instruction) (sort : Ty → Bool) (cause : ViolationCause) :
    Verify Unit := do
  check s i (x.operands.size = 2) (.operandCount x.op.opcode)
  let t := s.typeAt x 0
  check s i (s.typeAt x 1 = t) .operandTypes
  check s i ((t.map sort).getD false) cause
  check s i (some x.type = t) (.resultType t)

/-- A comparison takes one type of the right sort and gives a truth value. -/
def compare (s : Site) (i : InstId) (x : Instruction) (sort : Ty → Bool) (cause : ViolationCause) :
    Verify Unit := do
  check s i (x.operands.size = 2) .comparisonOperands
  let t := s.typeAt x 0
  check s i (s.typeAt x 1 = t) .operandTypes
  check s i ((t.map sort).getD false) cause
  check s i (x.type = .i1) .comparisonResult

/-- An allocation gives a pointer to a sized type and stands in the entry block. -/
def alloca (s : Site) (i : InstId) (x : Instruction) (t : Ty) : Verify Unit := do
  check s i x.operands.isEmpty .allocaOperands
  check s i t.isSized (.allocaType t)
  ask (.pointer t)
  check s i (x.type = .pointer t) (.allocaResult (.pointer t))
  check s i (x.parent = s.context.entry s.func) .allocaPlace

def load (s : Site) (i : InstId) (x : Instruction) : Verify Unit := do
  check s i (x.operands.size = 1) .loadOperands
  let t := s.typeAt x 0
  let pointee := t.bind Ty.pointee?
  check s i ((pointee.map Ty.isSized).getD false) (.loadPointer t)
  check s i (some x.type = pointee) (.loadResult pointee)

def store (s : Site) (i : InstId) (x : Instruction) : Verify Unit := do
  check s i (x.operands.size = 2) .storeOperands
  let t := s.typeAt x 1
  let pointee := t.bind Ty.pointee?
  check s i pointee.isSome (.storePointer t)
  check s i (s.typeAt x 0 = pointee) (.storeValue pointee)
  check s i x.type.isVoid .storeResult

def lift {α : Type} (s : Site) (i : InstId) (r : Except ContractError α) : Verify α :=
  match r with
  | .ok a => pure a
  | .error e => throw (.violation (s.found i (.contract e)))

/-- An address computation starts at a pointer to its source type and gives a pointer to the
selected element. -/
def gep (s : Site) (i : InstId) (x : Instruction) (source : Ty) : Verify Unit := do
  check s i (2 ≤ x.operands.size) .gepOperands
  check s i source.isSized (.gepSource source)
  ask (.pointer source)
  check s i (s.typeAt x 0 = some (.pointer source)) (.gepBase source)
  let elem ← lift s i (s.context.elementType (some source) (x.operands.toList.drop 1))
  let want := Ty.pointer (elem.getD source)
  ask want
  check s i (x.type = want) (.gepResult want)

def cast (s : Site) (i : InstId) (x : Instruction) : Verify Unit := do
  check s i (x.operands.size = 1) (.castOperands x.op.opcode)
  lift s i (checkCast x.op.opcode (s.typeAt x 0) (some x.type))

/-- An instruction is available at the end of an incoming block, if that can be reached. -/
def available (s : Site) (i : InstId) (v : Option Value) (b : BlockId) : Verify Unit :=
  match v with
  | some (.inst d) =>
    let c := s.context
    match (c.inst d).parent with
    | none => pure ()
    | some home =>
      if s.analysis.reachable (some b) then
        check s i (s.analysis.dominatesBlock home b)
          (.undominatedIncoming (c.inst d).name (c.block home).name (c.block b).name)
      else pure ()
  | _ => pure ()

/-- The incoming pairs of a phi, the first of which has the given number: values of its type that
are available, from distinct blocks. Gives the blocks. -/
def incoming (s : Site) (i : InstId) (t : Ty) (n : Nat) (seen : List BlockId) :
    List (Option Value × Option Value) → Verify (List BlockId)
  | [] => pure seen
  | (v, b) :: rest => do
    check s i (s.context.typeOf? v = some t) (.incomingType (s.context.operandText v) t)
    match b.bind Value.block? with
    | none => throw (.violation (s.found i (.incomingLabel n)))
    | some b =>
      check s i (!seen.contains b) (.duplicateIncoming (s.context.block b).name)
      available s i v b
      incoming s i t (n + 1) (b :: seen) rest

def names (s : Site) (blocks : List BlockId) : List String :=
  (blocks.map fun b => (s.context.block b).name).mergeSort fun a b => decide (a ≤ b)

/-- A phi has a value for every predecessor of its block and for no other block. -/
def phi (s : Site) (i : InstId) (x : Instruction) : Verify Unit := do
  check s i (x.operands.size % 2 = 0) .phiOperands
  check s i (!x.incoming.isEmpty) .emptyPhi
  let given ← incoming s i x.type 0 [] x.incoming
  let preds := s.analysis.predecessors (some s.block)
  let missing := preds.filter fun b => !given.contains b
  check s i missing.isEmpty (.missingIncoming (s.names missing))
  let extra := given.filter fun b => !preds.contains b
  check s i extra.isEmpty (.extraIncoming (s.names extra))

def call (s : Site) (i : InstId) (x : Instruction) : Verify Unit := do
  check s i (!x.operands.isEmpty) .callOperands
  let t := s.typeAt x 0
  match t with
  | some (.pointer (.function ret params variadic)) =>
    check s i (x.type = ret) (.callResult (some ret))
    lift s i (s.context.checkCall (.function ret params variadic) x.callArgs)
  | _ => check s i false (.calleeType t)

def operation (s : Site) (i : InstId) (x : Instruction) : Verify Unit :=
  match x.op with
  | .ret => ret s i x
  | .br => do
    check s i (x.operands.size = 1) .branchOperands
    label s i (x.operand 0)
  | .condBr => do
    check s i (x.operands.size = 3) .conditionalOperands
    check s i (s.typeAt x 0 = some .i1) .conditionType
    label s i (x.operand 1)
    label s i (x.operand 2)
  | .switch => switch s i x
  | .int op => binary s i x Ty.isInteger (.integerOperands (.int op))
  | .float op => binary s i x Ty.isFloat (.floatOperands (.float op))
  | .icmp _ => compare s i x (fun t => t.isInteger || t.isPointer) .icmpOperands
  | .fcmp _ => compare s i x Ty.isFloat .fcmpOperands
  | .alloca t => alloca s i x t
  | .load => load s i x
  | .store => store s i x
  | .gep source _ => gep s i x source
  | .cast _ => cast s i x
  | .phi => phi s i x
  | .call => call s i x

def instruction (s : Site) (i : InstId) (position : Nat) : Verify Unit := do
  let x := s.context.inst i
  operands s i x.operands.toList
  if !x.isPhi then dominance s i position
  operation s i x

end Site

end SsaIr
