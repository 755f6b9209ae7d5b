import SsaIr.Verify.Instruction

/-!
# Verifying functions and modules

A function is well formed when its arguments fit its signature, every block is non-empty, has its
phis first and one terminator, at its end, the entry block has no predecessors, and every
instruction is well formed. A module is well formed when its globals and functions are. Read
`verifyModule` first: it gives the first violation and the context with the types that were asked
for.
-/

namespace SsaIr

namespace Verify

/-- Check the instructions of a block from a position on; `phis` tells that only phis came
before. -/
def instructions (s : Site) (phis : Bool) (position : Nat) : List InstId → Verify Unit
  | [] => pure ()
  | i :: rest => do
    let x := s.context.inst i
    s.check i (x.parent = some s.block) .instructionLink
    s.check i (phis || !x.isPhi) .latePhi
    s.check i (rest.isEmpty || !x.isTerminator) .innerTerminator
    s.instruction i position
    instructions s (phis && x.isPhi) (position + 1) rest

def block (s : Site) : Verify Unit := do
  let c := s.context
  let x := c.block s.block
  let fail (object : Option Value) (cause : ViolationCause) : Violation :=
    { cause, func := (c.func s.func).name, block := x.name, object }
  let self := some (Value.block s.block)
  require (x.parent = s.func && x.linked) (fail self .blockLink)
  require (!x.insts.isEmpty) (fail self .emptyBlock)
  require (c.terminator s.block).isSome (fail ((c.lastInst s.block).map .inst) .openBlock)
  if c.entry s.func = some s.block then
    require (s.analysis.predecessors (some s.block)).isEmpty (fail self (.entryTargeted x.name))
  instructions s true 0 x.insts.toList

def blocks (c : Context) (f : FuncId) (analysis : FlowAnalysis) : List BlockId → Verify Unit
  | [] => pure ()
  | b :: rest => do
    block { context := c, func := f, analysis, block := b }
    blocks c f analysis rest

/-- Check the arguments of a function against its parameters, from a position on. -/
def arguments (c : Context) (f : FuncId) (declaration : Bool) (n : Nat) :
    List ArgId → List Ty → Verify Unit
  | [], _ => pure ()
  | a :: rest, params => do
    let x := c.arg a
    let fail (cause : ViolationCause) : Violation :=
      { cause, func := (c.func f).name, object := some (.arg a) }
    require (x.parent = f && x.index = some n) (fail (.argumentLink n))
    require (Build.isSized x.type) (fail (.argumentUnsized n x.type))
    require (x.type = params.head?) (fail (.argumentType n x.type params.head?))
    if declaration then require (x.name = "") (fail (.namedParameter n))
    else require (x.name ≠ "") (fail (.unnamedParameter n))
    arguments c f declaration (n + 1) rest params.tail

def function (c : Context) (f : FuncId) : Verify Unit := do
  let x := c.func f
  let fail (cause : ViolationCause) : Violation :=
    { cause, func := x.name, object := some (.func f) }
  match x.signature with
  | none => throw (.violation (fail .openSignature))
  | some sig =>
    require (sig.ret? = some x.ret) (fail .returnType)
    require (sig.params.length = x.args.size) (fail (.argumentCount sig.params.length x.args.size))
    let declaration := x.blocks.isEmpty
    arguments c f declaration 0 x.args.toList sig.params
    if declaration then return
    match FlowAnalysis.ofFunction c f with
    | .error .malformed => throw .malformed
    | .error e => throw (.violation (fail (.flow e)))
    | .ok analysis => blocks c f analysis x.blocks.toList

def global (c : Context) (m : ModuleId) (g : GlobalId) : Verify Unit := do
  let x := c.global g
  let fail (object : Value) (cause : ViolationCause) : Violation :=
    { cause, object := some object }
  require (x.parent = m) (fail (.global g) .foreignGlobal)
  require x.allocated.isSized (fail (.global g) (.unsizedGlobal x.allocated))
  ask (.pointer x.allocated)
  match x.init with
  | none => pure ()
  | some v =>
    match v with
    | .const _ => pure ()
    | .func f =>
      require ((c.func f).parent = m && (c.func f).linked) (fail v (.initializerFunction x.name))
    | .global h => require ((c.global h).parent = m) (fail v (.initializerGlobal x.name))
    | _ => throw (.violation (fail v (.initializerKind x.name)))
    require (c.typeOf v = some x.allocated)
      (fail v (.initializerType x.name (c.typeOf v) x.allocated))

def globals (c : Context) (m : ModuleId) : List GlobalId → Verify Unit
  | [] => pure ()
  | g :: rest => do
    global c m g
    globals c m rest

def functions (c : Context) (m : ModuleId) (previous : String) : List FuncId → Verify Unit
  | [] => pure ()
  | f :: rest => do
    let x := c.func f
    require (x.parent = m && x.linked)
      { cause := .unlinkedFunction (c.module m).name, func := previous, object := some (.func f) }
    function c f
    functions c m x.name rest

def module (c : Context) (m : ModuleId) : Verify Unit := do
  globals c m (c.module m).globals.toList
  functions c m "" (c.module m).functions.toList

/-- The outcome of a check, and the context that knows the types it asked for. -/
def outcome (c : Context) (check : Verify Unit) : Except VerifyError Unit × Context :=
  let know (ts : List Ty) : Context := ts.foldr (fun t c => c.learn t) c
  match check [] with
  | .ok _ ts => (.ok (), know ts)
  | .error e ts => (.error e, know ts)

end Verify

def verifyFunction (c : Context) (f : FuncId) : Except VerifyError Unit × Context :=
  Verify.outcome c (Verify.function c f)

def verifyModule (c : Context) (m : ModuleId) : Except VerifyError Unit × Context :=
  Verify.outcome c (Verify.module c m)

end SsaIr
