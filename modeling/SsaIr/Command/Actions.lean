import SsaIr.Command.FlowDump
import SsaIr.Command.Table
import SsaIr.Command.Tool
import SsaIr.Machine.Host

/-!
# The commands

Formatting, verifying, promoting, running, counting and listing modules. Each command takes its
arguments without flags, and what its flags say as parameters.
-/

namespace SsaIr

namespace Tool

variable {m : Type → Type} [Monad m] [FileAccess m]

/-! ## Formatting and promoting -/

def formatFiles (inPlace : Bool) : List String → Tool m Unit
  | [] => return ()
  | path :: rest => do
    let (c, id) ← loadModule path
    let text := c.moduleText id
    if inPlace then save path text else say text
    formatFiles inPlace rest

/-- Promote the cells of a module, and print it or write it back to its file. -/
def promoteFile (inPlace : Bool) (path : String) : Tool m Unit := do
  let (c, id) ← loadVerified path
  let c ← promoteModule c id
  let text := c.moduleText id
  if inPlace then save path text else say text

/-! ## Verifying -/

structure Verdict where
  path : String
  report : String := ""
  failure : Option FileFailure := none
deriving Repr, Inhabited

/-- Verify a file. Only a file that is missing or may not be read stops the command. -/
def verifyFile (path : String) : Tool m Verdict := do
  match ← (FileAccess.load path : m _) with
  | .error e =>
    if e.reason = .missing || e.reason = .denied then throw (.file e)
    return { path, failure := some (.file e) }
  | .ok source =>
    match parseModule path source .new with
    | (.error e, _) => return { path, failure := some (.parse e) }
    | (.ok id, c) =>
      match verifyModule c id with
      | (.ok _, _) => return { path }
      | (.error (.violation v), c) =>
        return { path, report := v.report c, failure := some (.violation path v) }
      | (.error .malformed, _) => throw (.breakdown .crash)

def sayVerdict (v : Verdict) : Tool m Unit := do
  if v.failure.isNone then say s!"ok   {v.path}\n"
  else
    say s!"FAIL {v.path}\n"
    complain v.report

/-- Verify files, and show the verdicts in order once all files have been looked at. -/
def verifyFiles (paths : List String) : Tool m Unit := do
  let verdicts ← paths.mapM verifyFile
  verdicts.forM sayVerdict
  let failures := verdicts.filterMap (·.failure)
  unless failures.isEmpty do throw (.failures failures)

/-! ## Running -/

def readArgument (position : Nat) (t : Ty) (s : String) : Except CommandError RuntimeValue :=
  match RuntimeKind.ofType t with
  | .int .w1 =>
    match readBool? s with
    | some b => .ok (.ofBool b)
    | none => .error (.argument position .flag s false)
  | .int w =>
    match readInt s with
    | .value v => .ok (.ofInt w v)
    | .outOfRange => .error (.argument position .integer s true)
    | .malformed => .error (.argument position .integer s false)
  | .float w =>
    match readFloat s with
    | .value bits => .ok (.ofFloat w bits)
    | .overflow _ => .error (.argument position .float s true)
    | .malformed => .error (.argument position .float s false)
  | _ => .error (.argumentType position t)

def readArgumentsFrom (position : Nat) :
    List (Ty × String) → Except CommandError (List RuntimeValue)
  | [] => .ok []
  | (t, s) :: rest => do
    let v ← readArgument position t s
    return v :: (← readArgumentsFrom (position + 1) rest)

def paramsOf (f : Function) : List Ty :=
  match f.signature with
  | some (.function _ params _) => params
  | _ => []

def readArguments (f : Function) (args : List String) : Except CommandError (List RuntimeValue) :=
  let params := paramsOf f
  if args.length ≠ params.length then .error (.argumentCount f.name params.length args.length)
  else readArgumentsFrom 0 (params.zip args)

def stepLimit : Nat := 1000000000000000000

/-- Run a function of a module on arguments. What it writes is shown even if it fails. -/
def runFunction (s : Settings) (promote : Bool) (path name : String) (args : List String) :
    Tool m Unit := do
  let (c, id) ← loadVerified path
  let some f := c.functionNamed id name | throw (.noFunction name path)
  let c ← if promote then promoteModule c id else pure c
  let values ← readArguments (c.func f) args
  match DataLayout.new s.layout with
  | .error e => throw (.layout e)
  | .ok layout =>
    let env : Environment :=
      { context := c, layout, stackLimit := s.stackLimit, maxDepth := s.maxDepth }
    let start : Interpreter Unit := { hosts := HostFunction.builtin?, state := () }
    let (outcome, i) := start.run env stepLimit f values
    say i.takeOutput.1
    match outcome with
    | .value v => if (c.func f).ret ≠ .void then say (v.text ++ "\n")
    | .failure e => throw (.failure e)
    | .breakdown b => throw (.breakdown b)
    | .unfinished => throw .unfinished

/-! ## Counting -/

structure FunctionSize where
  blocks : Nat := 0
  instructions : Nat := 0
  phis : Nat := 0
  allocas : Nat := 0
  calls : Nat := 0
deriving DecidableEq, Repr, Inhabited

namespace FunctionSize

def add (a b : FunctionSize) : FunctionSize where
  blocks := a.blocks + b.blocks
  instructions := a.instructions + b.instructions
  phis := a.phis + b.phis
  allocas := a.allocas + b.allocas
  calls := a.calls + b.calls

def cells (s : FunctionSize) : List String :=
  [s.blocks, s.instructions, s.phis, s.allocas, s.calls].map toString

def of (c : Context) (f : FuncId) : FunctionSize :=
  let blocks := (c.func f).blocks.toList
  let ops := blocks.flatMap fun b => (c.block b).insts.toList.map fun i => (c.inst i).op.opcode
  { blocks := blocks.length
    instructions := ops.length
    phis := ops.count .phi
    allocas := ops.count .alloca
    calls := ops.count .call }

end FunctionSize

/-- The sizes of the functions with bodies, by the names of module and function. -/
def sizes (c : Context) (id : ModuleId) : List (String × String × FunctionSize) :=
  let bodies := (c.module id).functions.toList.filter fun f => !c.isDeclaration f
  bodies.map fun f => ((c.module id).name, (c.func f).name, .of c f)

def sizeTable (sizes : List (String × String × FunctionSize)) : TextTable where
  header := ["MODULE", "FUNCTION", "BLOCKS", "INSTRUCTIONS", "PHIS", "ALLOCAS", "CALLS"]
  rows := sizes.map fun (module, function, size) => module :: function :: size.cells
  footer :=
    "" :: "TOTAL" :: (sizes.foldl (fun total s => total.add s.2.2) ({} : FunctionSize)).cells

def countFiles (paths : List String) : Tool m Unit := do
  let modules ← paths.mapM loadModule
  say (sizeTable (modules.flatMap fun (c, id) => sizes c id)).text

/-! ## Listing control flow -/

def listings (c : Context) : List FuncId → Tool m Unit
  | [] => return ()
  | f :: rest => do
    match FlowAnalysis.ofFunction c f with
    | .error .malformed => throw (.breakdown .crash)
    | .error e => throw (.flow e)
    | .ok a =>
      say (s!"@{(c.func f).name}:\n" ++ a.listing c)
      listings c rest

/-- List the control flow of a function, or of all functions with bodies if no name is given. -/
def listFlow (path only : String) : Tool m Unit := do
  let (c, id) ← loadVerified path
  if only ≠ "" && (c.functionNamed id only).isNone then throw (.noListing only)
  listings c ((c.module id).functions.toList.filter fun f =>
    !c.isDeclaration f && (only = "" || (c.func f).name = only))

end Tool

end SsaIr
