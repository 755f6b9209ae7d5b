import SsaIr.Command.Files
import SsaIr.Command.Flags
import SsaIr.Config.Settings
import SsaIr.Machine.Run
import SsaIr.Parse.Module
import SsaIr.Promote
import SsaIr.Verify.Module

/-!
# Commands in general

What commands have in common: the reasons why they fail, what they show, and how they get at
modules. A command is a computation in `Tool`, over any way of getting at files; what it has shown
stays when it fails. Read `CommandError` and `Tool` first.
-/

namespace SsaIr

inductive ArgumentReader where
  | flag
  | integer
  | float
deriving DecidableEq, Repr, Inhabited

def ArgumentReader.name : ArgumentReader → String
  | flag => "strconv.ParseBool"
  | integer => "strconv.ParseInt"
  | float => "strconv.ParseFloat"

inductive FileFailure where
  | file (e : FileError)
  | parse (e : ParseError)
  | violation (path : String) (v : Violation)
deriving Repr, Inhabited

def FileFailure.message : FileFailure → String
  | file e => e.message
  | parse e => e.text
  | violation path v => s!"{path}: {v.text}"

inductive CommandError where
  | flags (e : FlagError)
  | noTopic (name : String)
  | file (e : FileError)
  | settings (path : String) (p : Settings.Problem)
  | limits (stackLimit maxDepth : Int64)
  | arguments (command usage : String)
  | parse (e : ParseError)
  | violation (v : Violation)
  | failures (fs : List FileFailure)
  | promotion (e : PromoteError)
  | violationAfterPromotion (v : Violation)
  | noFunction (name path : String)
  | noListing (name : String)
  | argumentCount (func : String) (wanted got : Nat)
  | argument (position : Nat) (reader : ArgumentReader) (value : String) (outOfRange : Bool)
  | argumentType (position : Nat) (t : Ty)
  | layout (e : LayoutSpecError)
  | flow (e : FlowError)
  | failure (e : Failure)
  | breakdown (b : Breakdown)
  | unfinished
deriving Repr, Inhabited

namespace CommandError

def message : CommandError → String
  | flags e => e.message
  | noTopic name => s!"No help topic for '{name}'"
  | file e => e.message
  | settings path p => s!"{path}, {p.message}"
  | limits stackLimit maxDepth =>
    s!"invalid interpreter limits: stack {stackLimit.toInt} bytes, depth {maxDepth.toInt}"
  | arguments command usage => s!"{command}: missing arguments, usage: {command} {usage}"
  | parse e => e.text
  | violation v => v.text
  | failures fs => "; ".intercalate (fs.map FileFailure.message)
  | promotion e => e.message
  | violationAfterPromotion v => s!"after mem2reg: {v.text}"
  | noFunction name path => s!"run: no function @{name} in {path}"
  | noListing name => s!"dump-cfg: no function @{name}"
  | argumentCount func wanted got => s!"run: @{func} takes {wanted} arguments, got {got}"
  | argument position reader value outOfRange =>
    let reason := if outOfRange then "value out of range" else "invalid syntax"
    s!"run: argument {position}: {reader.name}: parsing {Text.escape value}: {reason}"
  | argumentType position t =>
    s!"run: argument {position} has type {t.text}, which cannot be given on the command line"
  | layout e => e.message
  | flow e => e.message
  | failure e => e.text
  | breakdown (.abort t) => t
  | breakdown .crash => "crash"
  | unfinished => "unfinished"

/-- The category of several failures: reading errors come before violations. -/
def failuresKind? (fs : List FileFailure) : Option ErrorKind :=
  (fs.findSome? fun
    | .parse e => some e.kind
    | _ => none).or
  (fs.findSome? fun
    | .violation _ v => some v.kind
    | _ => none)

def kindName : CommandError → String
  | parse e => e.kind.name
  | violation v => v.kind.name
  | violationAfterPromotion v => v.kind.name
  | failures fs => ((failuresKind? fs).map ErrorKind.name).getD "other"
  | promotion (.contract e) => e.kind.name
  | failure (.fault f) => f.cause.fault.name
  | _ => "other"

end CommandError

structure Transcript where
  out : String := ""
  err : String := ""
  help : Bool := false
deriving DecidableEq, Repr, Inhabited

abbrev Tool (m : Type → Type) := ExceptT CommandError (StateT Transcript m)

namespace Tool

variable {m : Type → Type} [Monad m] [FileAccess m]

def say (s : String) : Tool m Unit := modify fun t => { t with out := t.out ++ s }

def complain (s : String) : Tool m Unit := modify fun t => { t with err := t.err ++ s }

def showHelp : Tool m Unit := modify fun t => { t with help := true }

def load (path : String) : Tool m String := do
  match ← (FileAccess.load path : m _) with
  | .ok content => return content
  | .error e => throw (.file e)

def save (path content : String) : Tool m Unit := do
  match ← (FileAccess.save path content : m _) with
  | .ok _ => return ()
  | .error e => throw (.file e)

def need (command usage : String) (n : Nat) (args : List String) : Tool m Unit := do
  if args.length < n then throw (.arguments command usage)

def loadModule (path : String) : Tool m (Context × ModuleId) := do
  let source ← load path
  match parseModule path source .new with
  | (.ok id, c) => return (c, id)
  | (.error e, _) => throw (.parse e)

def loadVerified (path : String) : Tool m (Context × ModuleId) := do
  let (c, id) ← loadModule path
  match verifyModule c id with
  | (.ok _, c) => return (c, id)
  | (.error (.violation v), c) =>
    complain (v.report c)
    throw (.violation v)
  | (.error .malformed, _) => throw (.breakdown .crash)

def promoteAll (c : Context) : List FuncId → Except CommandError Context
  | [] => .ok c
  | f :: rest =>
    match promoteFunction c f with
    | (.ok _, c) => promoteAll c rest
    | (.error .malformed, _) => .error (.breakdown .crash)
    | (.error e, _) => .error (.promotion e)

/-- Promote the cells of all functions of a module, which has to pass verification again. -/
def promoteModule (c : Context) (id : ModuleId) : Except CommandError Context := do
  let c ← promoteAll c (c.module id).functions.toList
  match verifyModule c id with
  | (.ok _, c) => .ok c
  | (.error (.violation v), _) => .error (.violationAfterPromotion v)
  | (.error .malformed, _) => .error (.breakdown .crash)

def runIn {α : Type} (files : FileTree) (t : Tool (StateM FileTree) α) :
    (Except CommandError α × Transcript) × FileTree :=
  (t.run.run {}).run files

end Tool

end SsaIr
