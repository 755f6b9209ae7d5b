import SsaIr.Parse.Instruction

/-!
# Reading modules

A module is a sequence of definitions: a header with its name, named structs, globals, function
declarations and function definitions. `parseModule` reads a source into a context; when it fails
the context does not list the module, but keeps the types and constants that were met.
-/

namespace SsaIr.Parse

def header : Parse Unit := do
  if (← get).headerSeen then fail .duplicateHeader
  modify fun s => { s with headerSeen := true }
  discard (expect (.keyword .module))
  discard (expect .assign)
  let name ← expect .string
  construct (Build.renameModule (← get).module name.literal)

def structDefinition : Parse Unit := do
  let name ← expect .localIdent
  discard (expect .assign)
  discard (expect (.keyword .type))
  let ts ← members
  let m := (← get).module
  constructAt name.pos do
    let t ← Build.namedStruct name.literal (ts.map some)
    Build.declareStruct m (some t)

def checkFree (name : Token) : Parse Unit := do
  let s ← get
  if (s.context.lookup s.module name.literal).isSome then
    failAt name.pos (.symbolRedefined name.literal)

def globalDefinition : Parse Unit := do
  let name ← expect .globalIdent
  discard (expect .colon)
  let ptrPos := (← current).pos
  let ptr ← type
  discard (expect .assign)
  discard (expect (.keyword .global))
  let allocPos := (← current).pos
  let allocated ← type
  if !allocated.isSized then failAt allocPos (.unsizedGlobal name.literal allocated)
  let want ← construct (Build.pointerTo (some allocated))
  if ptr ≠ want then failAt ptrPos (.globalType name.literal ptr want)
  let init ← if ← eat (.keyword .zeroinitializer) then pure none
    else some <$> operand (some allocated)
  checkFree name
  discard (constructAt name.pos
    (Build.newGlobal (← get).module name.literal (some allocated) init))

structure Param where
  name : String
  type : Ty
  pos : Position

/-- Read parameters up to a closing parenthesis or an ellipsis. Parameters of a definition must be
named; those of a declaration may be, but keep only their types. -/
def paramList (named : Bool) : Nat → Bool → Parse (List Param × Bool)
  | 0, _ => fail .unfinished
  | n + 1, first => do
    if ← at? .rparen then return ([], false)
    if !first then comma
    if ← eat .ellipsis then
      if !(← at? .rparen) then fail .earlyEllipsis
      return ([], true)
    let tok ← current
    let name ←
      if ← eat .localIdent then do
        discard (expect .colon)
        pure (if named then tok.literal else "")
      else if named then failAt tok.pos .unnamedParameter
      else pure ""
    let t ← type
    let (rest, variadic) ← paramList named n false
    return ({ name, type := t, pos := tok.pos } :: rest, variadic)

def params (named : Bool) : Parse (List Param × Bool) := do
  discard (expect .lparen)
  let r ← paramList named (← budget) true
  discard (expect .rparen)
  return r

def addParams (f : FuncId) : List Param → Parse Unit
  | [] => pure ()
  | p :: rest => do
    discard (constructAt p.pos (Build.addArgument f (some p.type) p.name))
    addParams f rest

/-- Name the arguments of a function that was used before its declaration. -/
def nameArgs : List (ArgId × Param) → Build Unit
  | [] => pure ()
  | (a, p) :: rest => do
    Build.setName (.arg a) p.name
    nameArgs rest

/-- The function that a declaration or definition introduces: a new one, or the one that was made
when the name was first used, if its signature agrees. -/
def declared (name : Token) (ret : Ty) (ps : List Param) (variadic : Bool) : Parse FuncId := do
  checkFree name
  let s ← get
  match s.forward[name.literal]? with
  | none =>
    let f ← constructAt name.pos (Build.newFunction s.module name.literal (some ret))
    addParams f ps
    construct (Build.finalizeSignature f variadic)
    return f
  | some f =>
    let sig ← constructAt name.pos
      (Build.funcType (some ret) (ps.map fun p => some p.type) variadic)
    let x ← inContext (·.func f)
    if x.signature ≠ some sig then failAt name.pos (.signature name.literal sig x.signature)
    construct (nameArgs (x.args.toList.zip ps))
    construct (Build.linkFunction s.module f)
    return f

def declaration : Parse Unit := do
  discard (expect (.keyword .declare))
  let ret ← type
  let name ← expect .globalIdent
  let (ps, variadic) ← params false
  discard (declared name ret ps variadic)

/-- Read instructions up to the next label, the end of the body or the end of the input. -/
def instructions (f : FuncId) (b : BlockId) : Nat → Parse Unit
  | 0 => fail .unfinished
  | n + 1 => do
    let tok ← current
    if tok.kind = .rbrace || tok.kind = .eof then return
    if tok.kind = .labelIdent && (← peek).kind = .colon then return
    instruction f b
    instructions f b n

def blockDefinition (f : FuncId) : Parse Unit := do
  let tok ← current
  if tok.kind ≠ .labelIdent || (← peek).kind ≠ .colon then fail (.expectedLabel tok)
  discard (expect .labelIdent)
  discard (expect .colon)
  let b ← block f tok.literal
  if ← inContext fun c => (c.block b).linked then failAt tok.pos (.labelRedefined tok.literal)
  construct (Build.appendBlock f b)
  modify fun s => { s with builder := s.builder.insertAt (some b) }
  instructions f b (← budget)

def blocks (f : FuncId) : Nat → Parse Unit
  | 0 => fail .unfinished
  | n + 1 => do
    if ← at? .rbrace then return
    blockDefinition f
    blocks f n

/-- Bind the parameters of a definition to the arguments of its function. -/
def bindParams : List (ArgId × Param) → Parse Unit
  | [] => pure ()
  | (a, p) :: rest => do
    define p.name p.pos (.arg a)
    bindParams rest

/-- Complain about a label or a value of the function that was used but not defined. -/
def checkResolved (f : FuncId) (pos : Position) : Parse Unit := do
  let s ← get
  let c := s.context
  let name := (c.func f).name
  match s.labels.toList.find? fun p => !(c.block p.2).linked with
  | some (l, _) => failAt pos (.undefinedLabel l name)
  | none => pure ()
  let open? (v : Value) : Bool :=
    match v with
    | .arg a => (c.arg a).index.isNone
    | _ => false
  match s.locals.toList.find? fun p => open? p.2 with
  | some (v, _) => failAt pos (.undefinedValue v name)
  | none => pure ()

def definition : Parse Unit := do
  discard (expect (.keyword .define))
  let ret ← type
  let name ← expect .globalIdent
  let (ps, variadic) ← params true
  let f ← declared name ret ps variadic
  modify fun s => { s with function := some f, locals := {}, labels := {} }
  let args ← inContext fun c => (c.func f).args.toList
  bindParams (args.zip ps)
  let brace ← expect .lbrace
  if ← at? .rbrace then failAt brace.pos (.emptyBody name.literal)
  blocks f (← budget)
  let close ← expect .rbrace
  checkResolved f close.pos
  modify fun s => { s with function := none, locals := {}, labels := {} }

def definitions : Nat → Parse Unit
  | 0 => fail .unfinished
  | n + 1 => do
    let tok ← current
    match tok.kind with
    | .eof => return
    | .keyword .module => header
    | .localIdent => structDefinition
    | .globalIdent => globalDefinition
    | .keyword .declare => declaration
    | .keyword .define => definition
    | _ => fail (.expectedDefinition tok)
    definitions n

/-- Read a whole source: its definitions, after which every function used must be declared. -/
def source : Parse Unit := do
  definitions (← budget)
  let s ← get
  match s.forward.toList.find? fun p => !(s.context.func p.2).linked with
  | some (name, _) => fail (.undefinedFunction name)
  | none => pure ()

end SsaIr.Parse

namespace SsaIr

def inputName : String := "<input>"

/-- Read a source into a context. Without a header the module is named after the file. On failure
the new module is forgotten. -/
def parseModule (file text : String) (c : Context) : Except ParseError ModuleId × Context :=
  let tokens := scan file text
  match Build.newModule file c with
  | .error _ c => (.error { pos := {}, cause := .unfinished }, c)
  | .ok m c =>
    let state : ParseState :=
      { stream := .ofTokens tokens, context := c, module := m, budget := 4 * tokens.length + 4 }
    match Parse.source state with
    | .ok _ s => (.ok m, s.context)
    | .error e s => (.error e, { s.context with live := s.context.live.erase m })

end SsaIr
