import SsaIr.Graph.ContractError
import SsaIr.Graph.Print

/-!
# Making types, constants and entities

The constructors of a context. Each checks its contract first; a refused request leaves every
program as it was, although types and constants asked for on the way stay known. `Build` is the
state of a context together with the possibility of a refusal that keeps the state reached.
-/

namespace SsaIr

def Context.learn (c : Context) (t : Ty) : Context :=
  if c.types.contains t then c else { c with types := c.types ++ [t] }

abbrev Build := EStateM ContractError Context

namespace Build

@[inline]
def require {σ : Type} (condition : Bool) (e : ContractError) : EStateM ContractError σ Unit :=
  if condition then pure () else throw e

/-! ## Types -/

def knowType (t : Ty) : Build Ty := do
  modify (·.learn t)
  return t

def pointerTo (pointee : Option Ty) : Build Ty :=
  match pointee with
  | none | some .label => throw (.invalidPointee pointee)
  | some t => knowType (.pointer t)

def isSized (t : Option Ty) : Bool := (t.map Ty.isSized).getD false

def arrayOf (elem : Option Ty) (count : Int) : Build Ty :=
  match elem with
  | none => throw (.invalidElement elem)
  | some t => do
    require t.isSized (.invalidElement elem)
    require (0 ≤ count) (.negativeLength count)
    knowType (.array count.toNat t)

/-- The members of a struct or the parameters of a function, each of which must be there and sized.
The index counts from the given number on. -/
def allSized (refusal : Nat → Option Ty → ContractError) (index : Nat) :
    List (Option Ty) → Build (List Ty)
  | [] => pure []
  | none :: _ => throw (refusal index none)
  | some t :: rest => do
    require t.isSized (refusal index (some t))
    return t :: (← allSized refusal (index + 1) rest)

def anonStruct (ts : List (Option Ty)) : Build Ty := do
  knowType (.struct (← allSized .invalidMember 0 ts))

def lookupStruct (c : Context) (name : String) : Option Ty :=
  c.namedStructs.find? fun t => t.structName = name

/-- The struct with the given name, made with the given members when it is first asked for; it
cannot get other members later. -/
def namedStruct (name : String) (ts : List (Option Ty)) : Build Ty := do
  require (name ≠ "") .unnamedStruct
  let body ← allSized .invalidMember 0 ts
  match lookupStruct (← get) name with
  | some known =>
    if known.members = body then return known
    else
      discard (knowType (.struct body))
      throw (.structRedefined name known.members body)
  | none =>
    let t := Ty.named name body
    modify fun c => { c with types := c.types ++ [t], namedStructs := c.namedStructs ++ [t] }
    return t

def funcType (ret : Option Ty) (params : List (Option Ty)) (variadic : Bool) : Build Ty :=
  match ret with
  | none => throw (.invalidReturn none)
  | some r => do
    require r.isReturnable (.invalidReturn (some r))
    knowType (.function r (← allSized .invalidParameter 0 params) variadic)

/-! ## Constants -/

def knowConst (k : Const) : Build Const := do
  modify fun c =>
    match c.constIndex? k with
    | some _ => c
    | none => { c with constants := c.constants.push { const := k } }
  return k

def constInt (t : Option Ty) (v : Int64) : Build Const :=
  match t with
  | some (.int w) => knowConst (.ofInt w v)
  | _ => throw (.nonIntegerConstant t)

def constFloat (t : Option Ty) (bits : UInt64) : Build Const :=
  match t with
  | some (.float w) => knowConst (.ofFloat w bits)
  | _ => throw (.nonFloatConstant t)

def undef (t : Option Ty) : Build Const :=
  match t with
  | none => throw (.unsizedUndef none)
  | some u => do
    require u.isSized (.unsizedUndef t)
    knowConst (.undef u)

def null (t : Option Ty) : Build Const :=
  match t with
  | some (.pointer p) => knowConst (.null p)
  | _ => throw (.nonPointerNull t)

/-! ## Modules -/

def newModule (name : String) : Build ModuleId := do
  let id : ModuleId := ⟨(← get).modules.size⟩
  modify fun c => { c with modules := c.modules.push { name }, live := c.live ++ [id] }
  return id

def renameModule (m : ModuleId) (name : String) : Build Unit :=
  modify fun c => c.modifyModule m fun x => { x with name }

def dropModule (m : ModuleId) : Build Unit :=
  modify fun c => { c with live := c.live.erase m }

/-- Forget all modules; counting of instructions and uses starts over. Types and constants stay. -/
def reset : Build Unit :=
  modify fun c => { c with live := [], instCount := 0, useCount := 0 }

/-- Record that a module declares a named struct, so that it is printed with the module even when
nothing refers to it. -/
def declareStruct (m : ModuleId) (t : Option Ty) : Build Unit :=
  match t with
  | some s => do
    require s.isNamed (.notNamedStruct t)
    modify fun c => c.modifyModule m fun x =>
      if x.structs.contains s then x else { x with structs := x.structs ++ [s] }
  | none => throw (.notNamedStruct none)

def define (m : ModuleId) (name : String) (s : Symbol) : Build Unit := do
  require (name ≠ "") .unnamedSymbol
  require ((← get).lookup m name).isNone (.symbolRedefined name)
  modify fun c => c.modifyModule m fun x => { x with symbols := (name, s) :: x.symbols }

def undefine (m : ModuleId) (name : String) : Build Unit :=
  modify fun c => c.modifyModule m fun x =>
    { x with symbols := x.symbols.filter fun p => p.1 ≠ name }

def newDetachedFunction (m : ModuleId) (name : String) (ret : Option Ty) : Build FuncId :=
  match ret with
  | none => throw (.invalidFunctionReturn none name)
  | some r => do
    require r.isReturnable (.invalidFunctionReturn ret name)
    let id : FuncId := ⟨(← get).functions.size⟩
    modify fun c => { c with functions := c.functions.push { name, parent := m, ret := r } }
    return id

def linkFunction (m : ModuleId) (f : FuncId) : Build Unit := do
  let x := (← get).func f
  require (x.parent = m) (.foreignFunction x.name)
  require (!x.linked) (.functionLinked x.name)
  define m x.name (.func f)
  modify fun c => c.modifyFunc f fun x => { x with linked := true }
  modify fun c => c.modifyModule m fun x => { x with functions := x.functions.push f }

def newFunction (m : ModuleId) (name : String) (ret : Option Ty) : Build FuncId := do
  let f ← newDetachedFunction m name ret
  linkFunction m f
  return f

/-- An initializer is a constant, a function or a global of the type of the cell. -/
def checkInitializer (name : String) (allocated : Ty) (init : Option Value) : Build Unit :=
  match init with
  | none => pure ()
  | some v => do
    match v with
    | .const _ | .func _ | .global _ => pure ()
    | _ => throw (.initializerKind name v.kind.name)
    let t := (← get).typeOf v
    require (t = some allocated) (.initializerType name t allocated)

def newGlobal (m : ModuleId) (name : String) (allocated : Option Ty) (init : Option Value) :
    Build GlobalId :=
  match allocated with
  | none => throw (.invalidGlobal none name)
  | some t => do
    require t.isSized (.invalidGlobal allocated name)
    discard (pointerTo (some t))
    checkInitializer name t init
    let id : GlobalId := ⟨(← get).globals.size⟩
    define m name (.global id)
    modify fun c => { c with globals := c.globals.push { name, parent := m, allocated := t, init } }
    modify fun c => c.modifyModule m fun x => { x with globals := x.globals.push id }
    return id

def setInitializer (g : GlobalId) (init : Option Value) : Build Unit := do
  let x := (← get).global g
  checkInitializer x.name x.allocated init
  modify fun c => c.modifyGlobal g fun x => { x with init }

/-! ## Functions and blocks -/

def addArgument (f : FuncId) (t : Option Ty) (name : String) : Build ArgId := do
  let x := (← get).func f
  require x.signature.isNone (.lateArgument x.name)
  require (isSized t) (.invalidArgument x.name t)
  let id : ArgId := ⟨(← get).args.size⟩
  modify fun c =>
    { c with args := c.args.push { name, type := t, parent := f, index := some x.args.size } }
  modify fun c => c.modifyFunc f fun x => { x with args := x.args.push id }
  return id

/-- Fix the signature from the return type and the arguments added so far. -/
def finalizeSignature (f : FuncId) (variadic : Bool) : Build Unit := do
  let c ← get
  let x := c.func f
  require x.signature.isNone (.finalizedTwice x.name)
  let sig ← funcType (some x.ret) (x.args.toList.map fun a => (c.arg a).type) variadic
  discard (pointerTo (some sig))
  modify fun c => c.modifyFunc f fun x => { x with signature := some sig }

/-- A stand-in for a value of a function that is used before its definition. -/
def newPlaceholder (f : FuncId) (t : Option Ty) (name : String) : Build ArgId := do
  let id : ArgId := ⟨(← get).args.size⟩
  modify fun c => { c with args := c.args.push { name, type := t, parent := f, index := none } }
  return id

def newDetachedBlock (f : FuncId) (name : String) : Build BlockId := do
  let id : BlockId := ⟨(← get).blocks.size⟩
  modify fun c => { c with blocks := c.blocks.push { name, parent := f } }
  return id

def appendBlock (f : FuncId) (b : BlockId) : Build Unit := do
  let c ← get
  let x := c.block b
  require (x.parent = f) (.foreignBlock x.name)
  require (!x.linked) (.blockLinked x.name (c.func f).name)
  modify fun c => c.modifyBlock b fun x => { x with linked := true }
  modify fun c => c.modifyFunc f fun x => { x with blocks := x.blocks.push b }

def newBlock (f : FuncId) (name : String) : Build BlockId := do
  let b ← newDetachedBlock f name
  appendBlock f b
  return b

/-- Give a value another name. The symbols of a module stay distinct, and constants have no name. -/
def setName (v : Value) (name : String) : Build Unit := do
  let c ← get
  match v with
  | .const _ => throw .namedConstant
  | .arg a => modify fun c => c.modifyArg a fun x => { x with name }
  | .inst i => modify fun c => c.modifyInst i fun x => { x with name }
  | .block b => modify fun c => c.modifyBlock b fun x => { x with name }
  | .func f =>
    let x := c.func f
    if x.linked && x.name ≠ name then
      define x.parent name (.func f)
      undefine x.parent x.name
    modify fun c => c.modifyFunc f fun x => { x with name }
  | .global g =>
    let x := c.global g
    if x.name ≠ name then
      define x.parent name (.global g)
      undefine x.parent x.name
    modify fun c => c.modifyGlobal g fun x => { x with name }

end Build

end SsaIr
