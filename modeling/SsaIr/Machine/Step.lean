import SsaIr.Graph.Print
import SsaIr.Machine.Arithmetic
import SsaIr.Machine.State

/-!
# Steps of the machine

`Frame.run` executes one instruction of a frame and tells how control goes on; `Machine.next` takes
the machine one step further. A failure leaves the frames one by one, giving their allocations back;
a breakdown leaves all of them at once. Read `Machine.next` first.
-/

namespace SsaIr

/-- What executing an instruction leads to. -/
inductive Effect where
  | advance (fr : Frame)
  | jump (target : BlockId)
  | leave (v : RuntimeValue)
  | call (f : FuncId) (args : List RuntimeValue)

namespace Frame

def value (env : Environment) (fr : Frame) (v : Option Value) : Access RuntimeValue := do
  match v with
  | none => throw (.breakdown .crash)
  | some (.const k) => return .ofConst k
  | some (.func f) => return .ptr (← Access.functionAddress f)
  | some (.global g) =>
    return .ptr (← Access.globalAddress env.context env.layout (env.context.globals.size + 1) g)
  | some v =>
    match fr.lookup? v with
    | some r => return r
    | none => throw (.failure (.raise (.notComputed (env.context.operandText (some v)))))

def operands (env : Environment) (fr : Frame) : List (Option Value) → Access (List RuntimeValue)
  | [] => return []
  | v :: rest => do
    let r ← fr.value env v
    return r :: (← fr.operands env rest)

def phiValues (env : Environment) (fr : Frame) (block : BlockId) :
    List InstId → Access (List (InstId × RuntimeValue))
  | [] => return []
  | phi :: rest => do
    let x := env.context.inst phi
    match fr.previous.bind x.incomingFor with
    | none =>
      let source :=
        match fr.previous with
        | some b => "$" ++ (env.context.block b).name
        | none => "function entry"
      throw (.failure (.raise
        (.phiWithoutValue x.name (env.context.block block).name source)))
    | some v =>
      let r ← fr.value env v
      return (phi, r) :: (← fr.phiValues env block rest)

def enter (env : Environment) (fr : Frame) (block : BlockId) : Access Frame := do
  let phis := env.context.phis block
  let vs ← fr.phiValues env block phis
  let fr := { fr with block, position := phis.length }
  return vs.foldl (fun fr p => fr.bind p.1 p.2) fr

def target (x : Instruction) (n : Nat) : Access Effect :=
  match (x.operand n).bind Value.block? with
  | some b => return .jump b
  | none => throw (.breakdown .crash)

/-- The destination of a switch on some bits. A case without a block falls through. -/
def select (fr : Frame) (x : Instruction) (bits : UInt64) :
    List (Option Value × Option Value) → Access Effect
  | [] => target x 1
  | (k, dest) :: rest =>
    match k with
    | some (.const k) =>
      if (RuntimeValue.ofConst k).bits = bits then
        match dest.bind Value.block? with
        | some b => return .jump b
        | none => return .advance fr
      else fr.select x bits rest
    | _ => throw (.breakdown .crash)

def release (fr : Frame) (s : Store) : Store :=
  { s with space := s.space.releaseAll fr.stack.held }

def alloca (env : Environment) (fr : Frame) (i : InstId) (t : Ty) : Access Effect := do
  let e ← Access.ofExcept ((env.layout.extent t).mapError .breakdown)
  let (r, stack) ← Access.onArena fr.stack (Arena.alloc (max e.size 1) e.align)
  match r with
  | .ok address => return .advance ({ fr with stack }.bind i (.ptr address))
  | .error cause =>
    -- a chunk that does not hold the request is the call's all the same
    modify { fr with stack }.release
    match cause with
    | .exhausted .. => throw (.failure (.raise (.allocaSize e.size env.stackLimit)))
    | _ => throw (.ofAllocation cause)

def callee (env : Environment) (fr : Frame) (x : Instruction) : Access FuncId := do
  match x.callee with
  | some (.func f) => return f
  | v =>
    let p ← fr.value env v
    let f ← Access.functionAtAddress p.toAddress
    let t := env.context.typeOf? v
    if (env.context.func f).signature ≠ t.bind Ty.pointee? then
      throw (.failure (.raise (.indirectCall (env.context.func f).name t)))
    return f

def computed (fr : Frame) (i : InstId) : Except FaultCause RuntimeValue → Access Effect
  | .ok v => return .advance (fr.bind i v)
  | .error e => throw (.failure (.raise e))

def compute (env : Environment) (fr : Frame) (i : InstId) (x : Instruction)
    (ops : List RuntimeValue) : Access Effect := do
  let a := ops.headD .undef
  let b := ops.getD 1 .undef
  match x.op, x.type with
  | .int op, .int w => fr.computed i (Arithmetic.intBinary op w a b)
  | .float op, .float w => fr.computed i (Arithmetic.floatBinary op w a b)
  | .icmp p, _ => fr.computed i (.ok (.ofBool (Arithmetic.icmp p a b)))
  | .fcmp p, _ => fr.computed i (.ok (.ofBool (Arithmetic.fcmp p a.toFloat b.toFloat)))
  | .cast op, t =>
    fr.computed i (Arithmetic.cast op a (env.context.typeOf? (x.operand 0)) t)
  | .load, t =>
    let v ← Access.ofExcept ((← get).space.load env.layout a.toAddress t)
    return .advance (fr.bind i v)
  | .store, _ =>
    match env.context.typeOf? (x.operand 0) with
    | none => throw (.breakdown .crash)
    | some t =>
      Access.store env.layout b.toAddress t a
      return .advance fr
  | .gep source _, _ =>
    let p ← Access.ofExcept
      ((env.layout.elementAddress source a (ops.drop 1)).mapError .breakdown)
    return .advance (fr.bind i (.ptr p))
  | op, _ => throw (.failure (.raise (.notExecutable op.opcode)))

def run (env : Environment) (fr : Frame) (i : InstId) : Access Effect := do
  let x := env.context.inst i
  match x.op with
  | .ret =>
    if x.operands.isEmpty then return .leave .undef
    else return .leave (← fr.value env (x.operand 0))
  | .br => target x 0
  | .condBr =>
    let c ← fr.value env (x.operand 0)
    target x (if c.toBool then 1 else 2)
  | .switch =>
    let c ← fr.value env (x.operand 0)
    fr.select x c.bits x.cases
  | .alloca t => fr.alloca env i t
  | .call =>
    let f ← fr.callee env x
    let args ← fr.operands env x.callArgs
    return .call f args
  | _ =>
    let ops ← fr.operands env x.operands.toList
    fr.compute env i x ops

end Frame

namespace Machine

variable {σ : Type}

def releaseWaiting (s : Store) : List (Waiting σ) → Store
  | [] => s
  | .frame fr _ :: rest => releaseWaiting (fr.release s) rest
  | .host .. :: rest => releaseWaiting s rest

def halt (m : Machine σ) (b : Breakdown) : Machine σ :=
  { m with
    store := releaseWaiting m.store m.waiting, waiting := [], depth := 0, control := .broken b }

def leave (m : Machine σ) (fr : Frame) (r : Except Failure RuntimeValue) : Machine σ :=
  { m with store := fr.release m.store, depth := m.depth - 1, control := .deliver r }

def abandon (env : Environment) (m : Machine σ) (fr : Frame) : Stop → Machine σ
  | .failure e => m.leave fr (.error (e.leaving (env.context.func fr.func).name))
  | .breakdown b => { m with store := fr.release m.store }.halt b

def enter (env : Environment) (m : Machine σ) (fr : Frame) (block : BlockId) : Machine σ :=
  match fr.enter env block m.store with
  | .ok fr store => { m with store, control := .execute fr }
  | .error e store => abandon env { m with store } fr e

def execute (env : Environment) (m : Machine σ) (fr : Frame) : Machine σ :=
  match (env.context.block fr.block).insts[fr.position]? with
  | none =>
    abandon env m fr (.failure (.raise (.openBlock (env.context.block fr.block).name)))
  | some i =>
    match fr.run env i m.store with
    | .error e store => abandon env { m with store } fr e
    | .ok effect store =>
      let m := { m with store }
      match effect with
      | .advance fr => { m with control := .execute { fr with position := fr.position + 1 } }
      | .jump b => enter env m { fr with previous := some fr.block } b
      | .leave v => m.leave fr (.ok v)
      | .call f args =>
        { m with waiting := .frame fr i :: m.waiting, control := .call f args }

def call (env : Environment) (m : Machine σ) (f : FuncId) (args : List RuntimeValue) : Machine σ :=
  let x := env.context.func f
  match x.blocks[0]? with
  | none =>
    match m.hosts x.name with
    | none => { m with control := .deliver (.error (.raise (.unlinkedHost x.name))) }
    | some h =>
      let task := h { context := env.context, layout := env.layout, func := f, args }
      { m with control := .serve f task }
  | some entry =>
    if env.maxDepth.toInt ≤ m.depth then
      { m with control := .deliver (.error (.charged x.name .callDepth)) }
    else if args.length < x.args.size then m.halt .crash
    else
      let bound := (x.args.toList.zip args).foldl (fun t p => t.insert p.1.index p.2) {}
      let fr : Frame :=
        { func := f, block := entry, args := bound, stack := .limited env.stackLimit }
      enter env { m with depth := m.depth + 1 } fr entry

def checkKinds (func : String) (n : Nat) : List Ty → List RuntimeValue → Except Failure Unit
  | [], _ => .ok ()
  | _ :: _, [] => .ok ()
  | t :: ts, v :: vs =>
    if !v.isUndef && v.kind ≠ .ofType t then
      .error (.charged func (.argumentKind n v.kind t))
    else checkKinds func (n + 1) ts vs

def checkArgs (c : Context) (f : FuncId) (args : List RuntimeValue) : Except Stop Unit :=
  let x := c.func f
  match x.signature with
  | none => .error (.breakdown .crash)
  | some sig =>
    let want := sig.params.length
    if args.length < want || (!sig.variadic && args.length ≠ want) then
      .error (.failure (.charged x.name (.argumentCount args.length want)))
    else (checkKinds x.name 0 sig.params args).mapError .failure

/-- The result of a host function: nothing if its declaration returns nothing, else a value of the
declared type or an undefined one. -/
def hostResult (c : Context) (f : FuncId) :
    Except Failure RuntimeValue → Except Failure RuntimeValue
  | .error e => .error e
  | .ok v =>
    let x := c.func f
    if x.ret.isVoid then .ok .undef
    else if !v.isUndef && v.kind ≠ .ofType x.ret then
      .error (.charged x.name (.hostResult v.kind x.ret))
    else .ok v

def answer {α : Type} (m : Machine σ) (f : FuncId) (k : Except Failure α → HostTask σ)
    (r : Except Stop α) : Machine σ :=
  match r with
  | .ok a => { m with control := .serve f (k (.ok a)) }
  | .error (.failure e) => { m with control := .serve f (k (.error e)) }
  | .error (.breakdown b) => m.halt b

def answerAccess {α : Type} (m : Machine σ) (f : FuncId) (k : Except Failure α → HostTask σ)
    (x : Access α) : Machine σ :=
  match x m.store with
  | .ok a store => answer { m with store } f k (.ok a)
  | .error e store => answer { m with store } f k (.error e)

/-- A host function has a function of the program called. -/
def callBack (env : Environment) (m : Machine σ) (f : FuncId) (depth : Int) (g : FuncId)
    (args : List RuntimeValue) (k : Except Failure RuntimeValue → HostTask σ) : Machine σ :=
  match checkArgs env.context g args with
  | .error e => answer m f k (.error e)
  | .ok _ => { m with waiting := .host f k :: m.waiting, depth, control := .call g args }

def serve (env : Environment) (m : Machine σ) (f : FuncId) : HostTask σ → Machine σ
  | .done r => { m with control := .deliver (hostResult env.context f r) }
  | .stop b => m.halt b
  | .print text k =>
    { m with
      store := { m.store with output := text :: m.store.output }
      control := .serve f k }
  | .read address length k =>
    answer m f k ((m.store.space.read address length).mapError .ofAddress)
  | .write address bytes k =>
    answerAccess m f k do
      let space ← Access.ofExcept (((← get).space.write address bytes).mapError .ofAddress)
      modify fun s => { s with space }
  | .readText address k =>
    answer m f k ((m.store.space.text address maxText address).map Text.ofBytes)
  | .load address t k => answer m f k (m.store.space.load env.layout address t)
  | .store address t v k => answerAccess m f k (Access.store env.layout address t v)
  | .alloc size align k =>
    answerAccess m f k do
      match ← Access.alloc (max size 1) align with
      | .ok address => return address
      | .error e => throw (.failure (.memory e))
  | .functionAt address k => answerAccess m f k (Access.functionAtAddress address)
  | .call g args k => callBack env m f m.depth g args k
  | .run g args k =>
    if m.store.closed then answer m f k (.error (.failure .closed))
    else callBack env m f 0 g args k
  | .getState k => { m with control := .serve f (k m.state) }
  | .setState state k => { m with state, control := .serve f k }
  | .register name h k =>
    { m with toInterpreter := m.toInterpreter.register name h, control := .serve f k }
  | .close k => { m with store := m.store.close, control := .serve f k }

def deliver (env : Environment) (m : Machine σ) (r : Except Failure RuntimeValue) : Machine σ :=
  match m.waiting with
  | [] => { m with control := .finished r }
  | .host f k :: rest => { m with waiting := rest, control := .serve f (k r) }
  | .frame fr i :: rest =>
    let m := { m with waiting := rest }
    match r with
    | .error e => abandon env m fr (.failure e)
    | .ok v =>
      let fr := if (env.context.inst i).type.isVoid then fr else fr.bind i v
      { m with control := .execute { fr with position := fr.position + 1 } }

def next (env : Environment) (m : Machine σ) : Machine σ :=
  match m.control with
  | .execute fr => execute env m fr
  | .call f args => call env m f args
  | .serve f task => serve env m f task
  | .deliver r => deliver env m r
  | .finished _ | .broken _ => m

def run (env : Environment) : Nat → Machine σ → Machine σ
  | 0, m => m
  | n + 1, m => if m.halted then m else run env n (next env m)

end Machine

end SsaIr
