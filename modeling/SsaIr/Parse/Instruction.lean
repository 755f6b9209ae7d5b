import SsaIr.Parse.Operand

/-!
# Reading instructions

An instruction is `%name: T = opcode operands`, or `opcode operands` when it has no result. The
operands are read against the types that the opcode expects, the instruction is built, and its
declared type is compared with the one it has.
-/

namespace SsaIr.Parse

def comma : Parse Unit := discard (expect .comma)

def label (f : FuncId) : Parse BlockId := do
  let tok ← expect .labelIdent
  block f tok.literal

def switchCases (f : FuncId) (i : InstId) (want : Option Ty) : Nat → Parse Unit
  | 0 => fail .unfinished
  | n + 1 => do
    if ← eat .comma then
      discard (expect .lbracket)
      let tok ← current
      match ← operand want with
      | .const (.int w v) =>
        comma
        let dest ← label f
        construct (Build.addCase i (some (.int w v)) (some dest))
        discard (expect .rbracket)
        switchCases f i want n
      | _ => failAt tok.pos (.switchCase tok)

def phiPairs (f : FuncId) (i : InstId) (want : Option Ty) : Nat → Parse Unit
  | 0 => fail .unfinished
  | n + 1 => do
    discard (expect .lbracket)
    let v ← operand want
    comma
    let b ← label f
    construct (Build.addIncoming i (some v) (some b))
    discard (expect .rbracket)
    if ← eat .comma then phiPairs f i want n

def indices : Nat → Parse (List (Option Value))
  | 0 => fail .unfinished
  | n + 1 => do
    if ← eat .comma then
      let v ← operand none
      return some v :: (← indices n)
    else return []

/-- Read call arguments up to a closing parenthesis against the parameters left. -/
def arguments : Nat → Bool → List Ty → Parse (List (Option Value))
  | 0, _, _ => fail .unfinished
  | n + 1, first, params => do
    if ← at? .rparen then return []
    if !first then comma
    let v ← operand params.head?
    return some v :: (← arguments n false params.tail)

/-- Read the called value, which has the given type. A local may leave out its type. -/
def calleeValue (f : FuncId) (t : Ty) : Parse Value := do
  let tok ← current
  if ← eat .localIdent then
    if ← at? .colon then checkType tok (some (← annotation)) (some t)
    localValue f tok.literal t tok.pos
  else operand (some t)

def predicate (op : Opcode) : Parse Predicate := do
  let tok ← current
  let word := tok.kind = .ident
  let truth := tok.kind = .keyword .true || tok.kind = .keyword .false
  let found : Option Predicate :=
    match op with
    | .icmp => if word then (IntPredicate.ofName? tok.literal).map .int else none
    | _ => if word || truth then (FloatPredicate.ofName? tok.literal).map .float else none
  match found with
  | some p =>
    next
    return p
  | none => fail (.invalidPredicate op tok)

def operandPair : Parse (Value × Value) := do
  let lhs ← operand none
  comma
  let rhs ← operand (← inContext (·.typeOf lhs))
  return (lhs, rhs)

/-- Read the operands of an opcode and build the instruction. The declared type and the name are
those of the result, if it has one. -/
def build (f : FuncId) (op : Opcode) (opPos : Position) (t : Option Ty) (name : String) :
    Parse InstId := do
  match op with
  | .ret =>
    if ← eat (.keyword .void) then emit Builder.retVoid
    else
      let v ← operand none
      emit (Builder.ret (some v))
  | .br =>
    if ← at? .labelIdent then
      let dest ← label f
      emit (Builder.br (some dest))
    else
      let cond ← operand (some .i1)
      comma
      let yes ← label f
      comma
      let no ← label f
      emit (Builder.condBr (some cond) (some yes) (some no))
  | .switch =>
    let cond ← operand none
    comma
    let default ← label f
    let i ← emit (Builder.switch (some cond) (some default))
    switchCases f i (← inContext (·.typeOf cond)) (← budget)
    return i
  | .int _ | .float _ =>
    let (lhs, rhs) ← operandPair
    emit (Builder.binary op (some lhs) (some rhs) name)
  | .icmp =>
    let p ← predicate op
    let (lhs, rhs) ← operandPair
    emit (Builder.icmp p (some lhs) (some rhs) name)
  | .fcmp =>
    let p ← predicate op
    let (lhs, rhs) ← operandPair
    emit (Builder.fcmp p (some lhs) (some rhs) name)
  | .alloca =>
    let allocated ← type
    emit (Builder.alloca (some allocated) name)
  | .load =>
    let ptr ← operand none
    emit (Builder.load (some ptr) name)
  | .store =>
    let v ← operand none
    comma
    let ptr ← operand none
    emit (Builder.store (some v) (some ptr))
  | .gep =>
    let inBounds ← eat (.keyword .inbounds)
    let source ← type
    comma
    let base ← operand none
    let idx ← indices (← budget)
    emit (Builder.gep (some source) (some base) inBounds idx name)
  | .cast _ =>
    let v ← operand none
    emit (Builder.cast op (some v) t name)
  | .phi =>
    let i ← emit (Builder.phi t name)
    if ← at? .lbracket then phiPairs f i t (← budget)
    return i
  | .call =>
    let pos := (← current).pos
    let fnType ← type
    match fnType with
    | .pointer (.function _ params _) =>
      let callee ← calleeValue f fnType
      discard (expect .lparen)
      let args ← arguments (← budget) true params
      discard (expect .rparen)
      emit (Builder.call (some callee) args name)
    | _ => failAt pos (.callType fnType)
  | .condBr | .unknown _ => failAt opPos (.unsupported op)

def result : Parse (Option (String × Ty)) := do
  let start ← current
  if ← eat .localIdent then
    let t ← annotation
    discard (expect .assign)
    return some (start.literal, t)
  else return none

def opcode : Parse Opcode := do
  let tok ← current
  if tok.kind ≠ .ident then fail (.expectedInstruction tok)
  match Opcode.ofMnemonic? tok.literal with
  | none => fail (.unknownInstruction tok.literal)
  | some op =>
    next
    return op

def instruction (f : FuncId) (b : BlockId) : Parse Unit := do
  let start := (← current).pos
  modify fun s => { s with instPos := start }
  let res ← result
  let name := (res.map (·.1)).getD ""
  let opPos := (← current).pos
  let op ← opcode
  let c := (← get).context
  if op = .phi && (c.phis b).length ≠ (c.block b).insts.size then
    failAt start (.latePhi name (c.block b).name)
  if (op.isCast || op = .phi) && res.isNone then failAt start (.mustName op)
  let i ← build f op opPos (res.map (·.2)) name
  let t ← inContext fun c => (c.inst i).type
  match res with
  | none => if !t.isVoid then failAt start (.unnamedResult op)
  | some (name, declared) =>
    if t.isVoid then failAt start (.namedVoid op name)
    if t ≠ declared then failAt start (.resultType name declared op t)
    define name start (.inst i)

end SsaIr.Parse
