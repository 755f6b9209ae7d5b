import SsaIr.Parse.Types

/-!
# Reading operands

Locals and constants carry their type after a colon; labels, globals and functions do not. Where a
type is expected, the operand must have it. A function that is not declared yet is made from the
expected type, and a local that is not defined yet is a stand-in.
-/

namespace SsaIr.Parse

def checkType (tok : Token) (t want : Option Ty) : Parse Unit :=
  match want with
  | some w => if t = some w then pure () else failAt tok.pos (.operandType tok t w)
  | none => pure ()

def block (f : FuncId) (name : String) : Parse BlockId := do
  match (← get).labels[name]? with
  | some b => return b
  | none =>
    let b ← construct (Build.newDetachedBlock f name)
    modify fun s => { s with labels := s.labels.insert name b }
    return b

/-- The value with a name in the current function, or a stand-in of the given type. -/
def localValue (f : FuncId) (name : String) (t : Ty) (pos : Position) : Parse Value := do
  match (← get).locals[name]? with
  | some v =>
    let known ← inContext (·.typeOf v)
    if known = some t then return v else failAt pos (.valueType name known t)
  | none =>
    let a ← construct (Build.newPlaceholder f (some t) name)
    modify fun s => { s with locals := s.locals.insert name (.arg a) }
    return .arg a

/-- Give a function that is not declared yet the parameters of a signature. -/
def addParameters (f : FuncId) : List Ty → Build Unit
  | [] => pure ()
  | t :: rest => do
    discard (Build.addArgument f (some t) "")
    addParameters f rest

def symbol (tok : Token) (want : Option Ty) : Parse Value := do
  let s ← get
  match s.context.lookup s.module tok.literal with
  | some found =>
    checkType tok (s.context.typeOf found.value) want
    return found.value
  | none =>
    match s.forward[tok.literal]? with
    | some f =>
      checkType tok (s.context.typeOf (.func f)) want
      return .func f
    | none =>
      match want with
      | some (.pointer (.function ret params variadic)) =>
        let f ← constructAt tok.pos (Build.newDetachedFunction s.module tok.literal (some ret))
        construct (addParameters f params)
        construct (Build.finalizeSignature f variadic)
        modify fun s => { s with forward := s.forward.insert tok.literal f }
        return .func f
      | _ => failAt tok.pos (.undefinedSymbol tok.literal)

def constant (tok : Token) (t : Ty) : Parse Value := do
  let k ←
    match tok.kind, tok.value with
    | .keyword .true, _ =>
      if t = .i1 then pure (Const.ofBool true) else failAt tok.pos (.truthType tok.literal t)
    | .keyword .false, _ =>
      if t = .i1 then pure (Const.ofBool false) else failAt tok.pos (.truthType tok.literal t)
    | .keyword .undef, _ =>
      if t.isSized then construct (Build.undef (some t)) else failAt tok.pos (.unsizedUndef t)
    | .keyword .null, _ =>
      if t.isPointer then construct (Build.null (some t)) else failAt tok.pos (.nonPointerNull t)
    | .int, .int v =>
      match t with
      | .float _ =>
        construct (Build.constFloat (some t) (FloatFormat.binary64.ofInt v.toInt).toUInt64)
      | .int .w1 => failAt tok.pos (.integerType tok.literal t)
      | .int w =>
        if w.fits (tok.literal.startsWith "-") v then construct (Build.constInt (some t) v)
        else failAt tok.pos (.integerRange tok.literal t)
      | _ => failAt tok.pos (.integerType tok.literal t)
    | .float, .float bits =>
      if t.isFloat then construct (Build.constFloat (some t) bits)
      else failAt tok.pos (.floatType tok.literal t)
    | _, _ => fail (.expectedOperand tok)
  return .const k

def startsConstant : TokenKind → Bool
  | .int | .float | .keyword .true | .keyword .false | .keyword .undef | .keyword .null => true
  | _ => false

def operand (want : Option Ty) : Parse Value := do
  let tok ← current
  match tok.kind with
  | .labelIdent =>
    next
    match (← get).function with
    | none => failAt tok.pos (.labelOutside tok.literal)
    | some f =>
      let b ← block f tok.literal
      checkType tok (some .label) want
      return .block b
  | .globalIdent =>
    next
    symbol tok want
  | .localIdent =>
    next
    let t ← annotation
    checkType tok (some t) want
    match (← get).function with
    | none => failAt tok.pos (.localOutside tok.literal)
    | some f => localValue f tok.literal t tok.pos
  | kind =>
    if startsConstant kind then
      next
      let t ← annotation
      checkType tok (some t) want
      constant tok t
    else fail (.expectedOperand tok)

/-- Bind a name of the current function to a value, retiring its stand-in. -/
def define (name : String) (pos : Position) (v : Value) : Parse Unit := do
  let bind : Parse Unit := modify fun s => { s with locals := s.locals.insert name v }
  match (← get).locals[name]? with
  | none => bind
  | some old =>
    let standIn ← inContext fun c =>
      match old with
      | .arg a => (c.arg a).index.isNone
      | _ => false
    if !standIn then failAt pos (.valueRedefined name)
    let used ← inContext (·.typeOf old)
    let t ← inContext (·.typeOf v)
    if used ≠ t then failAt pos (.definitionType name t used)
    construct (Build.replaceUses old v)
    bind

end SsaIr.Parse
