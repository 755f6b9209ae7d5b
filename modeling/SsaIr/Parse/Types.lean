import SsaIr.Parse.State

/-!
# Reading types

A type is a primitive keyword, a pointer `<T>`, an array `[n x T]`, a struct, or the name of a known
struct; parameter lists after it make function types.
-/

namespace SsaIr.Parse

def primitive? : TokenKind → Option Ty
  | .keyword .void => some .void
  | .keyword .i1 => some (.int .w1)
  | .keyword .i8 => some (.int .w8)
  | .keyword .i16 => some (.int .w16)
  | .keyword .i32 => some (.int .w32)
  | .keyword .i64 => some (.int .w64)
  | .keyword .f32 => some (.float .f32)
  | .keyword .f64 => some (.float .f64)
  | .keyword .label => some .label
  | _ => none

def arrayLength : Parse Int := do
  let t ← expect .int
  let n : Int :=
    match t.value with
    | .int v => v.toInt
    | _ => 0
  if n < 0 || 0x7FFFFFFF < n then failAt t.pos (.arrayLength t.literal) else return n

def structNamed (t : Token) : Parse Ty := do
  match ← inContext (Build.lookupStruct · t.literal) with
  | some s => return s
  | none => failAt t.pos (.undefinedType t.literal)

mutual
def typeWithin : Nat → Parse Ty
  | 0 => fail .unfinished
  | n + 1 => do
    let t ← baseType n
    functionSuffix n t

def functionSuffix : Nat → Ty → Parse Ty
  | 0, _ => fail .unfinished
  | n + 1, t => do
    let tok ← current
    if tok.kind = .lparen then
      next
      let (params, variadic) ← paramTypes n true
      discard (expect .rparen)
      let t ← constructAt tok.pos (Build.funcType (some t) (params.map some) variadic)
      functionSuffix n t
    else return t

/-- Read parameter types up to a closing parenthesis or an ellipsis; `first` tells that none has
been read yet. -/
def paramTypes : Nat → Bool → Parse (List Ty × Bool)
  | 0, _ => fail .unfinished
  | n + 1, first => do
    if ← at? .rparen then return ([], false)
    if !first then discard (expect .comma)
    if ← eat .ellipsis then return ([], true)
    let t ← typeWithin n
    let (rest, variadic) ← paramTypes n false
    return (t :: rest, variadic)

def baseType : Nat → Parse Ty
  | 0 => fail .unfinished
  | n + 1 => do
    let tok ← current
    match primitive? tok.kind with
    | some t =>
      next
      return t
    | none =>
      match tok.kind with
      | .lt =>
        next
        let elem ← typeWithin n
        discard (expect .gt)
        constructAt tok.pos (Build.pointerTo (some elem))
      | .lbracket =>
        next
        let count ← arrayLength
        discard (expect (.keyword .x))
        let elem ← typeWithin n
        discard (expect .rbracket)
        constructAt tok.pos (Build.arrayOf (some elem) count)
      | .lbrace =>
        let members ← structBody n
        constructAt tok.pos (Build.anonStruct (members.map some))
      | .localIdent =>
        next
        structNamed tok
      | _ => fail (.expectedType tok)

def structBody : Nat → Parse (List Ty)
  | 0 => fail .unfinished
  | n + 1 => do
    discard (expect .lbrace)
    let members ← memberTypes n true
    discard (expect .rbrace)
    return members

def memberTypes : Nat → Bool → Parse (List Ty)
  | 0, _ => fail .unfinished
  | n + 1, first => do
    if ← at? .rbrace then return []
    if !first then discard (expect .comma)
    let t ← typeWithin n
    return t :: (← memberTypes n false)
end

def type : Parse Ty := do typeWithin (← budget)

def members : Parse (List Ty) := do structBody (← budget)

def annotation : Parse Ty := do
  discard (expect .colon)
  type

end SsaIr.Parse
