import SsaIr.Graph.Construct

/-!
# Typing rules shared by the builder and the verifier

Which conversions are allowed, which element an address computation selects, and which arguments a
call takes.
-/

namespace SsaIr

def checkCast (op : Opcode) (source target : Option Ty) : Except ContractError Unit :=
  match op with
  | .cast cast =>
    let bad : Except ContractError Unit := .error (.invalidCast cast source target)
    match source, target with
    | some s, some t =>
      let allowed : Bool :=
        match cast with
        | .trunc => s.isInteger && t.isInteger && t.bitWidth < s.bitWidth
        | .zext | .sext => s.isInteger && t.isInteger && s.bitWidth < t.bitWidth
        | .fptrunc => s.isFloat && t.isFloat && t.bitWidth < s.bitWidth
        | .fpext => s.isFloat && t.isFloat && s.bitWidth < t.bitWidth
        | .fptoui | .fptosi => s.isFloat && t.isInteger
        | .uitofp | .sitofp => s.isInteger && t.isFloat
        | .ptrtoint => s.isPointer && t.isInteger
        | .inttoptr => s.isInteger && t.isPointer
        | .bitcast =>
          (s.isPointer && t.isPointer)
            || ((s.isInteger || s.isFloat) && (t.isInteger || t.isFloat))
      if !allowed then bad
      else if cast = .bitcast && s.bitWidth ≠ t.bitWidth then .error (.bitcastWidth s t)
      else .ok ()
    | _, _ => bad
  | op => .error (.notCast op)

/-- Step from a type into one of its elements. An array may be entered at any index, a struct only
at a constant within range. -/
def stepInto (position : Nat) (t : Ty) (index : Option Value) : Except ContractError Ty :=
  match t with
  | .array _ elem => .ok elem
  | .struct members | .named _ members =>
    match index with
    | some (.const (.int _ v)) =>
      match if 0 ≤ v.toInt then members[v.toInt.toNat]? else none with
      | some m => .ok m
      | none => .error (.gepIndexRange v.toInt t)
    | _ => .error (.gepStructIndex position)
  | t => .error (.gepIntoScalar position t)

/-- Step along a list of indices, the first of which has the given position. -/
def stepAlong (position : Nat) (t : Ty) : List (Option Value) → Except ContractError Ty
  | [] => .ok t
  | index :: rest => do
    let u ← stepInto position t index
    stepAlong (position + 1) u rest

namespace Context

def badIndex? (c : Context) (indices : List (Option Value)) : Option Nat :=
  indices.findIdx? fun v => !((c.typeOf? v).map Ty.isInteger).getD false

/-- The type of the element that indices select. The first index steps over whole objects, each
further one into an element. -/
def elementType (c : Context) (source : Option Ty) (indices : List (Option Value)) :
    Except ContractError (Option Ty) :=
  match indices with
  | [] => .error .gepNoIndex
  | _ :: inner =>
    match c.badIndex? indices with
    | some n => .error (.gepIndexType n)
    | none =>
      match source with
      | some t => (stepAlong 1 t inner).map some
      | none => .ok none

/-- Arguments fit the parameters, the first of both having the given position. Extra arguments are
scalars. -/
def checkArguments (c : Context) (position : Nat) :
    List Ty → List (Option Value) → Except ContractError Unit
  | _, [] => .ok ()
  | params, v :: rest =>
    match c.typeOf? v with
    | none => .error (.argumentMissing position)
    | some t =>
      match params with
      | p :: ps =>
        if t = p then c.checkArguments (position + 1) ps rest
        else .error (.argumentType position (c.operandText v) p)
      | [] =>
        if t.isPrimitive then c.checkArguments (position + 1) [] rest
        else .error (.variadicType position t)

def checkCall (c : Context) (sig : Ty) (args : List (Option Value)) : Except ContractError Unit :=
  let want := sig.params.length
  if args.length < want || (!sig.variadic && args.length ≠ want) then
    .error (.argumentCount args.length want)
  else c.checkArguments 0 sig.params args

end Context

end SsaIr
