import SsaIr.ErrorKind
import SsaIr.Opcode
import SsaIr.Ty

/-!
# Broken contracts

The ways in which a request to build or change a program can be refused, with the category and the
wording of each. Operands appear in their textual form.
-/

namespace SsaIr

inductive ContractError where
  | invalidPointee (t : Option Ty)
  | invalidElement (t : Option Ty)
  | negativeLength (n : Int)
  | invalidMember (index : Nat) (t : Option Ty)
  | unnamedStruct
  | structRedefined (name : String) (old new : List Ty)
  | invalidReturn (t : Option Ty)
  | invalidParameter (index : Nat) (t : Option Ty)
  | nonIntegerConstant (t : Option Ty)
  | nonFloatConstant (t : Option Ty)
  | unsizedUndef (t : Option Ty)
  | nonPointerNull (t : Option Ty)
  | cannotReplace (old new : String)
  | namedConstant
  | stillUsed (inst : String) (users : Nat)
  | incomingOnOther (op : Opcode)
  | incomingMissing (phi : String)
  | incomingType (phi operand : String) (want : Ty)
  | caseOnOther (op : Opcode)
  | caseMissing
  | caseType (operand : String) (want : Option Ty)
  | duplicateCase (literal : String)
  | lateArgument (func : String)
  | invalidArgument (func : String) (t : Option Ty)
  | finalizedTwice (func : String)
  | foreignBlock (block : String)
  | blockLinked (block func : String)
  | notNamedStruct (t : Option Ty)
  | unnamedSymbol
  | symbolRedefined (name : String)
  | invalidFunctionReturn (t : Option Ty) (func : String)
  | foreignFunction (func : String)
  | functionLinked (func : String)
  | invalidGlobal (t : Option Ty) (name : String)
  | initializerKind (name kind : String)
  | initializerType (name : String) (t : Option Ty) (want : Ty)
  | noInsertionPoint
  | missingOperand (what : String)
  | retType (operand func : String) (ret : Ty)
  | retVoid (func : String) (ret : Ty)
  | brDestination
  | brCondition (operand : String)
  | switchCondition (operand : String)
  | switchDefault
  | notBinary (op : Opcode)
  | operandsDiffer (op : Opcode) (lhs rhs : String)
  | needsIntegers (op : Opcode) (t : Ty)
  | needsFloats (op : Opcode) (t : Ty)
  | icmpPredicate (p : Predicate)
  | fcmpPredicate (p : Predicate)
  | icmpOperands (t : Ty)
  | fcmpOperands (lhs rhs : String)
  | unsizedAlloca (t : Option Ty)
  | loadSource (operand : String)
  | storeTarget (operand : String)
  | storeType (value pointer : String)
  | gepNoIndex
  | gepIndexType (index : Nat)
  | gepStructIndex (index : Nat)
  | gepIndexRange (v : Int) (t : Ty)
  | gepIntoScalar (index : Nat) (t : Ty)
  | gepUnsized (t : Option Ty)
  | gepBase (operand : String) (source : Ty)
  | invalidCast (op : CastOp) (source target : Option Ty)
  | bitcastWidth (source target : Ty)
  | notCast (op : Opcode)
  | castTarget (op : Opcode)
  | unsizedPhi (t : Option Ty)
  | calleeType (operand : String)
  | argumentCount (got want : Nat)
  | argumentMissing (index : Nat)
  | argumentType (index : Nat) (operand : String) (want : Ty)
  | variadicType (index : Nat) (t : Ty)
deriving DecidableEq, Repr, Inhabited

namespace ContractError

/-- The category: either types do not fit, or the structure of the program would be broken. -/
def kind : ContractError → ErrorKind
  | unnamedStruct | structRedefined .. | namedConstant | stillUsed .. | incomingOnOther _
  | incomingMissing _ | caseOnOther _ | caseMissing | duplicateCase _ | lateArgument _
  | finalizedTwice _ | foreignBlock _ | blockLinked .. | unnamedSymbol | symbolRedefined _
  | foreignFunction _ | functionLinked _ | initializerKind .. | noInsertionPoint
  | missingOperand _ | brDestination | switchDefault | notBinary _ | icmpPredicate _
  | fcmpPredicate _ | gepNoIndex | notCast _ | argumentMissing _ => .structural
  | _ => .typeMismatch

def message : ContractError → String
  | invalidPointee t => s!"invalid pointee type {Ty.optionText t}"
  | invalidElement t => s!"invalid array element type {Ty.optionText t}"
  | negativeLength n => s!"negative array length {n}"
  | invalidMember i t => s!"invalid struct member {i} type {Ty.optionText t}"
  | unnamedStruct => "named struct requires a name"
  | structRedefined n old new =>
    s!"struct %{n} redefined with a different body: {Ty.bodyText old} vs {Ty.bodyText new}"
  | invalidReturn t => s!"invalid return type {Ty.optionText t}"
  | invalidParameter i t => s!"invalid parameter {i} type {Ty.optionText t}"
  | nonIntegerConstant t => s!"integer constant of non-integer type {Ty.optionText t}"
  | nonFloatConstant t => s!"float constant of non-float type {Ty.optionText t}"
  | unsizedUndef t => s!"undef of unsized type {Ty.optionText t}"
  | nonPointerNull t => s!"null of non-pointer type {Ty.optionText t}"
  | cannotReplace old new => s!"cannot replace {old} with {new}"
  | namedConstant => "constants cannot be named"
  | stillUsed i n => s!"cannot erase {i}: it still has {n} users"
  | incomingOnOther op => s!"AddIncoming on {op.name}"
  | incomingMissing phi => s!"phi %{phi}: incoming value and block are required"
  | incomingType phi v t => s!"phi %{phi}: incoming {v}, want type {t.text}"
  | caseOnOther op => s!"AddCase on {op.name}"
  | caseMissing => "switch: case value and destination are required"
  | caseType v t => s!"switch case {v} does not match condition type {Ty.optionText t}"
  | duplicateCase v => s!"duplicate switch case {v}"
  | lateArgument f => s!"@{f}: argument added after signature was finalized"
  | invalidArgument f t => s!"@{f}: invalid argument type {Ty.optionText t}"
  | finalizedTwice f => s!"@{f}: signature finalized twice"
  | foreignBlock b => s!"block ${b} belongs to another function"
  | blockLinked b f => s!"block ${b} is already part of @{f}"
  | notNamedStruct t => s!"{Ty.optionText t} is not a named struct"
  | unnamedSymbol => "module symbols must be named"
  | symbolRedefined n => s!"redefinition of symbol @{n}"
  | invalidFunctionReturn t f => s!"invalid return type {Ty.optionText t} for @{f}"
  | foreignFunction f => s!"function @{f} belongs to another module"
  | functionLinked f => s!"function @{f} is already linked"
  | invalidGlobal t n => s!"invalid global type {Ty.optionText t} for @{n}"
  | initializerKind n k =>
    s!"initializer of @{n} must be a constant, function or global, got {k}"
  | initializerType n t want =>
    s!"initializer of @{n} has type {Ty.optionText t}, want {want.text}"
  | noInsertionPoint => "builder has no insertion point"
  | missingOperand what => s!"{what}: missing operand"
  | retType v f t => s!"ret {v} in @{f} returning {t.text}"
  | retVoid f t => s!"ret void in @{f} returning {t.text}"
  | brDestination => "br: missing destination"
  | brCondition v => s!"br condition {v} is not i1"
  | switchCondition v => s!"switch condition {v} is not an integer"
  | switchDefault => "switch: missing default destination"
  | notBinary op => s!"{op.name} is not a binary opcode"
  | operandsDiffer op l r => s!"{op.name} operands differ: {l}, {r}"
  | needsIntegers op t => s!"{op.name} requires integer operands, got {t.text}"
  | needsFloats op t => s!"{op.name} requires float operands, got {t.text}"
  | icmpPredicate p => s!"icmp with predicate {p.name}"
  | fcmpPredicate p => s!"fcmp with predicate {p.name}"
  | icmpOperands t => s!"icmp requires integer or pointer operands, got {t.text}"
  | fcmpOperands l r => s!"fcmp requires two floats of one type: {l}, {r}"
  | unsizedAlloca t => s!"alloca of unsized type {Ty.optionText t}"
  | loadSource v => s!"load from non-pointer {v}"
  | storeTarget v => s!"store to non-pointer {v}"
  | storeType v p => s!"store of {v} through {p}"
  | gepNoIndex => "gep requires at least one index"
  | gepIndexType i => s!"gep index {i} is not an integer"
  | gepStructIndex i =>
    s!"GEP index into a struct *must* be a constant integer (index {i})"
  | gepIndexRange v t => s!"struct index {v} out of range for {t.text}"
  | gepIntoScalar i t => s!"gep index {i} steps into non-aggregate type {t.text}"
  | gepUnsized t => s!"gep source type {Ty.optionText t} is unsized"
  | gepBase v t => s!"gep base {v} is not a pointer to {t.text}"
  | invalidCast op s t => s!"invalid {op.name} from {Ty.optionText s} to {Ty.optionText t}"
  | bitcastWidth s t => s!"bitcast between types of different width: {s.text} to {t.text}"
  | notCast op => s!"{op.name} is not a cast"
  | castTarget op => s!"{op.name}: missing destination type"
  | unsizedPhi t => s!"phi of unsized type {Ty.optionText t}"
  | calleeType v => s!"call of non-function {v}"
  | argumentCount got want => s!"'call' argument count mismatch: got {got}, want {want}"
  | argumentMissing i => s!"call argument {i} is missing"
  | argumentType i v t => s!"call argument {i} is {v}, want {t.text}"
  | variadicType i t => s!"variadic argument {i} has unsupported type {t.text}"

def text (e : ContractError) : String := s!"ir: {e.kind.name}: {e.message}"

end ContractError

end SsaIr
