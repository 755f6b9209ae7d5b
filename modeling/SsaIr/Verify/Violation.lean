import SsaIr.Flow.Control
import SsaIr.Graph.ContractError
import SsaIr.Graph.Print

/-!
# Violations

What can be wrong with a program: each cause with its category and wording, the place where it was
found, and the report that is shown for it.
-/

namespace SsaIr

inductive ViolationCause where
  | unlinkedFunction (module : String)
  | foreignGlobal
  | unsizedGlobal (t : Ty)
  | initializerFunction (global : String)
  | initializerGlobal (global : String)
  | initializerKind (global : String)
  | initializerType (global : String) (t : Option Ty) (want : Ty)
  | openSignature
  | returnType
  | argumentCount (params args : Nat)
  | argumentLink (n : Nat)
  | argumentUnsized (n : Nat) (t : Option Ty)
  | argumentType (n : Nat) (t want : Option Ty)
  | namedParameter (n : Nat)
  | unnamedParameter (n : Nat)
  | flow (e : FlowError)
  | blockLink
  | emptyBlock
  | openBlock
  | entryTargeted (block : String)
  | instructionLink
  | latePhi
  | innerTerminator
  | missingOperand
  | unresolvedValue (name : String)
  | foreignArgument (name : String)
  | foreignInstruction (name : String)
  | foreignBlock (name : String)
  | foreignFunction (name : String)
  | foreignGlobalUse (name : String)
  | usedEarly (name : String)
  | undominatedUse (name block use : String)
  | undominatedIncoming (name block incoming : String)
  | missingIncoming (blocks : List String)
  | extraIncoming (blocks : List String)
  | branchOperands
  | conditionalOperands
  | conditionType
  | notLabel (operand : String)
  | switchOperands
  | switchCondition (t : Option Ty)
  | switchCase (operand : String) (t : Option Ty)
  | duplicateCase (literal : String)
  | operandCount (op : Opcode)
  | operandTypes
  | integerOperands (op : Opcode)
  | floatOperands (op : Opcode)
  | resultType (t : Option Ty)
  | comparisonOperands
  | icmpOperands
  | fcmpOperands
  | comparisonResult
  | allocaOperands
  | allocaType (t : Ty)
  | allocaResult (want : Ty)
  | allocaPlace
  | loadOperands
  | loadPointer (t : Option Ty)
  | loadResult (want : Option Ty)
  | storeOperands
  | storePointer (t : Option Ty)
  | storeValue (want : Option Ty)
  | storeResult
  | gepOperands
  | gepSource (t : Ty)
  | gepBase (t : Ty)
  | gepResult (want : Ty)
  | castOperands (op : Opcode)
  | phiOperands
  | emptyPhi
  | incomingType (operand : String) (t : Ty)
  | incomingLabel (n : Nat)
  | duplicateIncoming (block : String)
  | callOperands
  | calleeType (t : Option Ty)
  | callResult (want : Option Ty)
  | returnedValue
  | missingValue (want : Ty)
  | returnedType (t : Option Ty) (want : Ty)
  | contract (e : ContractError)
deriving Repr, Inhabited

namespace ViolationCause

def kind : ViolationCause → ErrorKind
  | unsizedGlobal _ | initializerType .. | argumentUnsized .. | argumentType .. | conditionType
  | notLabel _ | switchCondition _ | switchCase .. | operandTypes | integerOperands _
  | floatOperands _ | resultType _ | icmpOperands | fcmpOperands | comparisonResult | allocaType _
  | allocaResult _ | loadPointer _ | loadResult _ | storePointer _ | storeValue _ | storeResult
  | gepSource _ | gepBase _ | gepResult _ | incomingType .. | incomingLabel _ | calleeType _
  | callResult _ | returnedValue | missingValue _ | returnedType .. => .typeMismatch
  | usedEarly _ | undominatedUse .. | undominatedIncoming .. | missingIncoming _
  | extraIncoming _ => .ssa
  | contract e => e.kind
  | _ => .structural

def blockList (names : List String) : String := ", ".intercalate (names.map ("$" ++ ·))

def message : ViolationCause → String
  | unlinkedFunction m => s!"function is not linked into module {Text.escape m}"
  | foreignGlobal => "global belongs to another module"
  | unsizedGlobal t => s!"global has unsized type {t.text}"
  | initializerFunction g => s!"initializer of @{g} is not a function of this module"
  | initializerGlobal g => s!"initializer of @{g} is not a global of this module"
  | initializerKind g => s!"initializer of @{g} must be a constant, function or global"
  | initializerType g t want =>
    s!"initializer of @{g} has type {Ty.optionText t}, want {want.text}"
  | openSignature => "signature is not finalized"
  | returnType => "signature does not match the return type"
  | argumentCount p a => s!"signature has {p} parameters, function has {a} arguments"
  | argumentLink n => s!"argument {n} has a broken parent link"
  | argumentUnsized n t => s!"argument {n} has invalid type {Ty.optionText t}"
  | argumentType n t want =>
    s!"argument {n} has type {Ty.optionText t}, signature says {Ty.optionText want}"
  | namedParameter n => s!"declaration argument {n} must not be named"
  | unnamedParameter n => s!"definition argument {n} must be named"
  | flow e => e.message
  | blockLink => "block has a broken parent link"
  | emptyBlock => "block is empty"
  | openBlock => "block does not end with a terminator"
  | entryTargeted b => s!"entry block ${b} has predecessors"
  | instructionLink => "instruction has a broken parent link"
  | latePhi => "phi after a non-phi instruction"
  | innerTerminator => "terminator in the middle of the block"
  | missingOperand => "missing operand"
  | unresolvedValue n => s!"use of unresolved value %{n}"
  | foreignArgument n => s!"use of argument %{n} of another function"
  | foreignInstruction n => s!"use of %{n}, which is not in this function"
  | foreignBlock n => s!"reference to block ${n} outside this function"
  | foreignFunction n => s!"reference to function @{n} outside this module"
  | foreignGlobalUse n => s!"reference to global @{n} outside this module"
  | usedEarly n => s!"%{n} is used before its definition"
  | undominatedUse n b u => s!"definition of %{n} in ${b} does not dominate its use in ${u}"
  | undominatedIncoming n b i =>
    s!"definition of %{n} in ${b} does not dominate incoming block ${i}"
  | missingIncoming bs => s!"phi is missing predecessor {blockList bs}"
  | extraIncoming bs => s!"phi names {blockList bs}, which are not predecessors"
  | branchOperands => "br takes one label"
  | conditionalOperands => "conditional br takes a condition and two labels"
  | conditionType => "br condition must be i1"
  | notLabel v => s!"{v} is not a label"
  | switchOperands => "malformed switch operands"
  | switchCondition t => s!"switch condition must be an integer, got {Ty.optionText t}"
  | switchCase v t => s!"switch case {v} is not a constant of type {Ty.optionText t}"
  | duplicateCase l => s!"duplicate switch case {l}"
  | operandCount op => s!"{op.mnemonic} takes two operands"
  | operandTypes => "operand types differ"
  | integerOperands op => s!"{op.mnemonic} requires integer operands"
  | floatOperands op => s!"{op.mnemonic} requires float operands"
  | resultType t => s!"result type must be {Ty.optionText t}"
  | comparisonOperands => "comparison takes two operands"
  | icmpOperands => "icmp requires integer or pointer operands"
  | fcmpOperands => "fcmp requires float operands"
  | comparisonResult => "comparison result must be i1"
  | allocaOperands => "alloca takes no operands"
  | allocaType t => s!"alloca of unsized type {t.text}"
  | allocaResult t => s!"alloca result must be {t.text}"
  | allocaPlace => "alloca outside the entry block"
  | loadOperands => "load takes one pointer"
  | loadPointer t => s!"load from non-pointer {Ty.optionText t}"
  | loadResult t => s!"load result must be {Ty.optionText t}"
  | storeOperands => "store takes a value and a pointer"
  | storePointer t => s!"store to non-pointer {Ty.optionText t}"
  | storeValue t => s!"stored value does not match pointee {Ty.optionText t}"
  | storeResult => "store produces no value"
  | gepOperands => "gep takes a base pointer and at least one index"
  | gepSource t => s!"gep source type {t.text} is unsized"
  | gepBase t => s!"gep base is not a pointer to {t.text}"
  | gepResult t => s!"gep result must be {t.text}"
  | castOperands op => s!"{op.mnemonic} takes one operand"
  | phiOperands => "malformed phi operands"
  | emptyPhi => "phi has no incoming values"
  | incomingType v t => s!"incoming {v} does not match phi type {t.text}"
  | incomingLabel n => s!"incoming block {n} is not a label"
  | duplicateIncoming b => s!"duplicate incoming block ${b}"
  | callOperands => "call without a callee"
  | calleeType t => s!"callee type {Ty.optionText t} is not a function pointer"
  | callResult t => s!"call result must be {Ty.optionText t}"
  | returnedValue => "ret with a value in a void function"
  | missingValue t => s!"ret without a value in a function returning {t.text}"
  | returnedType t want =>
    s!"ret of {Ty.optionText t} in a function returning {want.text}"
  | contract e => e.message

end ViolationCause

/-- A violation: its cause, the function and block in which it was found, if any, and the value it
is about. -/
structure Violation where
  cause : ViolationCause
  func : String := ""
  block : String := ""
  object : Option Value := none
deriving Repr, Inhabited

namespace Violation

def kind (v : Violation) : ErrorKind := v.cause.kind

def message (v : Violation) : String := v.cause.message

def text (v : Violation) : String :=
  "verifier: " ++ (if v.func = "" then "" else s!"@{v.func}: ")
    ++ (if v.block = "" then "" else s!"${v.block}: ") ++ s!"{v.kind.name}: {v.message}"

def objectText (c : Context) (v : Violation) : String :=
  match v.object with
  | none => ""
  | some (.inst i) => c.instText i
  | some x => c.operandText (some x)

def report (c : Context) (v : Violation) : String :=
  let object := v.objectText c
  "--- verifier error ---\n" ++ (if v.func = "" then "" else s!"In function: @{v.func}\n")
    ++ (if v.block = "" then "" else s!"In block:    ${v.block}\n")
    ++ s!"Error:       {v.kind.name}: {v.message}\n"
    ++ (if object = "" then "" else s!"Object:      {object}\n")
    ++ "----------------------\n"

end Violation

end SsaIr
