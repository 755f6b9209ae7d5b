import SsaIr.Graph.ContractError
import SsaIr.Token.Basic
import SsaIr.Text.Quoted

/-!
# Errors of the reader

The first problem found in a source: where it is, and what it is. `ParseCause.kind` and
`ParseCause.message` give the category and the wording of each cause.
-/

namespace SsaIr

def Token.describe (t : Token) : String :=
  match t.kind with
  | .illegal => "illegal token " ++ Text.escape t.literal
  | .eof => "end of input"
  | .globalIdent => "@" ++ t.literal
  | .localIdent => "%" ++ t.literal
  | .labelIdent => "$" ++ t.literal
  | .string => Text.quote t.literal
  | _ => Text.escape t.literal

inductive ParseCause where
  | expected (kind : TokenKind) (got : Token)
  | expectedDefinition (got : Token)
  | expectedLabel (got : Token)
  | expectedType (got : Token)
  | expectedOperand (got : Token)
  | expectedInstruction (got : Token)
  | unknownInstruction (name : String)
  | invalidPredicate (op : Opcode) (got : Token)
  | duplicateHeader
  | earlyEllipsis
  | arrayLength (literal : String)
  | undefinedType (name : String)
  | undefinedSymbol (name : String)
  | undefinedFunction (name : String)
  | undefinedLabel (label func : String)
  | undefinedValue (value func : String)
  | labelOutside (label : String)
  | localOutside (name : String)
  | unsupported (op : Opcode)
  | unfinished
  | symbolRedefined (name : String)
  | unnamedParameter
  | emptyBody (func : String)
  | valueRedefined (name : String)
  | labelRedefined (label : String)
  | latePhi (name block : String)
  | mustName (op : Opcode)
  | namedVoid (op : Opcode) (name : String)
  | unnamedResult (op : Opcode)
  | unsizedGlobal (name : String) (t : Ty)
  | globalType (name : String) (t want : Ty)
  | signature (name : String) (declared : Ty) (used : Option Ty)
  | valueType (name : String) (t : Option Ty) (used : Ty)
  | definitionType (name : String) (t used : Option Ty)
  | operandType (got : Token) (t : Option Ty) (want : Ty)
  | truthType (literal : String) (t : Ty)
  | unsizedUndef (t : Ty)
  | nonPointerNull (t : Ty)
  | integerType (literal : String) (t : Ty)
  | integerRange (literal : String) (t : Ty)
  | floatType (literal : String) (t : Ty)
  | resultType (name : String) (declared : Ty) (op : Opcode) (t : Ty)
  | switchCase (got : Token)
  | callType (t : Ty)
  | contract (e : ContractError)
deriving Repr, Inhabited

namespace ParseCause

def kind : ParseCause → ErrorKind
  | expected .. | expectedDefinition _ | expectedLabel _ | expectedType _ | expectedOperand _
  | expectedInstruction _ | unknownInstruction _ | invalidPredicate .. | duplicateHeader
  | earlyEllipsis | arrayLength _ | undefinedType _ | undefinedSymbol _ | undefinedFunction _
  | undefinedLabel .. | undefinedValue .. | labelOutside _ | localOutside _ | unsupported _
  | unfinished => .parse
  | symbolRedefined _ | unnamedParameter | emptyBody _ | valueRedefined _ | labelRedefined _
  | latePhi .. | mustName _ | namedVoid .. | unnamedResult _ => .structural
  | contract e => e.kind
  | _ => .typeMismatch

def message : ParseCause → String
  | expected k t => s!"expected {k.name}, got {t.describe}"
  | expectedDefinition t => s!"expected a top-level definition, got {t.describe}"
  | expectedLabel t => s!"expected a block label, got {t.describe}"
  | expectedType t => s!"expected a type, got {t.describe}"
  | expectedOperand t => s!"expected an operand, got {t.describe}"
  | expectedInstruction t => s!"expected an instruction, got {t.describe}"
  | unknownInstruction n => s!"unknown instruction {Text.escape n}"
  | invalidPredicate op t => s!"invalid {op.name} predicate {t.describe}"
  | duplicateHeader => "duplicate module header"
  | earlyEllipsis => "'...' must be the last parameter"
  | arrayLength n => s!"invalid array length {n}"
  | undefinedType n => s!"undefined type %{n}"
  | undefinedSymbol n => s!"use of undefined symbol @{n}"
  | undefinedFunction n => s!"use of undefined function @{n}"
  | undefinedLabel l f => s!"use of undefined label ${l} in @{f}"
  | undefinedValue v f => s!"use of undefined value %{v} in @{f}"
  | labelOutside l => s!"label ${l} outside a function"
  | localOutside n => s!"local %{n} outside a function"
  | unsupported op => s!"unsupported instruction {op.name}"
  | unfinished => "source not read to its end"
  | symbolRedefined n => s!"redefinition of symbol @{n}"
  | unnamedParameter => "definition parameters must be named"
  | emptyBody f => s!"@{f} has an empty body"
  | valueRedefined n => s!"redefinition of %{n}"
  | labelRedefined l => s!"redefinition of label ${l}"
  | latePhi n b => s!"phi %{n} after a non-phi instruction in ${b}"
  | mustName op => s!"{op.name} must name its result"
  | namedVoid op n => s!"{op.mnemonic} produces no value and cannot be named %{n}"
  | unnamedResult op => s!"result of {op.mnemonic} must be named"
  | unsizedGlobal n t => s!"global @{n} of unsized type {t.text}"
  | globalType n t want => s!"global @{n} has type {t.text}, want {want.text}"
  | signature n declared used =>
    s!"@{n} declared as {declared.text} but used as {Ty.optionText used}"
  | valueType n t used => s!"%{n} has type {Ty.optionText t}, used as {used.text}"
  | definitionType n t used =>
    s!"%{n} defined as {Ty.optionText t} but used as {Ty.optionText used}"
  | operandType tok t want => s!"{tok.describe} has type {Ty.optionText t}, want {want.text}"
  | truthType l t => s!"{l} is not a valid {t.text}"
  | unsizedUndef t => s!"undef of unsized type {t.text}"
  | nonPointerNull t => s!"null of non-pointer type {t.text}"
  | integerType l t => s!"integer literal {l} of type {t.text}"
  | integerRange l t => s!"integer literal {l} out of range for {t.text}"
  | floatType l t => s!"float literal {l} of type {t.text}"
  | resultType n declared op t =>
    s!"%{n} is declared {declared.text} but {op.mnemonic} produces {t.text}"
  | switchCase tok => s!"switch case {tok.describe} is not an integer constant"
  | callType t => s!"call type {t.text} is not a function pointer"
  | contract e => e.message

end ParseCause

structure ParseError where
  pos : Position
  cause : ParseCause
deriving Repr, Inhabited

namespace ParseError

def kind (e : ParseError) : ErrorKind := e.cause.kind

def message (e : ParseError) : String := e.cause.message

def text (e : ParseError) : String := s!"{e.pos.text}: {e.kind.name}: {e.message}"

end ParseError

end SsaIr
