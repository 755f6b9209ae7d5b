import SsaIr.Config.Document
import SsaIr.Layout
import SsaIr.Number.FloatText
import SsaIr.Text.Quoted

/-!
# Settings

The settings of the tool, read from a document (`SsaIr.Config.Document`) and written as one.
A document changes the settings that it names and leaves the others as they are. Read `Settings`
and `Settings.read` first; the layout of the document is given once, by the `Entry` lists.
-/

namespace SsaIr

structure Settings where
  stackLimit : Int64 := 1048576
  maxDepth : Int64 := 1024
  layout : LayoutSpec := .host
  verbosity : Int64 := 2
deriving DecidableEq, Repr, Inhabited

namespace Settings

/-- The name of a record in messages, and the page on which its entries are described. -/
structure RecordName where
  name : String
  page : Option String := none
deriving DecidableEq, Repr, Inhabited

inductive ProblemCause where
  | notToml
  | conflict (c : Toml.Conflict)
  | unknownEntry (entry : String) (owner : RecordName)
  | wrongKind (found wanted : String) (need : Option String)
  | integerRange (digits : String)
  | floatRange (numeral : String)
  | noMoment (text : String) (problem : MomentProblem)
deriving DecidableEq, Repr, Inhabited

def ProblemCause.message : ProblemCause → String
  | notToml => "invalid TOML syntax"
  | conflict c => c.message
  | unknownEntry entry owner =>
    let hint :=
      match owner.page with
      | some page => s!", see {page} for available fields"
      | none => ""
    s!"field '{entry}' is not defined in {owner.name}{hint}"
  | wrongKind found wanted need =>
    let hint :=
      match need with
      | some n => s!" (need {n})"
      | none => ""
    s!"cannot unmarshal TOML {found} into {wanted}{hint}"
  | integerRange digits => s!"value {digits} is out of range for int"
  | floatRange numeral =>
    s!"strconv.ParseFloat: parsing {Text.escape numeral}: value out of range"
  | noMoment text problem => s!"parsing time \"{text}\": {problem.message}"

/-- A problem, the line on which it shows, and the entry it is about. -/
structure Problem where
  line : Nat
  entry : Option String := none
  cause : ProblemCause
deriving DecidableEq, Repr, Inhabited

def Problem.message (p : Problem) : String :=
  let entry :=
    match p.entry with
    | some e => s!"({e}) "
    | none => ""
  s!"line {p.line}: {entry}{p.cause.message}"

structure Entry (α : Type) where
  name : String
  read : RecordName → Toml.Field → α → Except Problem α

/-- The kind of a value, and what an entry that cannot take it should have been. -/
def kindOf : Toml.Scalar → String × Option String
  | .integer _ => ("integer", none)
  | .float _ => ("float", none)
  | .text => ("string", none)
  | .flag _ => ("boolean", none)
  | .datetime _ _ => ("datetime", none)
  | .array => ("array", some "slice")

/-- The refusal of a field by an entry that takes something else. A number or a moment that there is
not is refused for that reason. -/
def refuse (owner : RecordName) (entry wanted : String) : Toml.Field → Problem
  | .value (.float numeral) line =>
    let cause :=
      match readFloat numeral with
      | .overflow _ => .floatRange numeral
      | _ => .wrongKind "float" wanted none
    ⟨line, some s!"{owner.name}.{entry}", cause⟩
  | .value (.datetime text moment) line =>
    let cause :=
      match moment.problem? with
      | some problem => .noMoment text problem
      | none => .wrongKind "datetime" wanted none
    ⟨line, some s!"{owner.name}.{entry}", cause⟩
  | .value v line =>
    let (found, need) := kindOf v
    ⟨line, some s!"{owner.name}.{entry}", .wrongKind found wanted need⟩
  | .table line _ _ => ⟨line, none, .wrongKind "table" wanted (some "struct or map")⟩
  | .tables line _ =>
    ⟨line, some s!"{owner.name}.{entry}", .wrongKind "array table" wanted (some "slice")⟩

def signedValue (digits : String) : Int :=
  match Numeral.unsigned digits.toList with
  | (true, ds) => -(Decimal.value ds)
  | (false, ds) => Decimal.value ds

def integerEntry {α : Type} (name : String) (put : α → Int64 → α) : Entry α where
  name
  read owner field r :=
    match field with
    | .value (.integer digits) line =>
      let n := signedValue digits
      if -0x8000000000000000 ≤ n && n < 0x8000000000000000 then .ok (put r (Int64.ofInt n))
      else .error ⟨line, some s!"{owner.name}.{name}", .integerRange digits⟩
    | f => .error (refuse owner name "int" f)

def flagEntry {α : Type} (name : String) (put : α → Bool → α) : Entry α where
  name
  read owner field r :=
    match field with
    | .value (.flag b) _ => .ok (put r b)
    | f => .error (refuse owner name "bool" f)

def readFields {α : Type} (record : RecordName) (entries : List (Entry α)) (r : α) :
    Toml.Fields → Except Problem α
  | [] => .ok r
  | (name, field) :: rest =>
    match entries.find? fun e => e.name = name with
    | none => .error ⟨field.line, none, .unknownEntry name record⟩
    | some e =>
      match e.read record field r with
      | .ok r => readFields record entries r rest
      | .error p => .error p

def recordEntry {α β : Type} (name : String) (record : RecordName) (get : α → β)
    (put : α → β → α) (entries : List (Entry β)) : Entry α where
  name
  read owner field r :=
    match field with
    | .table _ _ fields => (readFields record entries (get r) fields).map (put r)
    | f => .error (refuse owner name record.name f)

def extentEntries : List (Entry Extent) :=
  [integerEntry "Size" fun e n => { e with size := n },
    integerEntry "Align" fun e n => { e with align := n }]

def layoutPage (record : String) : Option String :=
  some ("https://godoc.org/github.com/Karesis/calir-sub000/datalayout#" ++ record)

def extentEntry (name : String) (get : LayoutSpec → Extent)
    (put : LayoutSpec → Extent → LayoutSpec) : Entry LayoutSpec :=
  recordEntry name ⟨"datalayout.Layout", layoutPage "Layout"⟩ get put extentEntries

def layoutEntries : List (Entry LayoutSpec) :=
  [flagEntry "LittleEndian" fun s b => { s with littleEndian := b },
    extentEntry "I1" (·.i1) fun s e => { s with i1 := e },
    extentEntry "I8" (·.i8) fun s e => { s with i8 := e },
    extentEntry "I16" (·.i16) fun s e => { s with i16 := e },
    extentEntry "I32" (·.i32) fun s e => { s with i32 := e },
    extentEntry "I64" (·.i64) fun s e => { s with i64 := e },
    extentEntry "F32" (·.f32) fun s e => { s with f32 := e },
    extentEntry "F64" (·.f64) fun s e => { s with f64 := e },
    extentEntry "Ptr" (·.ptr) fun s e => { s with ptr := e },
    integerEntry "AggregateAlign" fun s n => { s with aggregateAlign := n }]

def entries : List (Entry Settings) :=
  [recordEntry "Interp" ⟨"main.interpConfig", none⟩ id (fun _ s => s)
      [integerEntry "StackLimit" fun s n => { s with stackLimit := n },
        integerEntry "MaxDepth" fun s n => { s with maxDepth := n }],
    recordEntry "DataLayout" ⟨"datalayout.Spec", layoutPage "Spec"⟩ (·.layout)
      (fun s l => { s with layout := l }) layoutEntries,
    recordEntry "Log" ⟨"main.logConfig", none⟩ id (fun _ s => s)
      [integerEntry "Verbosity" fun s n => { s with verbosity := n }]]

def read (s : Settings) (text : String) : Except Problem Settings :=
  match Toml.events text with
  | .error line => .error ⟨line, none, .notToml⟩
  | .ok events =>
    match Toml.Document.ofEvents events with
    | .error e => .error ⟨e.line, none, .conflict e.conflict⟩
    | .ok fields => readFields ⟨"main.calirConfig", none⟩ entries s fields

def entryLine (name value : String) : String := s!"{name} = {value}\n"

def extentLines (name : String) (e : Extent) : String :=
  s!"\n[DataLayout.{name}]\n" ++ entryLine "Size" (toString e.size.toInt)
    ++ entryLine "Align" (toString e.align.toInt)

def text (s : Settings) : String :=
  let l := s.layout
  "[Interp]\n" ++ entryLine "StackLimit" (toString s.stackLimit.toInt)
    ++ entryLine "MaxDepth" (toString s.maxDepth.toInt)
    ++ "\n[DataLayout]\n" ++ entryLine "LittleEndian" (if l.littleEndian then "true" else "false")
    ++ entryLine "AggregateAlign" (toString l.aggregateAlign.toInt)
    ++ extentLines "I1" l.i1 ++ extentLines "I8" l.i8 ++ extentLines "I16" l.i16
    ++ extentLines "I32" l.i32 ++ extentLines "I64" l.i64 ++ extentLines "F32" l.f32
    ++ extentLines "F64" l.f64 ++ extentLines "Ptr" l.ptr
    ++ "\n[Log]\n" ++ entryLine "Verbosity" (toString s.verbosity.toInt)

end Settings

end SsaIr
