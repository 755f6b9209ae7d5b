import SsaIr.Builder
import SsaIr.Parse.Error
import SsaIr.Token.Scan
import Std.Data.TreeMap

/-!
# The state of reading

What is known while a source is read: the tokens ahead, the program built so far, functions used
before their declaration, and, inside a function, its labels and values. A value used before its
definition is a stand-in until then. `Parse` carries the state and stops at the first error; a
construction refused by the program graph is reported at a given place, or at the instruction read
last.
-/

namespace SsaIr

structure ParseState where
  stream : TokenStream
  context : Context
  module : ModuleId
  builder : Builder := {}
  headerSeen : Bool := false
  forward : Std.TreeMap String FuncId := {}
  function : Option FuncId := none
  locals : Std.TreeMap String Value := {}
  labels : Std.TreeMap String BlockId := {}
  instPos : Position := {}
  budget : Nat

abbrev Parse := EStateM ParseError ParseState

namespace Parse

def failAt {α : Type} (pos : Position) (cause : ParseCause) : Parse α := throw { pos, cause }

def current : Parse Token := return (← get).stream.current

def peek : Parse Token := return (← get).stream.peek

def at? (kind : TokenKind) : Parse Bool := return (← current).kind = kind

def next : Parse Unit := modify fun s => { s with stream := s.stream.next }

def fail {α : Type} (cause : ParseCause) : Parse α := do failAt (← current).pos cause

/-- Take the current token if it has the given kind, and tell whether it had. -/
def eat (kind : TokenKind) : Parse Bool := do
  if ← at? kind then
    next
    return true
  else return false

def expect (kind : TokenKind) : Parse Token := do
  let t ← current
  if t.kind = kind then
    next
    return t
  else fail (.expected kind t)

def constructAt {α : Type} (pos : Position) (x : Build α) : Parse α := fun s =>
  let c := s.context
  let s := { s with context := default }
  match x c with
  | .ok a c => .ok a { s with context := c }
  | .error e c => .error { pos, cause := .contract e } { s with context := c }

/-- Run a construction, reporting a refusal at the instruction read last. -/
def construct {α : Type} (x : Build α) : Parse α := do
  constructAt (← get).instPos x

/-- Let the builder work, reporting a refusal at the instruction read last. -/
def emit (x : Building InstId) : Parse InstId := fun s =>
  let bench := ⟨s.context, s.builder⟩
  let s := { s with context := default }
  match x bench with
  | .ok i t => .ok i { s with context := t.context, builder := t.builder }
  | .error e t => .error { pos := s.instPos, cause := .contract e } { s with context := t.context }

def inContext {α : Type} (f : Context → α) : Parse α := return f (← get).context

def budget : Parse Nat := return (← get).budget

end Parse

end SsaIr
