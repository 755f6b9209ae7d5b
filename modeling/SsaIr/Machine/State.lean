import SsaIr.Machine.Host

/-!
# States of the machine

A machine executes one instruction, or serves one request of a host function, at a time. What waits
for the result of a call is kept in a list: frames of program functions and continuations of host
functions, innermost first.
-/

namespace SsaIr

/-- What a run takes as given: the program, the layout of its data and its limits. -/
structure Environment where
  context : Context
  layout : DataLayout
  stackLimit : Int64 := 1048576
  maxDepth : Int64 := 1024

/-- A call of a program function under way: where it is, and what its values are. -/
structure Frame where
  func : FuncId
  block : BlockId
  position : Nat := 0
  previous : Option BlockId := none
  args : Std.TreeMap Nat RuntimeValue := {}
  values : Std.TreeMap Nat RuntimeValue := {}
  stack : Arena := {}

instance : Inhabited Frame := ⟨{ func := default, block := default }⟩

namespace Frame

/-- Give the result of an instruction its value. -/
def bind (fr : Frame) (i : InstId) (v : RuntimeValue) : Frame :=
  { fr with values := fr.values.insert i.index v }

/-- What an argument or an instruction is bound to. -/
def lookup? (fr : Frame) : Value → Option RuntimeValue
  | .arg a => fr.args[a.index]?
  | .inst i => fr.values[i.index]?
  | _ => none

end Frame

/-- What there is from one run to the next: the memory, the host functions and what they
remember. -/
structure Interpreter (σ : Type) where
  store : Store := {}
  hosts : String → Option (HostFunction σ)
  state : σ

/-- Bind a name to a host function. -/
def Interpreter.register {σ : Type} (i : Interpreter σ) (name : String) (h : HostFunction σ) :
    Interpreter σ :=
  { i with hosts := fun n => if n = name then some h else i.hosts n }

/-- Who waits for the result of a call. -/
inductive Waiting (σ : Type) where
  | frame (fr : Frame) (call : InstId)
  | host (f : FuncId) (k : Except Failure RuntimeValue → HostTask σ)

/-- What the machine does next, or how it came to an end. -/
inductive Control (σ : Type) where
  | execute (fr : Frame)
  | call (f : FuncId) (args : List RuntimeValue)
  | serve (f : FuncId) (task : HostTask σ)
  | deliver (r : Except Failure RuntimeValue)
  | finished (r : Except Failure RuntimeValue)
  | broken (b : Breakdown)

/-- An interpreter in the middle of a run. -/
structure Machine (σ : Type) extends Interpreter σ where
  waiting : List (Waiting σ) := []
  depth : Int := 0
  control : Control σ

namespace Machine

def halted {σ : Type} (m : Machine σ) : Bool :=
  match m.control with
  | .finished _ | .broken _ => true
  | _ => false

end Machine

end SsaIr
