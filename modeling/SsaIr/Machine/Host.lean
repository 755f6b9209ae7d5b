import SsaIr.Machine.Store

/-!
# Host functions

A program may call functions of its surroundings. Such a function is given as a task: it asks the
machine for one thing after the other, each request with what to do with the answer, and is done in
the end. Calling back into the program is one of the requests, so that the machine keeps control.
What host functions remember from one call to the next is a state that they share.
-/

namespace SsaIr

/-- What a host function is told when it is called. -/
structure HostCall where
  context : Context
  layout : DataLayout
  func : FuncId
  args : List RuntimeValue

/-- What a host function does next, where host functions share a state of type `σ`. A request that
is refused gives its continuation the failure. -/
inductive HostTask (σ : Type) where
  | done (r : Except Failure RuntimeValue)
  | stop (b : Breakdown)
  /-- Look at the state. -/
  | getState (k : σ → HostTask σ)
  /-- Leave another state. -/
  | setState (s : σ) (k : HostTask σ)
  | print (text : String) (k : HostTask σ)
  | read (address : UInt64) (length : Int64) (k : Except Failure (List UInt8) → HostTask σ)
  | write (address : UInt64) (bytes : List UInt8) (k : Except Failure Unit → HostTask σ)
  | readText (address : UInt64) (k : Except Failure String → HostTask σ)
  | load (address : UInt64) (t : Ty) (k : Except Failure RuntimeValue → HostTask σ)
  | store (address : UInt64) (t : Ty) (v : RuntimeValue) (k : Except Failure Unit → HostTask σ)
  | alloc (size align : Int64) (k : Except Failure UInt64 → HostTask σ)
  | functionAt (address : UInt64) (k : Except Failure FuncId → HostTask σ)
  | call (f : FuncId) (args : List RuntimeValue) (k : Except Failure RuntimeValue → HostTask σ)
  /-- Have the interpreter run a function anew, with calls counted from zero. -/
  | run (f : FuncId) (args : List RuntimeValue) (k : Except Failure RuntimeValue → HostTask σ)
  /-- Bind a name to another host function. -/
  | register (name : String) (h : HostCall → HostTask σ) (k : HostTask σ)
  /-- Close the interpreter, whose runs go on nevertheless. -/
  | close (k : HostTask σ)

variable {σ : Type}

namespace HostTask

def value (v : RuntimeValue) : HostTask σ := .done (.ok v)

def fail (message : String) : HostTask σ := .done (.error (.host message))

/-- Go on with an answer, or end with the failure. -/
def orFail {α : Type} (k : α → HostTask σ) : Except Failure α → HostTask σ
  | .ok a => k a
  | .error e => .done (.error e)

end HostTask

/-- A function of the surroundings. -/
abbrev HostFunction (σ : Type) := HostCall → HostTask σ

namespace HostFunction

def putchar : HostFunction σ := fun call =>
  match call.args with
  | [a] =>
    let b := a.toInt.toUInt64.toUInt8
    .print (Text.ofBytes [b])
      (match (call.context.func call.func).ret with
        | .int w => .value (.ofInt w b.toUInt64.toInt64)
        | _ => .value .undef)
  | args => .fail s!"putchar: got {args.length} arguments, want 1"

def printInteger : HostFunction σ := fun call =>
  match call.args with
  | [v] =>
    if v.kind.isInteger then .print s!"{v.toInt.toInt}\n" (.value .undef)
    else .fail "print_i64: want one integer argument"
  | _ => .fail "print_i64: want one integer argument"

def builtin? (name : String) : Option (HostFunction σ) :=
  if name = "putchar" then some putchar
  else if name = "print_i64" then some printInteger
  else none

end HostFunction

end SsaIr
