import SsaIr.Machine.Value
import SsaIr.Memory.Space
import SsaIr.Opcode

/-!
# Failures of execution

A fault is raised by the machine, each for a cause that fixes its kind and wording; it carries the
name of the innermost program function that was executing. Other failures are refusals of memory and
failures that a host function reports.
-/

namespace SsaIr

inductive Fault where
  | stackOverflow
  | intDivByZero
  | floatDivByZero
  | invalidPointer
  | unlinkedHost
  | badArgument
  | unsupported
deriving DecidableEq, Repr, Inhabited

namespace Fault

def all : List Fault :=
  [.stackOverflow, .intDivByZero, .floatDivByZero, .invalidPointer, .unlinkedHost, .badArgument,
    .unsupported]

def name : Fault → String
  | stackOverflow => "stack overflow"
  | intDivByZero => "integer division by zero"
  | floatDivByZero => "float division by zero"
  | invalidPointer => "invalid pointer"
  | unlinkedHost => "unlinked host function"
  | badArgument => "bad argument"
  | unsupported => "unsupported operation"

def code (f : Fault) : Nat := all.idxOf f + 1

def codeName (code : Int) : String :=
  match if 1 ≤ code then all[(code - 1).toNat]? else none with
  | some f => f.name
  | none => s!"Fault({code})"

end Fault

inductive FaultCause where
  | callDepth
  | allocaSize (size limit : Int64)
  | integerDivision (op : IntOp)
  | floatDivision
  | badAddress (e : MemoryError)
  | notFunction (address : UInt64)
  | unterminatedText (address : UInt64)
  | unlinkedHost (name : String)
  | argumentCount (got want : Nat)
  | argumentKind (n : Nat) (kind : RuntimeKind) (want : Ty)
  | notComputed (operand : String)
  | phiWithoutValue (phi block source : String)
  | openBlock (block : String)
  | notExecutable (op : Opcode)
  | badCast (op : CastOp) (source target : Option Ty)
  | loadAggregate (t : Ty)
  | storeAggregate (t : Ty)
  | storeKind (kind : RuntimeKind) (t : Ty)
  | indirectCall (func : String) (t : Option Ty)
  | hostResult (kind : RuntimeKind) (want : Ty)
  | reported (fault : Fault) (message : String)
deriving DecidableEq, Repr, Inhabited

namespace FaultCause

def fault : FaultCause → Fault
  | callDepth | allocaSize .. => .stackOverflow
  | integerDivision _ => .intDivByZero
  | floatDivision => .floatDivByZero
  | badAddress _ | notFunction _ | unterminatedText _ => .invalidPointer
  | unlinkedHost _ => .unlinkedHost
  | argumentCount .. | argumentKind .. => .badArgument
  | reported f _ => f
  | _ => .unsupported

def message : FaultCause → String
  | callDepth => "call depth limit reached"
  | allocaSize n limit => s!"alloca of {n.toInt} bytes exceeds the {limit.toInt} byte stack"
  | integerDivision op => s!"{op.name} by zero"
  | floatDivision => "fdiv by zero"
  | badAddress e => e.message
  | notFunction a => s!"call through 0x{Text.hex a.toNat}, which is not a function"
  | unterminatedText a => s!"string at 0x{Text.hex a.toNat} is not terminated"
  | unlinkedHost n => s!"call to unregistered host function @{n}"
  | argumentCount got want => s!"got {got} arguments, want {want}"
  | argumentKind n k t => s!"argument {n} is {k.name}, want {t.text}"
  | notComputed v => s!"use of {v} before it was computed"
  | phiWithoutValue phi b source => s!"phi %{phi} in ${b} has no value for {source}"
  | openBlock b => s!"fell off the end of ${b}"
  | notExecutable op => s!"cannot execute {op.mnemonic}"
  | badCast op s t => s!"cannot {op.name} {Ty.optionText s} to {Ty.optionText t}"
  | loadAggregate t => s!"load of aggregate {t.text}"
  | storeAggregate t => s!"store of aggregate {t.text}"
  | storeKind k t => s!"store of {k.name} value as {t.text}"
  | indirectCall f t => s!"indirect call of @{f} through {Ty.optionText t}"
  | hostResult k t => s!"host function returned {k.name}, want {t.text}"
  | reported _ m => m

end FaultCause

structure RuntimeFault where
  cause : FaultCause
  func : String := ""
  pending : Bool := false
deriving DecidableEq, Repr, Inhabited

/-- The errors that a run reports. -/
inductive Failure where
  | fault (f : RuntimeFault)
  | memory (e : MemoryError)
  | globalMemory (global : String) (e : MemoryError)
  | host (message : String)
  | closed
deriving DecidableEq, Repr, Inhabited

namespace Failure

def raise (cause : FaultCause) : Failure := .fault { cause, pending := true }

def charged (func : String) (cause : FaultCause) : Failure := .fault { cause, func }

def leaving (func : String) : Failure → Failure
  | .fault f => .fault (if f.pending && f.func = "" then { f with func } else f)
  | e => e

def text : Failure → String
  | .fault f =>
    if f.func = "" then s!"interp: {f.cause.fault.name}: {f.cause.message}"
    else s!"interp: @{f.func}: {f.cause.fault.name}: {f.cause.message}"
  | .memory e => e.message
  | .globalMemory g e => s!"interp: global @{g}: {e.message}"
  | .host m => m
  | .closed => "interp: interpreter is closed"

end Failure

/-- An error, or a breakdown of the machine itself. -/
inductive Stop where
  | failure (e : Failure)
  | breakdown (b : Breakdown)
deriving Repr, Inhabited

def Stop.ofAddress (e : MemoryError) : Stop :=
  match e.breakdown? with
  | some b => .breakdown b
  | none => .failure (.raise (.badAddress e))

def Stop.ofAllocation (e : MemoryError) : Stop :=
  match e.breakdown? with
  | some b => .breakdown b
  | none => .failure (.memory e)

end SsaIr
