import SsaIr.Machine.Step

/-!
# Running functions

An interpreter keeps its store from one run to the next, until it is closed. A run ends with a
value, a failure or a breakdown, or is not finished after the given number of steps.
-/

namespace SsaIr

/-- How a run ends, or `unfinished` when the fuel does not suffice. -/
inductive Outcome where
  | value (v : RuntimeValue)
  | failure (e : Failure)
  | breakdown (b : Breakdown)
  | unfinished
deriving DecidableEq, Repr, Inhabited

namespace Interpreter

variable {σ : Type}

def outcomeOf (m : Machine σ) : Outcome :=
  match m.control with
  | .finished (.ok v) => .value v
  | .finished (.error e) => .failure e
  | .broken b => .breakdown b
  | _ => .unfinished

def run (env : Environment) (fuel : Nat) (i : Interpreter σ) (f : FuncId)
    (args : List RuntimeValue) : Outcome × Interpreter σ :=
  if i.store.closed then (.failure .closed, i)
  else
    match Machine.checkArgs env.context f args with
    | .error (.failure e) => (.failure e, i)
    | .error (.breakdown b) => (.breakdown b, i)
    | .ok _ =>
      let m := Machine.run env fuel { i with control := .call f args }
      (outcomeOf m, m.toInterpreter)

def close (i : Interpreter σ) : Interpreter σ := { i with store := i.store.close }

def takeOutput (i : Interpreter σ) : String × Interpreter σ :=
  (String.join i.store.output.reverse, { i with store := { i.store with output := [] } })

end Interpreter

end SsaIr
