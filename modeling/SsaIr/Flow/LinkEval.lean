/-!
# The link-eval forest

A forest of nodes whose links are added one by one. `eval` asks for a node of least rank on the path
from a node up to, but without, the root of its tree; `compress` shortens such a path and remembers
the answer in the labels.
-/

namespace SsaIr

/-- A forest with, for each node, a node of least rank on the part of its path already shortened. -/
structure LinkEval where
  ancestor : Array (Option Nat)
  label : Array Nat
deriving DecidableEq, Repr, Inhabited

namespace LinkEval

def new (size : Nat) : LinkEval where
  ancestor := Array.replicate size none
  label := Array.range size

def ancestorOf (f : LinkEval) (v : Nat) : Option Nat := f.ancestor.getD v none

def labelOf (f : LinkEval) (v : Nat) : Nat := f.label.getD v v

def link (f : LinkEval) (p w : Nat) : LinkEval :=
  { f with ancestor := f.ancestor.setIfInBounds w (some p) }

/-- The nodes on the path from `v` whose grandparent exists, lowest first, within a bound. -/
def path (f : LinkEval) : Nat → Nat → List Nat
  | 0, _ => []
  | n + 1, v =>
    match f.ancestorOf v with
    | none => []
    | some a => if (f.ancestorOf a).isSome then v :: path f n a else []

/-- Attach a node to its grandparent, taking over the parent's label if it is of lesser rank. -/
def shorten (rank : Nat → Nat) (u : Nat) (f : LinkEval) : LinkEval :=
  match f.ancestorOf u with
  | none => f
  | some a =>
    let label := if rank (f.labelOf a) < rank (f.labelOf u) then f.labelOf a else f.labelOf u
    { ancestor := f.ancestor.setIfInBounds u (f.ancestorOf a)
      label := f.label.setIfInBounds u label }

def compress (rank : Nat → Nat) (f : LinkEval) (v : Nat) : LinkEval :=
  (f.path f.ancestor.size v).foldr (shorten rank) f

/-- A node of least rank on the path from `v` without its root, `v` itself if it is a root. -/
def eval (rank : Nat → Nat) (f : LinkEval) (v : Nat) : Nat × LinkEval :=
  match f.ancestorOf v with
  | none => (v, f)
  | some _ =>
    let f := f.compress rank v
    (f.labelOf v, f)

end LinkEval

end SsaIr
