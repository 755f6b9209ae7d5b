import SsaIr.Flow.DepthFirst
import SsaIr.Flow.LinkEval

/-!
# Dominator trees

Immediate dominators by semidominators. A first pass takes the reached nodes in descending order of
their numbers, computes each one's semidominator from its predecessors through the link-eval forest,
and gives every node waiting at its parent a first guess; a second pass in ascending order corrects
the guesses. Read `DominatorTree.ofGraph` first.
-/

namespace SsaIr

structure Semidominators where
  semi : Array Nat
  forest : LinkEval
  bucket : Array (List Nat)
  idom : Array (Option Nat)
deriving Repr, Inhabited

namespace Semidominators

/-- The state before the first node: every node is its own semidominator. -/
def start (d : DepthFirst) (size : Nat) : Semidominators where
  semi := d.number
  forest := .new size
  bucket := Array.replicate size []
  idom := Array.replicate size none

def semiOf (s : Semidominators) (v : Nat) : Nat := s.semi.getD v 0

def eval (s : Semidominators) (v : Nat) : Nat × Semidominators :=
  let (u, forest) := s.forest.eval s.semiOf v
  (u, { s with forest })

def lower (d : DepthFirst) (w : Nat) (s : Semidominators) (v : Nat) : Semidominators :=
  if d.reached v then
    let (u, s) := s.eval v
    if s.semiOf u < s.semiOf w then { s with semi := s.semi.setIfInBounds w (s.semiOf u) } else s
  else s

def guess (p : Nat) (s : Semidominators) (v : Nat) : Semidominators :=
  let (u, s) := s.eval v
  let d := if s.semiOf u < s.semiOf v then u else p
  { s with idom := s.idom.setIfInBounds v (some d) }

def wait (d : DepthFirst) (s : Semidominators) (w : Nat) : Semidominators :=
  { s with bucket := s.bucket.modify (d.nodeAt (s.semiOf w)) (· ++ [w]) }

def release (s : Semidominators) (p : Nat) : Semidominators :=
  let s := (s.bucket.getD p []).foldl (guess p) s
  { s with bucket := s.bucket.setIfInBounds p [] }

def node (g : FlowGraph) (d : DepthFirst) (s : Semidominators) (w : Nat) : Semidominators :=
  let s := (g.predsOf w).foldl (lower d w) s
  let s := s.wait d w
  match d.parentOf w with
  | none => s
  | some p => release { s with forest := s.forest.link p w } p

def run (g : FlowGraph) (d : DepthFirst) : Semidominators :=
  (d.order.toList.drop 1).reverse.foldl (node g d) (start d g.size)

def correct (d : DepthFirst) (s : Semidominators) (idom : Array (Option Nat)) (w : Nat) :
    Array (Option Nat) :=
  match idom.getD w none with
  | none => idom
  | some u =>
    if u = d.nodeAt (s.semiOf w) then idom else idom.setIfInBounds w (idom.getD u none)

def dominators (d : DepthFirst) (s : Semidominators) : Array (Option Nat) :=
  (d.order.toList.drop 1).foldl (correct d s) s.idom

end Semidominators

structure DominatorTree where
  number : Array Nat
  idom : Array (Option Nat)
  children : Array (List Nat)
  preorder : List Nat
deriving DecidableEq, Repr, Inhabited

namespace DominatorTree

def childLists (order : List Nat) (idom : Array (Option Nat)) : Array (List Nat) :=
  order.foldr
    (fun w lists =>
      match idom.getD w none with
      | some p => lists.modify p (w :: ·)
      | none => lists)
    (Array.replicate idom.size [])

/-- The nodes below those of a list, each before its children, within a bound. -/
def listing (children : Array (List Nat)) : Nat → List Nat → List Nat
  | 0, _ => []
  | _ + 1, [] => []
  | n + 1, v :: rest => v :: listing children n (children.getD v [] ++ rest)

def ofGraph (g : FlowGraph) : DominatorTree :=
  let d := DepthFirst.run g 0
  let idom := Semidominators.dominators d (Semidominators.run g d)
  let children := childLists (d.order.toList.drop 1) idom
  { number := d.number, idom, children, preorder := listing children (g.size + 1) [0] }

def idomOf (t : DominatorTree) (v : Nat) : Option Nat := t.idom.getD v none

def childrenOf (t : DominatorTree) (v : Nat) : List Nat := t.children.getD v []

def reachable (t : DominatorTree) (v : Nat) : Bool := t.number.getD v 0 != 0

/-- The chain of immediate dominators from `v` upwards meets `a`, within a bound. -/
def above (t : DominatorTree) (a : Nat) : Nat → Nat → Bool
  | 0, _ => false
  | n + 1, v =>
    match t.idomOf v with
    | none => false
    | some p => p = a || above t a n p

def dominates (t : DominatorTree) (a b : Nat) : Bool := a = b || t.above a t.idom.size b

end DominatorTree

end SsaIr
