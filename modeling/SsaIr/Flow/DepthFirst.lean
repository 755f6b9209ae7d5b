import SsaIr.Flow.Graph

/-!
# Depth-first numbering

Numbers the nodes reachable from the entry in the order of a depth-first walk, starting from 1, with
the tree of first visits. The walk is a machine whose stack holds, for every node being visited, the
targets still to be looked at. Read `DepthFirst.step` first.
-/

namespace SsaIr

/-- Nodes numbered in the order found, 0 for those not reached. -/
structure DepthFirst where
  number : Array Nat
  order : Array Nat
  parent : Array (Option Nat)
deriving DecidableEq, Repr, Inhabited

namespace DepthFirst

def unvisited (size : Nat) : DepthFirst where
  number := Array.replicate size 0
  order := #[]
  parent := Array.replicate size none

def numberOf (d : DepthFirst) (v : Nat) : Nat := d.number.getD v 0

def reached (d : DepthFirst) (v : Nat) : Bool := d.numberOf v != 0

def nodeAt (d : DepthFirst) (number : Nat) : Nat := d.order.getD (number - 1) 0

def parentOf (d : DepthFirst) (v : Nat) : Option Nat := d.parent.getD v none

def visit (d : DepthFirst) (v : Nat) (parent : Option Nat) : DepthFirst where
  number := d.number.setIfInBounds v (d.order.size + 1)
  order := d.order.push v
  parent := d.parent.setIfInBounds v parent

/-- A search under way: what is found, and the targets still to look at. -/
structure Walk where
  found : DepthFirst
  stack : List (Nat × List Nat)
deriving Repr, Inhabited

/-- One step of the walk: look at the next target of the innermost node, or leave it. -/
def step (g : FlowGraph) (s : Walk) : Walk :=
  match s.stack with
  | [] => s
  | (_, []) :: rest => { s with stack := rest }
  | (v, w :: ws) :: rest =>
    if s.found.reached w then { s with stack := (v, ws) :: rest }
    else { found := s.found.visit w (some v), stack := (w, g.succsOf w) :: (v, ws) :: rest }

def walk (g : FlowGraph) : Nat → Walk → Walk
  | 0, s => s
  | n + 1, s => if s.stack.isEmpty then s else walk g n (step g s)

/-- Number the nodes reachable from a root. Every edge is looked at once and every node left
once. -/
def run (g : FlowGraph) (root : Nat) : DepthFirst :=
  let start := (unvisited g.size).visit root none
  (walk g (g.size + g.edgeCount + 1) { found := start, stack := [(root, g.succsOf root)] }).found

end DepthFirst

end SsaIr
