/-!
# Flow graphs

A directed graph on the numbers below its size, with node 0 as the entry. `succs` lists the targets
of each node without repetition, and `preds` is its transpose, in ascending order.
-/

namespace SsaIr

/-- A graph given by its successor and predecessor lists. -/
structure FlowGraph where
  succs : Array (List Nat)
  preds : Array (List Nat)
deriving DecidableEq, Repr, Inhabited

namespace FlowGraph

def transpose (succs : Array (List Nat)) : Array (List Nat) :=
  (List.range succs.size).foldr
    (fun i preds => (succs.getD i []).foldl (fun p j => p.modify j (i :: ·)) preds)
    (Array.replicate succs.size [])

def ofSuccs (succs : Array (List Nat)) : FlowGraph := { succs, preds := transpose succs }

def size (g : FlowGraph) : Nat := g.succs.size

def succsOf (g : FlowGraph) (v : Nat) : List Nat := g.succs.getD v []

def predsOf (g : FlowGraph) (v : Nat) : List Nat := g.preds.getD v []

def edgeCount (g : FlowGraph) : Nat := (g.succs.toList.map List.length).foldl (· + ·) 0

end FlowGraph

end SsaIr
