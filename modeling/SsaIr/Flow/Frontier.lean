import SsaIr.Flow.Dominators
import SsaIr.Container.Bitset

/-!
# Dominance frontiers

The frontier of a node holds the nodes where its dominance ends: targets of nodes it dominates that
it does not strictly dominate. Frontiers are computed from the leaves of the dominator tree upwards;
`iterated` closes a list of nodes under taking frontiers.
-/

namespace SsaIr

structure Frontiers where
  sets : Array Bitset
deriving DecidableEq, Repr, Inhabited

namespace Frontiers

def of (f : Frontiers) (v : Nat) : Bitset := f.sets.getD v default

/-- Add to a set those of some nodes that `x` does not dominate immediately. -/
def addEscaping (t : DominatorTree) (x : Nat) (set : Bitset) (nodes : List Nat) : Bitset :=
  nodes.foldl (fun s y => if t.idomOf y = some x then s else s.insert y) set

/-- Compute the frontier of a node from its targets and the frontiers of its children. -/
def node (g : FlowGraph) (t : DominatorTree) (f : Frontiers) (x : Nat) : Frontiers :=
  let own := addEscaping t x (f.of x) (g.succsOf x)
  let all := (t.childrenOf x).foldl (fun s c => addEscaping t x s (f.of c).toList) own
  { f with sets := f.sets.setIfInBounds x all }

def ofTree (g : FlowGraph) (t : DominatorTree) : Frontiers :=
  t.preorder.reverse.foldl (node g t) { sets := Array.replicate g.size (.empty g.size) }

/-- Mark nodes that are not in the set yet, and put them on the work list. -/
def mark : List Nat → Bitset × List Nat → Bitset × List Nat
  | [], s => s
  | d :: ds, (out, work) =>
    if out.contains d then mark ds (out, work) else mark ds (out.insert d, d :: work)

/-- Close a set under frontiers of the nodes of a work list, within a bound. -/
def close (f : Frontiers) : Nat → Bitset → List Nat → Bitset
  | 0, out, _ => out
  | _ + 1, out, [] => out
  | n + 1, out, b :: work =>
    let (out, work) := mark (f.of b).toList (out, work)
    close f n out work

/-- The iterated frontier of some nodes. Every node enters the work list at most once more. -/
def iterated (f : Frontiers) (nodes : List Nat) : Bitset :=
  f.close (nodes.length + f.sets.size + 1) (.empty f.sets.size) nodes.reverse

end Frontiers

end SsaIr
