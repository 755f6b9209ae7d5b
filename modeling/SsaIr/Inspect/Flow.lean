import SsaIr.Inspect.Describe
import SsaIr.Flow.Control

/-!
# Describing control flow

The analyses of a function (`SsaIr.Flow.Control`) as a `Datum`.
-/

namespace SsaIr

namespace FlowAnalysis

def describeBlock (a : FlowAnalysis) (c : Context) (b : BlockId) : Datum :=
  let v := (a.flow.nodeOf b).getD 0
  let frontier := a.frontiers.of v
  let blocks := a.flow.blocks.toList
  .record [("name", .text (c.block b).name), ("reachable", .flag (a.reachable (some b))),
    ("succs", .numbers (a.flow.graph.succsOf v)), ("preds", .numbers (a.flow.graph.predsOf v)),
    ("successors", c.blockNames (a.successors (some b))),
    ("predecessors", c.blockNames (a.predecessors (some b))),
    ("idom", c.targetName ((a.idom (some b)).map .block)),
    ("idom_id", .number (((a.tree.idomOf v).map Int.ofNat).getD (-1))),
    ("children", .numbers (a.tree.childrenOf v)),
    ("child_names", c.blockNames (a.children (some b))), ("frontier", .text frontier.text),
    ("frontier_names", c.blockNames (a.flow.blocksAt frontier.toList)),
    ("dominates", .flags (blocks.map fun d => a.dominates (some (.block b)) (some (.block d)))),
    ("strictly", .flags (blocks.map fun d => b ≠ d && a.dominatesBlock b d))]

/-- An iterated frontier of the blocks with the given names; other names do not count. -/
def describeIterated (a : FlowAnalysis) (c : Context) (names : List String) : Datum :=
  let blocks := a.flow.blocks.toList
  let set := a.iteratedFrontier
    (names.map fun n => blocks.find? fun b => (c.block b).name = n)
  .list [.text set.text, c.blockNames (a.flow.blocksAt set.toList)]

/-- What the analyses say about a function, with iterated frontiers if they are asked for. -/
def describe (a : FlowAnalysis) (c : Context) (iterated : Option (List (List String))) : Datum :=
  .record
    ([("blocks", .list (a.flow.blocks.toList.map (a.describeBlock c))),
      ("preorder", .numbers a.tree.preorder),
      ("preorder_names", c.blockNames (a.flow.blocksAt a.tree.preorder)),
      ("root", .text (c.block (a.flow.blockAt 0)).name),
      ("entry", .text (c.block (a.flow.blockAt 0)).name)]
    ++ match iterated with
      | some sets => [("idf", .list (sets.map (a.describeIterated c)))]
      | none => [])

/-- What the analyses say about one value over another, and about the first as a block. -/
def describePair (a : FlowAnalysis) (c : Context) (x y : Option Value) : Datum :=
  let b := x.bind Value.block?
  let frontier := a.frontier? b
  .list
    ((if x.isSome then [.flag (a.dominates x y)] else [])
    ++ [.flag (a.reachable b), .flag (a.idom b).isSome, c.blockNames (a.children b),
      .flag frontier.isSome,
      c.blockNames (a.flow.blocksAt ((frontier.map Bitset.toList).getD [])),
      c.blockNames (a.successors b), c.blockNames (a.predecessors b)])

end FlowAnalysis

end SsaIr
