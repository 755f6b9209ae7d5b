import SsaIr.Flow.Frontier
import SsaIr.Graph.Basic

/-!
# Control flow of a function

The flow graph of a function: its blocks in order are the nodes, the first block is the entry, and
the targets of a block's terminator, without repetition, are its successors. `FlowAnalysis` puts the
graph, its dominator tree and the frontiers together and answers questions about blocks.
-/

namespace SsaIr

inductive FlowError where
  | declaration (func : String)
  | foreign (source target func : String)
  | malformed
deriving DecidableEq, Repr, Inhabited

def FlowError.message : FlowError → String
  | declaration f => s!"analysis: function is a declaration: @{f}"
  | foreign s t f => s!"analysis: branch to a block outside the function: ${s} -> ${t} in @{f}"
  | malformed => "analysis: malformed terminator"

/-- A function's blocks and its flow graph on their positions. -/
structure ControlFlow where
  func : FuncId
  blocks : Array BlockId
  graph : FlowGraph
deriving Repr, Inhabited

namespace ControlFlow

def position? (blocks : Array BlockId) (b : BlockId) : Option Nat := blocks.idxOf? b

def targets (c : Context) (func : String) (blocks : Array BlockId) (source : BlockId) :
    List BlockId → Except FlowError (List Nat)
  | [] => .ok []
  | b :: rest =>
    match position? blocks b with
    | none => .error (.foreign (c.block source).name (c.block b).name func)
    | some i => return i :: (← targets c func blocks source rest)

def successors (c : Context) (func : String) (blocks : Array BlockId) :
    List BlockId → Except FlowError (List (List Nat))
  | [] => .ok []
  | b :: rest =>
    match c.blockSuccessors b with
    | none => .error .malformed
    | some bs => do
      let ids ← targets c func blocks b bs
      return ids.eraseDups :: (← successors c func blocks rest)

def ofFunction (c : Context) (f : FuncId) : Except FlowError ControlFlow := do
  let x := c.func f
  if x.blocks.isEmpty then throw (.declaration x.name)
  let succs ← successors c x.name x.blocks x.blocks.toList
  return { func := f, blocks := x.blocks, graph := .ofSuccs succs.toArray }

def size (cf : ControlFlow) : Nat := cf.blocks.size

def nodeOf (cf : ControlFlow) (b : BlockId) : Option Nat := position? cf.blocks b

def blockAt (cf : ControlFlow) (v : Nat) : BlockId := cf.blocks.getD v default

def blocksAt (cf : ControlFlow) (nodes : List Nat) : List BlockId := nodes.map cf.blockAt

end ControlFlow

/-- What is known about the flow of control through a function. -/
structure FlowAnalysis where
  flow : ControlFlow
  tree : DominatorTree
  frontiers : Frontiers
deriving Repr, Inhabited

namespace FlowAnalysis

def ofFlow (flow : ControlFlow) : FlowAnalysis :=
  let tree := DominatorTree.ofGraph flow.graph
  { flow, tree, frontiers := .ofTree flow.graph tree }

def ofFunction (c : Context) (f : FuncId) : Except FlowError FlowAnalysis :=
  return ofFlow (← ControlFlow.ofFunction c f)

def node? (a : FlowAnalysis) (b : Option BlockId) : Option Nat := b.bind a.flow.nodeOf

def reachable (a : FlowAnalysis) (b : Option BlockId) : Bool :=
  match a.node? b with
  | some v => a.tree.reachable v
  | none => false

def idom (a : FlowAnalysis) (b : Option BlockId) : Option BlockId := do
  let v ← a.node? b
  a.flow.blockAt <$> a.tree.idomOf v

def children (a : FlowAnalysis) (b : Option BlockId) : List BlockId :=
  match a.node? b with
  | some v => a.flow.blocksAt (a.tree.childrenOf v)
  | none => []

def frontier? (a : FlowAnalysis) (b : Option BlockId) : Option Bitset :=
  (a.node? b).map a.frontiers.of

def successors (a : FlowAnalysis) (b : Option BlockId) : List BlockId :=
  match a.node? b with
  | some v => a.flow.blocksAt (a.flow.graph.succsOf v)
  | none => []

def predecessors (a : FlowAnalysis) (b : Option BlockId) : List BlockId :=
  match a.node? b with
  | some v => a.flow.blocksAt (a.flow.graph.predsOf v)
  | none => []

/-- One block dominates another. Every block dominates itself, also outside the function. -/
def dominatesBlock (a : FlowAnalysis) (x y : BlockId) : Bool :=
  x = y ||
    match a.flow.nodeOf x, a.flow.nodeOf y with
    | some i, some j => a.tree.dominates i j
    | _, _ => false

/-- One value dominates another as blocks: what is no block dominates everything, and is dominated
by no block. -/
def dominates (a : FlowAnalysis) (x y : Option Value) : Bool :=
  match x, y with
  | some (.block b), some (.block d) => a.dominatesBlock b d
  | some (.block _), _ => false
  | _, _ => true

/-- The iterated dominance frontier of blocks; those outside the function do not count. -/
def iteratedFrontier (a : FlowAnalysis) (blocks : List (Option BlockId)) : Bitset :=
  a.frontiers.iterated (blocks.filterMap a.node?)

end FlowAnalysis

end SsaIr
