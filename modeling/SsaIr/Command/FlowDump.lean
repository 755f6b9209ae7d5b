import SsaIr.Flow.Control
import SsaIr.Text.Quoted

/-!
# Control flow as text

The blocks of a function with their neighbours, immediate dominators and dominance frontiers, as an
indented listing of typed values. Read `BlockReport` and `FlowAnalysis.listing` first.
-/

namespace SsaIr

structure BlockReport where
  name : String
  reachable : Bool
  preds : List String
  succs : List String
  idom : String
  frontier : List String
deriving DecidableEq, Repr, Inhabited

namespace BlockReport

def textValue (s : String) : String :=
  if s = "" then "(string) \"\"" else s!"(string) (len={s.length}) {Text.escape s}"

def braces (indent head : String) (elements : List String) : String :=
  let lines := elements.map fun e => s!"{indent}  {e}"
  let body := if lines.isEmpty then "" else ",\n".intercalate lines ++ "\n"
  s!"{head} \x7b\n{body}{indent}\x7d"

def listHead (type : String) (n : Nat) : String :=
  if n = 0 then s!"({type})" else s!"({type}) (len={n})"

def textList (names : List String) : String :=
  braces "    " (listHead "[]string" names.length) (names.map textValue)

def text (r : BlockReport) : String :=
  braces "  " "(main.blockInfo)"
    [s!"Block: {textValue r.name}",
      s!"Reachable: (bool) {r.reachable}",
      s!"Preds: {textList r.preds}",
      s!"Succs: {textList r.succs}",
      s!"IDom: {textValue r.idom}",
      s!"Frontier: {textList r.frontier}"]

end BlockReport

namespace FlowAnalysis

def report (a : FlowAnalysis) (c : Context) (b : BlockId) : BlockReport :=
  let names (bs : List BlockId) : List String := bs.map fun b => (c.block b).name
  { name := (c.block b).name
    reachable := a.reachable (some b)
    preds := names (a.predecessors (some b))
    succs := names (a.successors (some b))
    idom := ((a.idom (some b)).map fun d => (c.block d).name).getD ""
    frontier := names (a.flow.blocksAt (((a.frontier? (some b)).map Bitset.toList).getD [])) }

def listing (a : FlowAnalysis) (c : Context) : String :=
  let blocks := a.flow.blocks.toList
  BlockReport.braces "" (BlockReport.listHead "[]main.blockInfo" blocks.length)
    (blocks.map fun b => (a.report c b).text) ++ "\n"

end FlowAnalysis

end SsaIr
