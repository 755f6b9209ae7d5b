import SsaIr.Builder
import SsaIr.Flow.Control

/-!
# Promoting cells to values

An allocation of the entry block whose cell is only loaded from and stored to is replaced by values:
phis go where different stores meet, every load is replaced by the value that is current at it, and
the loads, stores and the allocation itself are erased. The current values are kept on one stack per
cell during a walk of the dominator tree; the bottom of a stack is the undefined value. Read
`Promote.renameBlock` first, then `promoteFunction`.
-/

namespace SsaIr

inductive PromoteError where
  | flow (e : FlowError)
  | entryTargeted (func : String)
  | contract (e : ContractError)
  | malformed
deriving Repr, Inhabited

def PromoteError.message : PromoteError → String
  | flow e => e.message
  | entryTargeted f => s!"transforms: entry block has predecessors: @{f}"
  | contract e => e.text
  | malformed => "transforms: malformed instruction"

/-- A stack slot to be promoted, with the values that it holds along the tree. -/
structure Cell where
  alloca : InstId
  type : Ty
  stores : List BlockId
  stack : List (Option Value)
deriving Repr, Inhabited

structure PromoteState where
  context : Context
  cells : Array Cell
  phis : List (InstId × Nat) := []
  dead : List InstId := []
deriving Inhabited

abbrev Promote := EStateM PromoteError PromoteState

namespace Promote

def build {α : Type} (x : Build α) : Promote α := fun s =>
  let c := s.context
  let s := { s with context := default }
  match x c with
  | .ok a c => .ok a { s with context := c }
  | .error e c => .error (.contract e) { s with context := c }

/-! ## Finding cells -/

def isPromotable (c : Context) (alloca : InstId) : Bool :=
  (c.inst alloca).users.all fun u =>
    match (c.inst u.user).op with
    | .load => true
    | .store => u.index = 1
    | _ => false

def storeBlocks (c : Context) (flow : ControlFlow) (alloca : InstId) : List BlockId :=
  let blocks := (c.inst alloca).users.filterMap fun u =>
    match (c.inst u.user).op, (c.inst u.user).parent with
    | .store, some b => if (flow.nodeOf b).isSome then some b else none
    | _, _ => none
  blocks.eraseDups

/-- The cell of an instruction, if it is an allocation that can be promoted. -/
def cell? (c : Context) (flow : ControlFlow) (i : InstId) : Option Cell :=
  match (c.inst i).op with
  | .alloca t =>
    if t.isPrimitive && isPromotable c i then
      some { alloca := i, type := t, stores := storeBlocks c flow i,
             stack := [some (.const (.undef t))] }
    else none
  | _ => none

def cellsOf (c : Context) (flow : ControlFlow) : List Cell :=
  (c.block (flow.blockAt 0)).insts.toList.filterMap (cell? c flow)

def knowUndefs : List Cell → Build Unit
  | [] => pure ()
  | x :: rest => do
    discard (Build.undef (some x.type))
    knowUndefs rest

/-! ## Placing phis -/

def namesOf (c : Context) (f : FuncId) : List String :=
  (c.func f).args.toList.map (fun a => (c.arg a).name)
    ++ (c.func f).blocks.toList.flatMap fun b =>
      ((c.block b).insts.toList.map fun i => (c.inst i).name).filter (· ≠ "")

/-- The first of `base`, `base.1`, `base.2`, … that is not taken, within a bound. -/
def freshName (names : List String) (base : String) : Nat → Nat → String
  | 0, _ => base
  | n + 1, i =>
    let name := if i = 0 then base else s!"{base}.{i}"
    if names.contains name then freshName names base n (i + 1) else name

/-- Insert an empty phi for a cell into each of some blocks; gives the names taken afterwards. -/
def placeIn (index : Nat) (t : Ty) (base : String) (names : List String) :
    List BlockId → Promote (List String)
  | [] => return names
  | b :: rest => do
    let label := ((← get).context.block b).name
    let name := freshName names s!"{base}.{label}" (names.length + 1) 0
    let phi ← build ((Builder.phi (some t) name).withBuilder { block := some b })
    modify fun s => { s with phis := (phi, index) :: s.phis }
    placeIn index t base (name :: names) rest

/-- Insert phis for cells, the first of which has the given number, on the iterated frontier of the
blocks that store to them. -/
def placePhis (a : FlowAnalysis) (index : Nat) (names : List String) : List Cell → Promote Unit
  | [] => pure ()
  | x :: rest => do
    let base := ((← get).context.inst x.alloca).name
    let frontier := a.iteratedFrontier (x.stores.map some)
    let names ← placeIn index x.type base names (a.flow.blocksAt frontier.toList)
    placePhis a (index + 1) names rest

/-! ## Renaming -/

def push (index : Nat) (v : Option Value) : Promote Unit :=
  modify fun s =>
    { s with cells := s.cells.modify index fun x => { x with stack := v :: x.stack } }

def pop (index : Nat) : Promote Unit :=
  modify fun s =>
    { s with cells := s.cells.modify index fun x => { x with stack := x.stack.tail } }

def popAll : List Nat → Promote Unit
  | [] => pure ()
  | i :: rest => do
    pop i
    popAll rest

def top (index : Nat) : Promote (Option Value) :=
  return ((← get).cells.getD index default).stack.headD none

def cellAt? (s : PromoteState) (v : Option Value) : Option Nat :=
  match v with
  | some (.inst i) => s.cells.findIdx? fun x => x.alloca = i
  | _ => none

def phiCell? (s : PromoteState) (i : InstId) : Option Nat := s.phis.lookup i

def retire (i : InstId) : Promote Unit := modify fun s => { s with dead := i :: s.dead }

/-- Put the current values into one instruction; gives the cell that got a new one. -/
def renameInst (i : InstId) : Promote (Option Nat) := do
  let s ← get
  let x := s.context.inst i
  match x.op with
  | .phi =>
    match phiCell? s i with
    | none => return none
    | some n =>
      push n (some (.inst i))
      return some n
  | .load =>
    match cellAt? s (x.operand 0) with
    | none => return none
    | some n =>
      match ← top n with
      | none => throw .malformed
      | some v =>
        build (Build.replaceUses (.inst i) v)
        retire i
        return none
  | .store =>
    match cellAt? s (x.operand 1) with
    | none => return none
    | some n =>
      push n (x.operand 0)
      retire i
      return some n
  | _ => return none

/-- Put the current values into instructions, in order; gives the cells that got new values, one
entry for each. -/
def renameInsts : List InstId → Promote (List Nat)
  | [] => return []
  | i :: rest => do
    match ← renameInst i with
    | none => renameInsts rest
    | some n => return n :: (← renameInsts rest)

/-- Give inserted phis the current values for control that comes from a block. -/
def fillPhis (b : BlockId) : List InstId → Promote Unit
  | [] => pure ()
  | phi :: rest => do
    match phiCell? (← get) phi with
    | none => pure ()
    | some n =>
      let v ← top n
      build (Build.addIncoming phi v (some b))
    fillPhis b rest

def fillSuccessors (b : BlockId) : List BlockId → Promote Unit
  | [] => pure ()
  | succ :: rest => do
    fillPhis b ((← get).context.phis succ)
    fillSuccessors b rest

/-- Rename a block and fill the phis of its successors; gives the cells that got new values. -/
def renameBlock (a : FlowAnalysis) (b : BlockId) : Promote (List Nat) := do
  let pushed ← renameInsts ((← get).context.block b).insts.toList
  fillSuccessors b (a.successors (some b))
  return pushed

mutual
def renameTree (a : FlowAnalysis) : Nat → Nat → Promote Unit
  | 0, _ => pure ()
  | n + 1, v => do
    let pushed ← renameBlock a (a.flow.blockAt v)
    renameTrees a n (a.tree.childrenOf v)
    popAll pushed

def renameTrees (a : FlowAnalysis) : Nat → List Nat → Promote Unit
  | 0, _ => pure ()
  | _ + 1, [] => pure ()
  | n + 1, v :: rest => do
    renameTree a n v
    renameTrees a n rest
end

def renameUnreachable (a : FlowAnalysis) : List BlockId → Promote Unit
  | [] => pure ()
  | b :: rest => do
    if !a.reachable (some b) then popAll (← renameBlock a b)
    renameUnreachable a rest

def eraseAll : List InstId → Promote Unit
  | [] => pure ()
  | i :: rest => do
    build (Build.erase i)
    eraseAll rest

/-- Promote the cells of a function whose first block is no branch target. -/
def cells (a : FlowAnalysis) : Promote Unit := do
  let s ← get
  let found := s.cells.toList
  let names := namesOf s.context a.flow.func
  placePhis a 0 names found
  renameTree a (2 * a.flow.size + 2) 0
  renameUnreachable a a.flow.blocks.toList
  eraseAll (← get).dead.reverse
  eraseAll (found.map (·.alloca))

end Promote

/-- Promote the cells of an analysed function. Gives whether it was changed. A function whose first
block is a branch target is left alone. -/
def promoteCells (a : FlowAnalysis) (c : Context) : Except PromoteError Bool × Context :=
  if !(a.flow.graph.predsOf 0).isEmpty then (.ok false, c)
  else
    let found := Promote.cellsOf c a.flow
    if found.isEmpty then (.ok false, c)
    else
      match Promote.build (Promote.knowUndefs found) { context := c, cells := found.toArray } with
      | .error e s => (.error e, s.context)
      | .ok _ s =>
        match Promote.cells a s with
        | .ok _ s => (.ok true, s.context)
        | .error e s => (.error e, s.context)

/-- Promote the cells of a function. Gives whether it was changed; a declaration never is. -/
def promoteFunction (c : Context) (f : FuncId) : Except PromoteError Bool × Context :=
  match FlowAnalysis.ofFunction c f with
  | .error (.declaration _) => (.ok false, c)
  | .error .malformed => (.error .malformed, c)
  | .error e => (.error (.flow e), c)
  | .ok a =>
    if !(a.flow.graph.predsOf 0).isEmpty then (.error (.entryTargeted (c.func f).name), c)
    else promoteCells a c

end SsaIr
