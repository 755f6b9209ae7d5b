import SsaIr.Graph.Construct

/-!
# Operands and their users

Operands are set and cleared together with the record of users of the values they refer to: the
latest use of a value comes first. `Build.replaceUses` moves every use of one value to another, and
`Build.erase` takes an instruction out of its block.
-/

namespace SsaIr

namespace Context

def linkUse (c : Context) (v : Option Value) (u : Use) : Context :=
  match v with
  | some v => c.modifyUsers v (u :: ·)
  | none => c

def unlinkUse (c : Context) (v : Option Value) (u : Use) : Context :=
  match v with
  | some v => c.modifyUsers v (·.erase u)
  | none => c

def setUse (c : Context) (u : Use) (v : Option Value) : Context :=
  let old := (c.inst u.user).operand u.index
  let c := c.unlinkUse old u
  let c := c.modifyInst u.user fun i => { i with operands := i.operands.setIfInBounds u.index v }
  c.linkUse v u

def addOperand (c : Context) (i : InstId) (v : Option Value) : Context :=
  let index := (c.inst i).operands.size
  let c := { c with useCount := c.useCount + 1 }
  let c := c.modifyInst i fun x => { x with operands := x.operands.push v }
  c.linkUse v { user := i, index }

def addOperands (c : Context) (i : InstId) (vs : List (Option Value)) : Context :=
  vs.foldl (fun c v => c.addOperand i v) c

def dropOperands (c : Context) (i : InstId) : Context :=
  let operands := (c.inst i).operands.toList
  let c := operands.zipIdx.foldl (fun c p => c.unlinkUse p.1 { user := i, index := p.2 }) c
  c.modifyInst i fun x => { x with operands := #[] }

def moveUses (c : Context) (uses : List Use) (v : Value) : Context :=
  uses.foldl (fun c u => c.setUse u (some v)) c

end Context

namespace Build

def setOperand (i : InstId) (n : Nat) (v : Option Value) : Build Unit :=
  modify fun c => c.setUse { user := i, index := n } v

def replaceUses (old new : Value) : Build Unit := do
  if old = new then return
  let c ← get
  require (c.typeOf old = c.typeOf new)
    (.cannotReplace (c.operandText (some old)) (c.operandText (some new)))
  modify fun c => c.moveUses (c.users old) new

/-- Take an instruction that nothing uses out of its block and clear its operands. -/
def erase (id : InstId) : Build Unit := do
  let c ← get
  let i := c.inst id
  require i.users.isEmpty (.stillUsed (c.instText id) i.users.length)
  match i.parent with
  | none => pure ()
  | some b =>
    modify fun c => c.modifyBlock b fun x => { x with insts := x.insts.erase id }
    modify fun c => c.dropOperands id
    modify fun c => c.modifyInst id fun x => { x with parent := none }

def addIncoming (id : InstId) (v : Option Value) (b : Option BlockId) : Build Unit := do
  let c ← get
  let i := c.inst id
  require i.isPhi (.incomingOnOther i.op.opcode)
  match v, b with
  | some value, some block =>
    require (c.typeOf value = some i.type) (.incomingType i.name (c.operandText v) i.type)
    modify fun c => c.addOperands id [some value, some (.block block)]
  | _, _ => throw (.incomingMissing i.name)

def sameCase (a b : Const) : Bool := a = b || (a.isInt && b.isInt && a.intValue = b.intValue)

def addCase (id : InstId) (k : Option Const) (dest : Option BlockId) : Build Unit := do
  let c ← get
  let i := c.inst id
  require (i.op = .switch) (.caseOnOther i.op.opcode)
  match k, dest with
  | some value, some block =>
    let condition := c.typeOf? (i.operand 0)
    require (some value.type = condition)
      (.caseType (c.operandText (some (.const value))) condition)
    let taken := i.cases.any fun p =>
      match p.1 with
      | some (.const old) => sameCase old value
      | _ => false
    require (!taken) (.duplicateCase value.literal)
    modify fun c => c.addOperands id [some (.const value), some (.block block)]
  | _, _ => throw .caseMissing

end Build

end SsaIr
