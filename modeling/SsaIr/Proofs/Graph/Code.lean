import SsaIr.Graph.Uses
import SsaIr.Proofs.Arrays

/-!
# The code of a context

What a context says about its programs, without the records it keeps beside them: users, known types
and constants, and counts. Each change of a context is described by what it does to its code, and by
what it does to the users of values. Read `Context.code` first, then `code_setUse`.
-/

namespace SsaIr

def Argument.code (x : Argument) : Argument := { x with users := [] }

def Instruction.code (x : Instruction) : Instruction := { x with users := [] }

def Instruction.frame (x : Instruction) : Instruction := { x with operands := #[], users := [] }

def Block.code (x : Block) : Block := { x with users := [] }

def Function.code (x : Function) : Function := { x with users := [] }

def Global.code (x : Global) : Global := { x with users := [] }

theorem Argument.of_code {x y : Argument} (h : x.code = y.code) :
    x.name = y.name ∧ x.type = y.type ∧ x.parent = y.parent ∧ x.index = y.index :=
  ⟨(congrArg name h :), (congrArg type h :), (congrArg parent h :), (congrArg index h :)⟩

theorem Function.of_code {x y : Function} (h : x.code = y.code) :
    x.blocks = y.blocks ∧ x.args = y.args ∧ x.name = y.name ∧ x.ret = y.ret ∧
    x.signature = y.signature ∧
      x.parent = y.parent ∧ x.linked = y.linked :=
  ⟨(congrArg blocks h :), (congrArg args h :), (congrArg name h :), (congrArg ret h :),
    (congrArg signature h :), (congrArg parent h :), (congrArg linked h :)⟩

theorem Global.of_code {x y : Global} (h : x.code = y.code) :
    x.name = y.name ∧ x.parent = y.parent ∧ x.allocated = y.allocated ∧ x.init = y.init :=
  ⟨(congrArg name h :), (congrArg parent h :), (congrArg allocated h :), (congrArg init h :)⟩

namespace Context

def code (c : Context) : Context where
  types := []
  namedStructs := c.namedStructs
  constants := #[]
  args := c.args.map Argument.code
  insts := c.insts.map Instruction.code
  blocks := c.blocks.map Block.code
  functions := c.functions.map Function.code
  globals := c.globals.map Global.code
  modules := c.modules
  live := c.live

section Readings

variable (c : Context)

@[simp]
theorem code_inst (i : InstId) : c.code.inst i = (c.inst i).code :=
  Array.getD_map Instruction.code c.insts i.index default

theorem operands_code (i : InstId) : (c.code.inst i).operands = (c.inst i).operands := by
  rw [code_inst]
  rfl

@[simp]
theorem code_insts_size : c.code.insts.size = c.insts.size := Array.size_map

@[simp]
theorem code_code : c.code.code = c.code := by
  simp only [code, Array.map_map]
  rfl

end Readings

/-! ## Reading what was changed -/

section Changed

variable (c : Context)

theorem inst_modifyInst (i j : InstId) (f : Instruction → Instruction) : (c.modifyInst i f).inst j =
      if i = j ∧ i.index < c.insts.size then f (c.inst j) else c.inst j := by
  cases i with | mk i => cases j with | mk j =>
  simp only [modifyInst, inst, Array.getD_modify, InstId.mk.injEq]

theorem block_modifyBlock (a b : BlockId) (f : Block → Block) : (c.modifyBlock a f).block b =
      if a = b ∧ a.index < c.blocks.size then f (c.block b) else c.block b := by
  cases a with | mk a => cases b with | mk b =>
  simp only [modifyBlock, block, Array.getD_modify, BlockId.mk.injEq]

theorem func_modifyFunc (f g : FuncId) (h : Function → Function) : (c.modifyFunc f h).func g =
      if f = g ∧ f.index < c.functions.size then h (c.func g) else c.func g := by
  cases f with | mk f => cases g with | mk g =>
  simp only [modifyFunc, func, Array.getD_modify, FuncId.mk.injEq]

theorem arg_modifyArg (a b : ArgId) (f : Argument → Argument) : (c.modifyArg a f).arg b =
      if a = b ∧ a.index < c.args.size then f (c.arg b) else c.arg b := by
  cases a with | mk a => cases b with | mk b =>
  simp only [modifyArg, arg, Array.getD_modify, ArgId.mk.injEq]

end Changed

/-! ## What changes do to the code -/

section Changes

variable (c : Context)

@[simp]
theorem code_modifyUsers (v : Value) (f : List Use → List Use) :
    (c.modifyUsers v f).code = c.code := by
  cases v with
  | const k =>
    simp only [modifyUsers]
    split <;> rfl
  | _ =>
    simp only [modifyUsers, modifyArg, modifyInst, modifyBlock, modifyFunc, modifyGlobal, code]
    rw [Array.map_modify_of_forget]
    exact fun _ => rfl

@[simp]
theorem code_linkUse (v : Option Value) (u : Use) : (c.linkUse v u).code = c.code := by
  cases v with
  | none => rfl
  | some v => exact code_modifyUsers c v _

@[simp]
theorem code_unlinkUse (v : Option Value) (u : Use) : (c.unlinkUse v u).code = c.code := by
  cases v with
  | none => rfl
  | some v => exact code_modifyUsers c v _

theorem code_modifyInst (i : InstId) {f : Instruction → Instruction}
    (hf : ∀ x, (f x).code = f x.code) : (c.modifyInst i f).code = c.code.modifyInst i f := by
  simp only [modifyInst, code, Array.map_modify Instruction.code c.insts i.index hf]

def putOperand (u : Use) (v : Option Value) : Context :=
  c.modifyInst u.user fun i => { i with operands := i.operands.setIfInBounds u.index v }

theorem code_setUse (u : Use) (v : Option Value) : (c.setUse u v).code = c.code.putOperand u v := by
  simp only [setUse, code_linkUse, putOperand]
  rw [code_modifyInst, code_unlinkUse]
  exact fun _ => rfl

def pushOperand (i : InstId) (v : Option Value) : Context :=
  c.modifyInst i fun x => { x with operands := x.operands.push v }

theorem code_addOperand (i : InstId) (v : Option Value) :
    (c.addOperand i v).code = c.code.pushOperand i v := by
  simp only [addOperand, code_linkUse, pushOperand]
  exact code_modifyInst _ _ fun _ => rfl

end Changes

/-! ## Code without operands -/

/-- The programs of a context without operands: what changes of operands leave alone. -/
def frame (c : Context) : Context := { c.code with insts := c.insts.map Instruction.frame }

section Frame

variable (c : Context)

@[simp]
theorem frame_arg (a : ArgId) : c.frame.arg a = (c.arg a).code :=
  Array.getD_map Argument.code c.args a.index default

@[simp]
theorem frame_inst (i : InstId) : c.frame.inst i = (c.inst i).frame :=
  Array.getD_map Instruction.frame c.insts i.index default

@[simp]
theorem frame_block (b : BlockId) : c.frame.block b = (c.block b).code :=
  Array.getD_map Block.code c.blocks b.index default

@[simp]
theorem frame_func (f : FuncId) : c.frame.func f = (c.func f).code :=
  Array.getD_map Function.code c.functions f.index default

@[simp]
theorem frame_global (g : GlobalId) : c.frame.global g = (c.global g).code :=
  Array.getD_map Global.code c.globals g.index default

theorem frame_of_code {c d : Context} (h : c.code = d.code) : c.frame = d.frame := by
  have hframe : ∀ e : Context, e.frame =
      { e.code with insts := e.code.insts.map Instruction.frame } := by
    intro e
    simp only [frame, code, Array.map_map]
    rfl
  rw [hframe c, hframe d, h]

theorem frame_modifyInst (i : InstId) {f : Instruction → Instruction}
    (hf : ∀ x, (f x).frame = x.frame) : (c.modifyInst i f).frame = c.frame := by
  simp only [frame, modifyInst, code,
    Array.map_modify_of_forget Instruction.frame c.insts i.index hf]

variable (u : Use) (i : InstId) (v : Option Value)

@[simp]
theorem frame_putOperand : (c.putOperand u v).frame = c.frame := by
  rw [putOperand, frame_modifyInst]
  exact fun _ => rfl

@[simp]
theorem frame_pushOperand : (c.pushOperand i v).frame = c.frame := by
  rw [pushOperand, frame_modifyInst]
  exact fun _ => rfl

@[simp]
theorem frame_linkUse (v : Option Value) (u : Use) : (c.linkUse v u).frame = c.frame :=
  frame_of_code (code_linkUse c v u)

@[simp]
theorem frame_unlinkUse (v : Option Value) (u : Use) : (c.unlinkUse v u).frame = c.frame :=
  frame_of_code (code_unlinkUse c v u)

@[simp]
theorem frame_setUse : (c.setUse u v).frame = c.frame := by
  have hsteps : c.setUse u v =
      ((c.unlinkUse ((c.inst u.user).operand u.index) u).putOperand u v).linkUse v u := rfl
  rw [hsteps, frame_linkUse, frame_putOperand, frame_unlinkUse]

@[simp]
theorem frame_addOperand : (c.addOperand i v).frame = c.frame := by
  have hsteps : c.addOperand i v =
      (({ c with useCount := c.useCount + 1 } : Context).pushOperand i v).linkUse v
        { user := i, index := (c.inst i).operands.size } := rfl
  rw [hsteps, frame_linkUse, frame_pushOperand]
  rfl

theorem frame_typeOf (v : Value) : c.frame.typeOf v = c.typeOf v := by
  cases v with
  | const k => rfl
  | arg a => simp only [typeOf, frame_arg, Argument.code]
  | inst i => simp only [typeOf, frame_inst, Instruction.frame]
  | block b => rfl
  | func f => simp only [typeOf, frame_func, Function.code]
  | global g => simp only [typeOf, frame_global, Global.code]

theorem frame_phis (b : BlockId) : c.frame.phis b = c.phis b := by
  simp only [phis, frame_block, frame_inst, Block.code, Instruction.frame, Instruction.isPhi]

end Frame

end Context

end SsaIr
