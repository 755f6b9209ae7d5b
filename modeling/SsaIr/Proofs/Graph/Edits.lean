import SsaIr.Builder
import SsaIr.Proofs.Computation
import SsaIr.Proofs.Graph.Linked

/-!
# What edits of a program do

One description for each way to edit a program: replacing a value, adding incoming pairs to a phi,
making an instruction and erasing one. Each says when the edit succeeds, what it does to the frame
and to the operands, and that users still mirror operands. Read `Context.Edited` first.
-/

namespace SsaIr

open Context EStateM

variable {b : BlockId}

def Value.IsLocal : Value → Prop
  | .arg _ | .inst _ => True
  | _ => False

instance : DecidablePred Value.IsLocal
  | .arg _ => inferInstanceAs (Decidable True)
  | .inst _ => inferInstanceAs (Decidable True)
  | .const _ => inferInstanceAs (Decidable False)
  | .block _ => inferInstanceAs (Decidable False)
  | .func _ => inferInstanceAs (Decidable False)
  | .global _ => inferInstanceAs (Decidable False)

namespace Context

theorem Linked.of_local {c d : Context} (h : c.Linked Value.IsLocal) (hargs : d.args = c.args)
    (hinsts : d.insts = c.insts) : d.Linked Value.IsLocal := by
  refine h.congr (fun v hv => ?_) fun u => by rw [slot, slot, inst, inst, hinsts]
  cases v with
  | arg a => rw [users, users, arg, arg, hargs]
  | inst i => rw [users, users, inst, inst, hinsts]
  | _ => exact hv.elim

theorem tracks_modifyBlock (c : Context) (b : BlockId) (f : Block → Block) (v : Value) :
    (c.modifyBlock b f).Tracks v ↔ c.Tracks v := by
  cases v <;> simp only [Tracks, modifyBlock, Array.size_modify, constIndex?]

theorem slot_modifyInst (c : Context) (i : InstId) {f : Instruction → Instruction}
    (hf : ∀ x, (f x).operands = x.operands) (u : Use) : (c.modifyInst i f).slot u = c.slot u := by
  rw [slot, slot, inst_modifyInst]
  split
  · rw [Instruction.operand, Instruction.operand, hf]
  · rfl

section There

variable {c : Context}

theorem inst_lt_of_parent {i : InstId} (h : (c.inst i).parent = some b) :
    i.index < c.insts.size :=
  Array.lt_size_of_getD (p := fun x => x.parent = some b) h nofun

theorem block_lt_of_linked (h : (c.block b).linked = true) : b.index < c.blocks.size :=
  Array.lt_size_of_getD (p := fun x => x.linked = true) h nofun

theorem func_lt_of_linked {f : FuncId} (h : (c.func f).linked = true) :
    f.index < c.functions.size :=
  Array.lt_size_of_getD (p := fun x => x.linked = true) h nofun

theorem func_lt_of_arg {f : FuncId} {n : Nat} {a : ArgId} (h : (c.func f).args[n]? = some a) :
    f.index < c.functions.size :=
  Array.lt_size_of_getD (p := fun x => x.args[n]? = some a) h
    (by simp [default, instInhabitedFunction.default])

theorem arg_lt_of_index {a : ArgId} {n : Nat} (h : (c.arg a).index = some n) :
    a.index < c.args.size :=
  Array.lt_size_of_getD (p := fun x => x.index = some n) h nofun

end There

/-- One context has the frame and the operands given, keeps users of the same values as another, and
its users mirror its operands. -/
structure Edited (c d : Context) (frame : Context) (operands : InstId → Array (Option Value)) :
    Prop where
  frame_eq : d.frame = frame
  operands_eq : ∀ i, (d.inst i).operands = operands i
  tracks : ∀ v, c.Tracks v → d.Tracks v
  linked : d.Linked Value.IsLocal

variable {c d : Context} {T : Value → Prop}

theorem addOperands_spec (h : c.Linked T) {i : InstId} (hi : i.index < c.insts.size)
    (vs : List (Option Value)) (hvs : ∀ v, some v ∈ vs → T v → c.Tracks v) :
    (c.addOperands i vs).frame = c.frame ∧ (c.addOperands i vs).Linked T ∧
      (∀ v, (c.addOperands i vs).Tracks v ↔ c.Tracks v) ∧
      (∀ j, ((c.addOperands i vs).inst j).operands =
        if i = j then (c.inst i).operands ++ vs.toArray else (c.inst j).operands) := by
  induction vs generalizing c with
  | nil =>
    refine ⟨rfl, h, fun _ => Iff.rfl, fun j => ?_⟩
    split
    · rename_i hij
      rw [hij]
      exact (Array.append_empty).symm
    · rfl
  | cons v vs ih =>
    have hsize : (c.addOperand i v).insts.size = c.insts.size := by
      rw [← code_insts_size, code_addOperand, pushOperand, modifyInst, Array.size_modify,
        code_insts_size]
    have hops : ∀ j, ((c.addOperand i v).inst j).operands =
        if i = j then (c.inst i).operands.push v else (c.inst j).operands := by
      intro j
      rw [← operands_code, code_addOperand, pushOperand, inst_modifyInst]
      by_cases hij : i = j
      · subst hij
        rw [if_pos ⟨rfl, by rw [code_insts_size]; exact hi⟩, if_pos rfl, code_inst]
        rfl
      · rw [if_neg (fun hp => hij hp.1), if_neg hij, operands_code]
    have hlinked : (c.addOperand i v).Linked T := by
      refine h.addOperand hi fun w hw hT => hvs w ?_ hT
      rw [hw]
      exact .head _
    obtain ⟨hframe, hrest, htracks, hoperands⟩ := ih hlinked (by rw [hsize]; exact hi)
      (fun w hw hT => (tracks_addOperand c i v w).mpr (hvs w (.tail _ hw) hT))
    refine ⟨hframe.trans (frame_addOperand c i v), hrest,
      fun w => (htracks w).trans (tracks_addOperand c i v w), fun j => (hoperands j).trans ?_⟩
    rw [hops, hops, if_pos rfl]
    split
    · simp
    · rfl

end Context

namespace Build

section Require

variable {σ : Type} {s t : σ} {condition : Bool} {e : ContractError}

theorem require_eq_ok_iff : require condition e s = .ok () t ↔ condition = true ∧ s = t := by
  cases condition with
  | true =>
    rw [require, if_pos rfl, pure_apply, EStateM.Result.ok.injEq]
    exact and_congr_left' ⟨fun _ => rfl, fun _ => rfl⟩
  | false =>
    rw [require, if_neg (by decide), throw_apply]
    simp

theorem require_bind_eq_ok_iff {α : Type} {f : Unit → EStateM ContractError σ α} {a : α} :
    (require condition e >>= f) s = .ok a t ↔ condition = true ∧ f () s = .ok a t := by
  rw [bind_eq_ok_iff]
  constructor
  · rintro ⟨⟨⟩, u, h, hf⟩
    obtain ⟨hcond, rfl⟩ := require_eq_ok_iff.mp h
    exact ⟨hcond, hf⟩
  · rintro ⟨hcond, hf⟩
    exact ⟨(), s, require_eq_ok_iff.mpr ⟨hcond, rfl⟩, hf⟩

theorem require_of_true (h : condition = true) : require condition e s = .ok () s :=
  require_eq_ok_iff.mpr ⟨h, rfl⟩

theorem require_bind_apply {α : Type} (b : Bool) (e : ContractError)
    (f : Unit → EStateM ContractError σ α) (s : σ) :
    (require b e >>= f) s = if b then f () s else .error e s := by
  cases b <;> rfl

end Require

variable {c d : Context}

theorem replaceUses_eq (c : Context) (old new : Value) :
    replaceUses old new c = if old = new then .ok () c
      else if c.typeOf old = c.typeOf new then .ok () (c.moveUses (c.users old) new)
      else .error (.cannotReplace (c.operandText (some old)) (c.operandText (some new))) c := by
  unfold replaceUses
  by_cases heq : old = new
  · rw [if_pos heq, if_pos heq]
    rfl
  · rw [if_neg heq, if_neg heq, get_bind_apply, require_bind_apply]
    by_cases htype : c.typeOf old = c.typeOf new
    · rw [if_pos (decide_eq_true htype), if_pos htype]
      rfl
    · rw [if_neg (mt of_decide_eq_true htype), if_neg htype]

/-- A context without the operands of an instruction and without its place. -/
def withoutInst (c : Context) (i : InstId) (b : BlockId) : Context :=
  ((c.modifyBlock b fun x => { x with insts := x.insts.erase i }).dropOperands i).modifyInst i
    fun x => { x with parent := none }

theorem erase_eq (c : Context) (i : InstId) : erase i c = if (c.inst i).users = [] then
        match (c.inst i).parent with
        | none => .ok () c
        | some b => .ok () (withoutInst c i b)
      else .error (.stillUsed (c.instText i) (c.inst i).users.length) c := by
  rw [erase, get_bind_apply, require_bind_apply]
  simp only [List.isEmpty_iff]
  split
  · cases (c.inst i).parent <;> rfl
  · rfl

theorem replaceUses_spec (h : c.Linked Value.IsLocal) {old new : Value} (hold : old.IsLocal)
    (hnew : new.IsLocal → c.Tracks new) (htype : c.typeOf old = c.typeOf new) :
    ∃ d, replaceUses old new c = .ok () d ∧ c.Edited d c.frame fun i =>
      (c.inst i).operands.map (substOperand old new) := by
  by_cases heq : old = new
  · refine ⟨c, ?_, rfl, fun i => ?_, fun _ => id, h⟩
    · rw [replaceUses_eq, if_pos heq]
    · have hid : substOperand old new = id := by
        funext v
        unfold substOperand
        split
        · rename_i hv
          rw [hv, heq]
          rfl
        · rfl
      rw [hid, Array.map_id]
  · obtain ⟨hwire, hlinked, hops⟩ := moveUsers_spec h hold hnew
    refine ⟨_, ?_, hwire.frame, hops, fun v => (hwire.tracks v).mpr, hlinked⟩
    rw [replaceUses_eq, if_neg heq, if_pos htype]

theorem addIncoming_spec (h : c.Linked Value.IsLocal) {id : InstId} {v : Value}
    (hid : id.index < c.insts.size) (hphi : (c.inst id).isPhi = true)
    (htype : c.typeOf v = some (c.inst id).type) (hv : v.IsLocal → c.Tracks v) :
    ∃ d, addIncoming id (some v) (some b) c = .ok () d ∧ c.Edited d c.frame fun j =>
      if id = j then (c.inst id).operands ++ #[some v, some (.block b)]
      else (c.inst j).operands := by
  obtain ⟨hframe, hlinked, htracks, hops⟩ := addOperands_spec h hid
    [some v, some (.block b)] (by
      intro w hw hlocal
      rcases List.mem_cons.mp hw with hw | hw
      · cases hw
        exact hv hlocal
      · cases List.mem_singleton.mp hw
        exact hlocal.elim)
  refine ⟨_, ?_, hframe, hops, fun w => (htracks w).mpr, hlinked⟩
  unfold addIncoming
  rw [bind_of_ok (get_apply c), bind_of_ok (require_of_true hphi)]
  exact bind_of_ok (require_of_true (decide_eq_true htype))

def frameErase (c : Context) (id : InstId) (b : BlockId) : Context :=
  (c.frame.modifyBlock b fun x => { x with insts := x.insts.erase id }).modifyInst id
    fun x => { x with parent := none }

theorem erase_spec (h : c.Linked Value.IsLocal) {id : InstId}
    (hparent : (c.inst id).parent = some b) (husers : (c.inst id).users = []) :
    ∃ d, erase id c = .ok () d ∧ c.Edited d (frameErase c id b) fun j =>
      if id = j then #[] else (c.inst j).operands := by
  let e := c.modifyBlock b fun x => { x with insts := x.insts.erase id }
  have helinked : e.Linked Value.IsLocal := h.of_local rfl rfl
  refine ⟨withoutInst c id b, ?_, ?_, ?_, ?_, ?_⟩
  · rw [erase_eq, if_pos husers, hparent]
  · have hframe : ((e.dropOperands id).modifyInst id fun x => { x with parent := none }).frame =
        (e.dropOperands id).frame.modifyInst id fun x => { x with parent := none } := by
      simp only [frame, modifyInst, code]
      rw [Array.map_modify]
      exact fun _ => rfl
    have hblock : e.frame = c.frame.modifyBlock b fun x =>
        { x with insts := x.insts.erase id } := by
      simp only [e, frame, modifyBlock, code]
      rw [Array.map_modify]
      exact fun _ => rfl
    rw [withoutInst, hframe, frame_dropOperands, hblock]
    rfl
  · intro j
    have hops : (((e.dropOperands id).modifyInst id fun x => { x with parent := none }).inst
        j).operands = ((e.dropOperands id).inst j).operands := by
      rw [inst_modifyInst]
      split <;> rfl
    rw [withoutInst, hops, ← operands_code, code_dropOperands, clearOperands, inst_modifyInst]
    by_cases hj : id = j
    · subst hj
      rw [if_pos rfl]
      split
      · rfl
      · rename_i hlt
        refine absurd ⟨rfl, ?_⟩ hlt
        rw [code_insts_size]
        exact inst_lt_of_parent hparent
    · rw [if_neg hj, if_neg (fun hp => hj hp.1), operands_code]
      rfl
  · intro v hv
    rwa [withoutInst, tracks_modifyInst, tracks_dropOperands, tracks_modifyBlock]
  · refine (helinked.dropOperands id).congr (fun v _ => ?_) fun u => ?_
    · rw [withoutInst, users_modifyInst]
      exact fun _ => rfl
    · rw [withoutInst, slot_modifyInst]
      exact fun _ => rfl

end Build

/-! ## Making instructions -/

namespace Context

/-- A context with one more instruction, which has no operands yet and is in no list. -/
def withInst (c : Context) (x : Instruction) : Context :=
  { c with insts := c.insts.push x, instCount := c.instCount + 1 }

/-- The place where a new instruction goes: phis after the phis, all others at the end. -/
def newPosition (c : Context) (b : BlockId) (op : Operation) : Nat :=
  if op.isPhi then (c.phis b).length else (c.block b).insts.size

def enterInst (c : Context) (b : BlockId) (position : Nat) (id : InstId) : Context :=
  c.modifyBlock b fun x => { x with insts := x.insts.insertIdxIfInBounds position id }

def emitted (c : Context) (b : BlockId) (op : Operation) (name : String) (type : Ty)
    (operands : List (Option Value)) : Context :=
  ((c.withInst { op, name, type, parent := some b }).addOperands
    ⟨c.insts.size⟩ operands).enterInst b
    (c.newPosition b op) ⟨c.insts.size⟩

def frameEmit (c : Context) (b : BlockId) (op : Operation) (name : String) (type : Ty) : Context :=
  ({ c.frame with insts := c.frame.insts.push { op, name, type, parent := some b } } :
    Context).enterInst b (c.newPosition b op) ⟨c.insts.size⟩

variable {c : Context} {x : Instruction}

theorem inst_withInst (c : Context) (x : Instruction) (j : InstId) :
    (c.withInst x).inst j = if j.index = c.insts.size then x else c.inst j :=
  Array.getD_push c.insts x j.index default

theorem users_withInst (c : Context) (hx : x.users = []) (v : Value) :
    (c.withInst x).users v = c.users v := by
  cases v with
  | inst j => exact Array.apply_getD_push Instruction.users c.insts hx j.index
  | _ => rfl

theorem slot_withInst (c : Context) (hx : x.operands = #[]) (u : Use) :
    (c.withInst x).slot u = c.slot u :=
  Array.apply_getD_push (fun y : Instruction => y.operand u.index) c.insts
    (by rw [Instruction.operand, hx]; rfl) u.user.index

theorem lt_withInst (c : Context) (x : Instruction) : c.insts.size < (c.withInst x).insts.size :=
  Nat.lt_of_lt_of_eq (Nat.lt_succ_self _) (Array.size_push x).symm

theorem tracks_withInst {v : Value} (hv : c.Tracks v) : (c.withInst x).Tracks v := by
  cases v with
  | inst j => exact Nat.lt_trans hv (c.lt_withInst x)
  | _ => exact hv

theorem emitted_spec (h : c.Linked Value.IsLocal) (b : BlockId) (op : Operation) (name : String)
    (type : Ty) (operands : List (Option Value))
    (hops : ∀ v, some v ∈ operands → v.IsLocal → c.Tracks v) :
    c.Edited (c.emitted b op name type operands) (c.frameEmit b op name type) (fun j =>
      if j.index = c.insts.size then operands.toArray else (c.inst j).operands) ∧
      (c.emitted b op name type operands).Tracks (.inst ⟨c.insts.size⟩) := by
  let x : Instruction := { op, name, type, parent := some b }
  have hlinked : (c.withInst x).Linked Value.IsLocal :=
    h.congr (fun v _ => c.users_withInst rfl v) (c.slot_withInst rfl)
  obtain ⟨hframe, hlinked', htracks', hoperands⟩ := addOperands_spec hlinked
    (i := ⟨c.insts.size⟩) (c.lt_withInst x) operands fun v hv hlocal =>
      tracks_withInst (hops v hv hlocal)
  let e := (c.withInst x).addOperands ⟨c.insts.size⟩ operands
  -- Entering the instruction into the list of its block changes neither operands nor users.
  have henter : ∀ v, (e.enterInst b (c.newPosition b op) ⟨c.insts.size⟩).Tracks v ↔ e.Tracks v :=
    e.tracks_modifyBlock b _
  refine ⟨⟨?_, fun j => ?_, fun v hv => (henter v).mpr ((htracks' v).mpr (tracks_withInst hv)), ?_⟩,
    ?_⟩
  · have hblock : (e.enterInst b (c.newPosition b op) ⟨c.insts.size⟩).frame =
        e.frame.enterInst b (c.newPosition b op) ⟨c.insts.size⟩ := by
      simp only [enterInst, frame, modifyBlock, code]
      rw [Array.map_modify]
      exact fun _ => rfl
    have hpush : (c.withInst x).frame = { c.frame with insts := c.frame.insts.push x } := by
      simp only [withInst, frame, code, Array.map_push]
      rfl
    show (e.enterInst b (c.newPosition b op) ⟨c.insts.size⟩).frame = _
    rw [hblock, hframe, hpush]
    rfl
  · show (e.inst j).operands = _
    rw [hoperands j]
    cases j with | mk j =>
    by_cases hj : j = c.insts.size
    · subst hj
      rw [if_pos rfl, if_pos rfl, inst_withInst, if_pos rfl]
      exact Array.empty_append
    · have hne : (⟨c.insts.size⟩ : InstId) ≠ ⟨j⟩ := fun heq => hj (InstId.mk.inj heq).symm
      rw [if_neg hne, if_neg hj, inst_withInst, if_neg hj]
  · exact hlinked'.of_local rfl rfl
  · exact (henter _).mpr ((htracks' _).mpr (c.lt_withInst x))

end Context

theorem Building.ofBuild_bind_eq_ok_iff {α β : Type} {x : Build α} {f : α → Building β}
    {s t : Bench} {a : β} : (Building.ofBuild x >>= f) s = .ok a t ↔
      ∃ r c, x s.context = .ok r c ∧ f r ⟨c, s.builder⟩ = .ok a t := by
  rw [bind_eq_ok_iff]
  unfold Building.ofBuild
  cases hx : x s.context with
  | ok r c => simp [hx]
  | error e c => simp [hx]

namespace Builder

variable {b : Builder} {type : Ty} {hint : String}

theorem block_counted : (b.counted type hint).block = b.block := by
  unfold counted
  split
  · rfl
  · split <;> rfl

/-- What making an instruction comes to in a block. -/
theorem emit_eq {s : Bench} {block : BlockId} (hb : s.builder.block = some block)
    (op : Operation) (type : Ty) (hint : String) (operands : List (Option Value)) :
    emit op type hint operands s = .ok ⟨s.context.insts.size⟩
      ⟨s.context.emitted block op (s.builder.resultName type hint) type operands,
        s.builder.counted type hint⟩ := by
  rw [emit, get_bind_apply, hb]
  rfl

end Builder

end SsaIr
