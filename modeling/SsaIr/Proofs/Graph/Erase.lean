import SsaIr.Proofs.Graph.Placed

/-!
# Erasing instructions

What a context is after some instructions were erased. Read `Context.Erased` first, then
`Build.erase_sound`: an instruction that nothing reads is erased and everything else stays, and one
that something reads is refused.
-/

namespace SsaIr

namespace Context

/-- One context is another without some instructions: they have no operands and stand in no block
any more, and all else is the same. -/
structure Erased (c d : Context) (l : List InstId) : Prop where
  inst : ∀ i, (d.inst i).op = (c.inst i).op ∧ (d.inst i).name = (c.inst i).name ∧
    (d.inst i).type = (c.inst i).type
  operands : ∀ i, (d.inst i).operands = if i ∈ l then #[] else (c.inst i).operands
  parent : ∀ i, (d.inst i).parent = if i ∈ l then none else (c.inst i).parent
  block : ∀ b, (d.block b).name = (c.block b).name ∧ (d.block b).parent = (c.block b).parent ∧
    (d.block b).linked = (c.block b).linked
  insts : ∀ b, (d.block b).insts.toList = (c.block b).insts.toList.filter (· ∉ l)
  func : ∀ f, (d.func f).code = (c.func f).code
  arg : ∀ a, (d.arg a).code = (c.arg a).code
  global : ∀ g, (d.global g).code = (c.global g).code
  sound : d.Sound

namespace Erased

variable {c d e : Context}

theorem nil (h : c.Sound) : c.Erased c [] where
  inst _ := ⟨rfl, rfl, rfl⟩
  operands _ := by rw [if_neg List.not_mem_nil]
  parent _ := by rw [if_neg List.not_mem_nil]
  block _ := ⟨rfl, rfl, rfl⟩
  insts b := by
    rw [List.filter_eq_self.mpr]
    intro i _
    simp
  func _ := rfl
  arg _ := rfl
  global _ := rfl
  sound := h

theorem append {l l' : List InstId} (h : c.Erased d l) (h' : d.Erased e l') :
    c.Erased e (l ++ l') where
  inst i := ⟨(h'.inst i).1.trans (h.inst i).1, (h'.inst i).2.1.trans (h.inst i).2.1,
    (h'.inst i).2.2.trans (h.inst i).2.2⟩
  operands i := by
    rw [h'.operands, h.operands]
    by_cases hl : i ∈ l <;> by_cases hl' : i ∈ l' <;> simp [hl, hl']
  parent i := by
    rw [h'.parent, h.parent]
    by_cases hl : i ∈ l <;> by_cases hl' : i ∈ l' <;> simp [hl, hl']
  block b := ⟨(h'.block b).1.trans (h.block b).1, (h'.block b).2.1.trans (h.block b).2.1,
    (h'.block b).2.2.trans (h.block b).2.2⟩
  insts b := by
    rw [h'.insts, h.insts, List.filter_filter]
    refine List.filter_congr fun i _ => ?_
    by_cases hl : i ∈ l <;> by_cases hl' : i ∈ l' <;> simp [hl, hl']
  func f := (h'.func f).trans (h.func f)
  arg a := (h'.arg a).trans (h.arg a)
  global g := (h'.global g).trans (h.global g)
  sound := h'.sound

theorem slot {l : List InstId} (h : c.Erased d l) (u : Use) :
    d.slot u = if u.user ∈ l then none else c.slot u := by
  rw [Context.slot, Instruction.operand, h.operands]
  split <;> rfl

end Erased

variable {c d : Context} {id : InstId} {b : BlockId}

theorem inst_of_frameErase (hlt : id.index < c.insts.size)
    (hframe : d.frame = Build.frameErase c id b) (j : InstId) :
    (d.inst j).op = (c.inst j).op ∧ (d.inst j).name = (c.inst j).name ∧
      (d.inst j).type = (c.inst j).type ∧
        (d.inst j).parent = if id = j then none else (c.inst j).parent := by
  have hsize : c.frame.insts.size = c.insts.size := Array.size_map
  have hread : (d.inst j).frame =
      if id = j then { (c.inst j).frame with parent := none } else (c.inst j).frame := by
    rw [← frame_inst, hframe, Build.frameErase, inst_modifyInst]
    have hinst : (c.frame.modifyBlock b fun x => { x with insts := x.insts.erase id }).inst j =
        (c.inst j).frame := frame_inst c j
    have hsize' : id.index <
        (c.frame.modifyBlock b fun x => { x with insts := x.insts.erase id }).insts.size :=
      hsize.symm ▸ hlt
    simp only [hsize', and_true, hinst]
  by_cases hj : id = j
  all_goals
    simp only [hj, if_true, if_false, Instruction.frame, Instruction.mk.injEq] at hread ⊢
    exact ⟨hread.1, hread.2.1, hread.2.2.1, hread.2.2.2.1⟩

theorem block_of_frameErase (h : c.Standing) (hparent : (c.inst id).parent = some b)
    (hframe : d.frame = Build.frameErase c id b) (b' : BlockId) :
    ((d.block b').name = (c.block b').name ∧ (d.block b').parent = (c.block b').parent ∧
      (d.block b').linked = (c.block b').linked) ∧
        (d.block b').insts.toList = (c.block b').insts.toList.filter (· ∉ [id]) := by
  have hmem := h.inst_mem hparent
  have hlt : b.index < c.frame.blocks.size := Nat.lt_of_lt_of_eq
    (Array.lt_size_of_getD (p := fun x => id ∈ x.insts) hmem (Array.not_mem_empty id))
      Array.size_map.symm
  have hread : (d.block b').code =
      if b = b' then { (c.block b').code with insts := (c.block b').insts.erase id }
      else (c.block b').code := by
    have hblock : (Build.frameErase c id b).block b' =
        (c.frame.modifyBlock b fun x => { x with insts := x.insts.erase id }).block b' := rfl
    rw [← frame_block, hframe, hblock, block_modifyBlock]
    simp only [hlt, and_true, frame_block]
    rfl
  by_cases hb : b = b'
  · subst hb
    rw [if_pos rfl] at hread
    simp only [Block.code, Block.mk.injEq] at hread
    refine ⟨⟨hread.1, hread.2.1, hread.2.2.1⟩, ?_⟩
    rw [hread.2.2.2.1, Array.toList_erase, (h.insts_nodup b).erase_eq_filter]
    refine List.filter_congr fun i _ => ?_
    by_cases hi : i = id <;> simp [hi]
  · rw [if_neg hb] at hread
    simp only [Block.code, Block.mk.injEq] at hread
    refine ⟨⟨hread.1, hread.2.1, hread.2.2.1⟩, ?_⟩
    rw [hread.2.2.2.1, List.filter_eq_self.mpr]
    intro i hi
    have hne : i ≠ id := by
      rintro rfl
      exact hb (Option.some.inj (hparent.symm.trans (h.mem_parent ⟨hi⟩)))
    simp [hne]

theorem Standing.erased (h : c.Standing) (hparent : (c.inst id).parent = some b)
    (hframe : d.frame = Build.frameErase c id b) : d.Standing := by
  have hinst := inst_of_frameErase (inst_lt_of_parent hparent) hframe
  have hblock := block_of_frameErase h hparent hframe
  have hblocks : ∀ f, (d.func f).blocks = (c.func f).blocks := by
    intro f
    refine (Function.of_code ?_).1
    rw [← frame_func, hframe]
    exact frame_func c f
  have hmem : ∀ {i : InstId} {b' : BlockId},
      i ∈ (d.block b').insts ↔ i ∈ (c.block b').insts ∧ id ≠ i := by
    intro i b'
    rw [← Array.mem_toList_iff, (hblock b').2, List.mem_filter, Array.mem_toList_iff,
      decide_eq_true_iff, List.mem_singleton, ne_comm]
  refine ⟨?_, ?_, ?_, ?_, ?_, ?_⟩
  · intro i b' hi
    rw [(hinst i).2.2.2] at hi
    split at hi
    · cases hi
    · rename_i hne
      exact hmem.mpr ⟨h.inst_mem hi, hne⟩
  · intro i b' hi
    obtain ⟨hi, hne⟩ := hmem.mp hi
    rw [(hinst i).2.2.2, if_neg hne]
    exact h.mem_parent hi
  · intro b'
    rw [(hblock b').2]
    exact (h.insts_nodup b').filter _
  · intro b' hlinked
    rw [(hblock b').1.2.1, hblocks]
    exact h.block_mem ((hblock b').1.2.2 ▸ hlinked)
  · intro b' f hb'
    rw [(hblock b').1.2.1, (hblock b').1.2.2]
    exact h.mem_block (hblocks f ▸ hb')
  · intro f
    rw [hblocks]
    exact h.blocks_nodup f

theorem Sound.erased (h : c.Sound) (hparent : (c.inst id).parent = some b)
    (hedit : c.Edited d (Build.frameErase c id b) fun j =>
      if id = j then #[] else (c.inst j).operands) : c.Erased d [id] := by
  have hinst := inst_of_frameErase (inst_lt_of_parent hparent) hedit.frame_eq
  have hblock := block_of_frameErase h.toStanding hparent hedit.frame_eq
  refine ⟨fun i => ⟨(hinst i).1, (hinst i).2.1, (hinst i).2.2.1⟩, fun i => ?_, fun i => ?_,
    fun b' => (hblock b').1, fun b' => (hblock b').2, fun f => ?_, fun a => ?_, fun g => ?_,
    ⟨⟨h.toStanding.erased hparent hedit.frame_eq, ?_⟩, hedit.linked⟩⟩
  · rw [hedit.operands_eq]
    simp only [List.mem_singleton, eq_comm]
  · rw [(hinst i).2.2.2]
    simp only [List.mem_singleton, eq_comm]
  · rw [← frame_func, hedit.frame_eq]
    exact frame_func c f
  · rw [← frame_arg, hedit.frame_eq]
    exact frame_arg c a
  · rw [← frame_global, hedit.frame_eq]
    exact frame_global c g
  · intro i hi
    rw [hedit.operands_eq] at hi
    rw [(hinst i).2.2.2]
    split
    · rename_i heq
      rw [if_pos heq] at hi
      exact absurd rfl hi
    · rename_i hne
      rw [if_neg hne] at hi
      exact h.operands_parent hi

def Unread (c : Context) (i : InstId) : Prop := ∀ u, c.slot u ≠ some (.inst i)

theorem users_eq_nil_iff (h : c.Linked Value.IsLocal) (i : InstId) :
    (c.inst i).users = [] ↔ c.Unread i := by
  rw [List.eq_nil_iff_forall_not_mem]
  exact forall_congr' fun u => not_congr (h.mem_users (v := .inst i) trivial u)

end Context

namespace Build

variable {c : Context} {id : InstId} {b : BlockId}

theorem erase_of_unread (h : c.Sound) (hparent : (c.inst id).parent = some b)
    (hunread : c.Unread id) : ∃ d, erase id c = .ok () d ∧ c.Erased d [id] := by
  obtain ⟨d, hd, hedit⟩ := erase_spec h.linked hparent
    ((Context.users_eq_nil_iff h.linked id).mpr hunread)
  exact ⟨d, hd, h.erased hparent hedit⟩

theorem erase_of_read (h : c.Linked Value.IsLocal) (hread : ¬ c.Unread id) :
    erase id c = .error (.stillUsed (c.instText id) (c.inst id).users.length) c := by
  rw [erase_eq, if_neg (mt (Context.users_eq_nil_iff h id).mp hread)]

end Build

end SsaIr
