import SsaIr.Proofs.Promote.Order
import SsaIr.Proofs.Verify.Replacing

/-!
# The promoted function

What a function is after its cells were promoted. Read `Promoted` first: the program with its phis,
renamed, without what was retired. `promoteFunction_cases` says when promotion gives that.
-/

namespace SsaIr

open Context.Checked Context

namespace Promote

variable {c : Context} {f : FuncId} {a : FlowAnalysis}

/-- The program after promotion: that with its phis, with the operands that renaming gives, and
without what was retired, which nothing reads any more. -/
structure Promoted (c : Context) (a : FlowAnalysis) (d : Context) : Prop where
  sound : d.Sound
  inst : ∀ i, (d.inst i).op = ((planOf c a).program.inst i).op ∧
    (d.inst i).name = ((planOf c a).program.inst i).name ∧
      (d.inst i).type = ((planOf c a).program.inst i).type
  operands : ∀ {i}, i ∉ retired c a →
    (d.inst i).operands = ((planOf c a).walk a).1.operands (planOf c a) i
  insts : ∀ b, (d.block b).insts.toList =
    ((planOf c a).program.block b).insts.toList.filter (· ∉ retired c a)
  block : ∀ b, (d.block b).name = (c.block b).name ∧ (d.block b).parent = (c.block b).parent ∧
    (d.block b).linked = (c.block b).linked
  func : ∀ g, (d.func g).code = (c.func g).code
  arg : ∀ x, (d.arg x).code = (c.arg x).code
  global : ∀ g, (d.global g).code = (c.global g).code
  unread : ∀ {i j}, i ∉ retired c a → some (.inst j) ∈ (d.inst i).operands → j ∉ retired c a

theorem UnreadInOrder.mem {m : Context} {l : List InstId} (h : UnreadInOrder m l) {i j : InstId}
    (hj : j ∈ l) (hread : some (.inst j) ∈ (m.inst i).operands) : i ∈ l := by
  obtain ⟨k, hk⟩ := List.mem_iff_getElem?.mp hj
  obtain ⟨n, hn⟩ := Instruction.mem_operands_iff.mp hread
  exact List.mem_of_mem_take (h k j hk ⟨i, n⟩ hn)

theorem promoteFunction_of_checked (h : c.Checked f a) :
    promoteFunction c f = promoteCells a c := by
  unfold promoteFunction
  rw [h.analysis]
  simp only [h.preds_entry]
  rfl

theorem promoteCells_of_nil (h : c.Checked f a)
    (hcells : cellsOf c a.flow = []) : promoteCells a c = (.ok false, c) := by
  unfold promoteCells
  rw [h.preds_entry, hcells]
  rfl

theorem Renamed.promoted {m d : Context} (hm : Renamed c a m)
    (hunread : UnreadInOrder m (retired c a)) (hd : m.Erased d (retired c a)) : Promoted c a d where
  sound := hd.sound
  inst i := by
    obtain ⟨hop, hname, htype, _⟩ := inst_of_frame hm.frame i
    obtain ⟨hop', hname', htype'⟩ := hd.inst i
    exact ⟨hop'.trans hop, hname'.trans hname, htype'.trans htype⟩
  operands {i} hi := by
    rw [hd.operands, if_neg hi, hm.operands]
  insts b := by
    rw [hd.insts, (block_of_frame hm.frame b).2.2.2]
  block b := by
    obtain ⟨hname, hparent, hlinked⟩ := hd.block b
    obtain ⟨hname', hparent', hlinked', _⟩ := block_of_frame hm.frame b
    obtain ⟨insts, hblock⟩ := addPhis_block c (newPhis c a) b
    have hprogram : (planOf c a).program.block b = { c.block b with insts } := hblock
    rw [hname, hparent, hlinked, hname', hparent', hlinked', hprogram]
    exact ⟨rfl, rfl, rfl⟩
  func g := by
    rw [hd.func, func_of_frame hm.frame, program_func]
  arg x := by
    rw [hd.arg, arg_of_frame hm.frame, program_arg]
  global g := by
    rw [hd.global, global_of_frame hm.frame, program_global]
  unread {i j} hi hread hj := by
    rw [hd.operands, if_neg hi] at hread
    exact hi (hunread.mem hj hread)

theorem promoteFunction_cases (hs : c.Sound) (hw : c.WellFormed f) :
    promoteFunction c f = (.ok false, c) ∨ ∃ a, c.Checked f a ∧
        ((∃ d, promoteFunction c f = (.ok true, d) ∧ Promoted c a d) ∨
          ∃ text n d, promoteFunction c f = (.error (.contract (.stillUsed text n)), d)) := by
  cases hempty : (c.func f).blocks.isEmpty with
  | true =>
    have hflow : FlowAnalysis.ofFunction c f = .error (.declaration (c.func f).name) := by
      unfold FlowAnalysis.ofFunction ControlFlow.ofFunction
      simp only [hempty]
      rfl
    refine .inl ?_
    unfold promoteFunction
    rw [hflow]
  | false =>
    obtain ⟨a, ha, hblocks⟩ := hw.body hempty
    have h : c.Checked f a := hs.checked ha hblocks
    have hpromote := promoteFunction_of_checked h
    by_cases hcells : cellsOf c a.flow = []
    · exact .inl (hpromote.trans (promoteCells_of_nil h hcells))
    · refine .inr ⟨a, h, ?_⟩
      obtain ⟨m, hm, hok, herror⟩ := h.promoteCells_spec hcells
      rw [hpromote]
      by_cases hunread : UnreadInOrder m (retired c a)
      · obtain ⟨d, hd, herased⟩ := hok hunread
        exact .inl ⟨d, hd, hm.promoted hunread herased⟩
      · exact .inr (herror hunread)

end Promote

namespace Promote.Promoted

variable {c d : Context} {f : FuncId} {a : FlowAnalysis} {b : BlockId} {i : InstId}

theorem retired_op (h : c.Checked f a) (hi : i ∈ retired c a) :
    ((planOf c a).program.inst i).op = .load ∨ ((planOf c a).program.inst i).op = .store ∨
      ∃ t, ((planOf c a).program.inst i).op = .alloca t := by
  rcases List.mem_append.mp hi with hi | hi
  · have hretires := (List.mem_filter.mp hi).2
    unfold Plan.retires at hretires
    dsimp only at hretires
    split at hretires
    · rename_i hop
      exact .inl hop
    · rename_i hop
      exact .inr (.inl hop)
    · cases hretires
  · obtain ⟨x, hx, rfl⟩ := List.mem_map.mp hi
    exact .inr (.inr ⟨x.type, h.fits.alloca hx⟩)

theorem phi_not_retired (h : c.Checked f a) (hop : ((planOf c a).program.inst i).op = .phi) :
    i ∉ retired c a := by
  intro hi
  rcases retired_op h hi with hop' | hop' | ⟨t, hop'⟩ <;> rw [hop] at hop' <;> cases hop'

theorem terminator_not_retired (h : c.Checked f a)
    (hop : ((planOf c a).program.inst i).isTerminator = true) : i ∉ retired c a := by
  intro hi
  rw [Instruction.isTerminator] at hop
  rcases retired_op h hi with hop' | hop' | ⟨t, hop'⟩ <;> rw [hop'] at hop <;> cases hop

theorem mem_insts (hd : Promoted c a d) : i ∈ (d.block b).insts ↔
    i ∈ ((planOf c a).program.block b).insts ∧ i ∉ retired c a := by
  rw [← Array.mem_toList_iff, hd.insts, List.mem_filter, Array.mem_toList_iff, decide_eq_true_eq]

theorem typeOf_eq (hd : Promoted c a d) (v : Value) :
    d.typeOf v = (planOf c a).program.typeOf v := by
  cases v with
  | const k => rfl
  | arg x => rw [typeOf, typeOf, program_arg, (Argument.of_code (hd.arg x)).2.1]
  | inst j => rw [typeOf, typeOf, (hd.inst j).2.2]
  | block b => rfl
  | func g => rw [typeOf, typeOf, program_func, (Function.of_code (hd.func g)).2.2.2.2.1]
  | global g => rw [typeOf, typeOf, program_global, (Global.of_code (hd.global g)).2.2.1]

end Promote.Promoted

end SsaIr
