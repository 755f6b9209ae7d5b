import SsaIr.Proofs.Flow.Control
import SsaIr.Proofs.Flow.Tree
import SsaIr.Proofs.Graph.Placed
import SsaIr.Proofs.Promote.Placement
import SsaIr.Proofs.Promote.Renaming

/-!
# Renaming follows its plan

The walk that changes the program does what the plan says: it never fails, the program keeps its
frame, and the operands are those the plan gives. Read `Represents` first: it ties the state of the
walk to what the plan notes; `renameTree_spec` and `renameUnreachable_spec` are the two halves of
the walk.
-/

namespace SsaIr

open EStateM DominatorTree ControlFlow Context List

namespace Promote

variable {p : Plan} {f : FuncId} {r : Renaming} {env : Env} {s : PromoteState} {i : InstId}
  {b : BlockId} {n : Nat}

def stackAt (s : PromoteState) (n : Nat) : List (Option Value) := (s.cells.getD n default).stack

/-- The state of the walk is what the plan notes. -/
structure Represents (p : Plan) (r : Renaming) (s : PromoteState) : Prop where
  frame : s.context.frame = p.program.frame
  operands : ∀ j, (s.context.inst j).operands = r.operands p j
  linked : s.context.Linked Value.IsLocal
  tracks : ∀ v, v.IsLocal → p.program.Tracks v → s.context.Tracks v
  phis : s.phis = p.phis
  dead : s.dead = r.dead
  cells : s.cells.toList.map (·.alloca) = p.cells.map (·.alloca)

def Current (p : Plan) (env : Env) (s : PromoteState) : Prop :=
  ∀ n < p.cells.length, (stackAt s n).head? = some (some (env n))

theorem Current.top_eq {p : Plan} {env : Env} {s : PromoteState} (h : Current p env s)
    (hn : n < p.cells.length) : top n s = .ok (some (env n)) s := by
  show EStateM.Result.ok ((stackAt s n).headD none) s = _
  rw [headD_eq_head?_getD, h n hn]
  rfl

namespace Represents

variable {r' : Renaming} {d : Context}

section

variable (h : Represents p r s)
include h

theorem size : s.cells.size = p.cells.length := by
  have hlen := congrArg List.length h.cells
  rwa [length_map, length_map, Array.length_toList] at hlen

theorem cellAt?_eq (v : Option Value) : cellAt? s v = p.cellOf v := by
  cases v with
  | none => rfl
  | some v =>
    cases v with
    | inst i =>
      have hcells := congrArg (findIdx? fun j => decide (j = i)) h.cells
      rw [findIdx?_map, findIdx?_map] at hcells
      exact (findIdx?_toArray _ s.cells.toList).trans hcells
    | _ => rfl

theorem phiCell?_eq (i : InstId) : phiCell? s i = p.phiOf i := by
  rw [phiCell?, h.phis, Plan.phiOf]

theorem inst_frame (i : InstId) : (s.context.inst i).op = (p.program.inst i).op ∧
      (s.context.inst i).type = (p.program.inst i).type :=
  ⟨(inst_of_frame h.frame i).1, (inst_of_frame h.frame i).2.2.1⟩

theorem operand_eq {i : InstId} (hi : r.filled i = []) (n : Nat) :
    (s.context.inst i).operand n = ((p.program.inst i).operand n).map (resolve r.subst) := by
  rw [Instruction.operand, h.operands, Renaming.operands, hi, Instruction.operand]
  have hmap := Array.getD_map (Option.map (resolve r.subst)) (p.program.inst i).operands n none
  rw [← hmap]
  simp

theorem edit {ops : InstId → Array (Option Value)}
    (hd : s.context.Edited d s.context.frame ops) (hops : ∀ j, ops j = r'.operands p j)
    (hdead : r'.dead = r.dead) : Represents p r' { s with context := d } :=
  { h with
    frame := hd.frame_eq.trans h.frame
    operands := fun j => (hd.operands_eq j).trans (hops j)
    linked := hd.linked
    tracks := fun v hlocal hv => hd.tracks v (h.tracks v hlocal hv)
    dead := h.dead.trans hdead.symm }

end

end Represents

/-! ## Stacks -/

theorem Represents.modifyStack (h : Represents p r s) (n : Nat)
    (g : List (Option Value) → List (Option Value)) :
    Represents p r { s with
      cells := s.cells.modify n fun x => { x with stack := g x.stack } } := by
  refine { h with cells := ?_ }
  rw [← h.cells, ← Array.toList_map, ← Array.toList_map, Array.map_modify_of_forget]
  exact fun _ => rfl

theorem stackAt_modifyStack (s : PromoteState) (n m : Nat)
    (g : List (Option Value) → List (Option Value)) :
    stackAt { s with cells := s.cells.modify n fun x => { x with stack := g x.stack } } m =
      if n = m ∧ n < s.cells.size then g (stackAt s m) else stackAt s m := by
  rw [stackAt, Array.getD_modify]
  split <;> rfl

/-- The stacks have grown by as many values as were pushed. -/
abbrev Pushes (s : PromoteState) (pushed : List Nat) (s' : PromoteState) : Prop :=
  ∀ n, ∃ ws, ws.length = pushed.count n ∧ stackAt s' n = ws ++ stackAt s n

theorem popAll_spec (h : Represents p r s) (pushed : List Nat) :
    ∃ s', popAll pushed s = .ok () s' ∧ Represents p r s' ∧
      ∀ n, stackAt s' n = (stackAt s n).drop (pushed.count n) := by
  induction pushed generalizing s with
  | nil => exact ⟨s, rfl, h, fun n => rfl⟩
  | cons m pushed ih =>
    obtain ⟨s', hs', hrep, hstack⟩ := ih (h.modifyStack m List.tail)
    refine ⟨s', hs', hrep, fun n => (hstack n).trans ?_⟩
    rw [stackAt_modifyStack, count_cons]
    by_cases hmn : m = n
    · subst hmn
      rw [if_pos (beq_self_eq_true m)]
      by_cases hlt : m < s.cells.size
      · rw [if_pos ⟨rfl, hlt⟩, drop_tail]
      · rw [if_neg fun hc => hlt hc.2, stackAt, Array.getD_of_not_lt _ hlt]
        show [].drop _ = [].drop _
        rw [drop_nil, drop_nil]
    · rw [if_neg fun hc => hmn hc.1, if_neg (by simpa using hmn), Nat.add_zero]

/-! ## Blocks -/

/-- Only inserted phis have incoming pairs, with values that their cells may hold. -/
def Renaming.FillsPhis (p : Plan) (r : Renaming) : Prop :=
  ∀ x ∈ r.fills, ∃ n, p.phiOf x.1 = some n ∧ p.Holds n x.2.1

theorem Renaming.FillsPhis.filled_eq_nil (h : r.FillsPhis p) (hi : p.phiOf i = none) :
    r.filled i = [] := by
  rw [Renaming.filled, filter_eq_nil_iff.mpr, flatMap_nil]
  intro x hx heq
  obtain ⟨n, hphi, _⟩ := h x hx
  rw [of_decide_eq_true heq, hi] at hphi
  cases hphi

theorem Renaming.operands_replace (p : Plan) (r : Renaming) (i : InstId) (w : Value) (j : InstId) :
    (r.replace i w).operands p j =
      (r.operands p j).map (substOperand (.inst i) w) := by
  have hfilled : (r.replace i w).filled j =
      (r.filled j).map (substOperand (.inst i) w) := by
    simp only [Renaming.filled, Renaming.replace, filter_map, flatMap_map,
      map_flatMap]
    refine flatMap_congr fun x _ => ?_
    simp only [map_cons, map_nil, substOperand, substValue,
      Option.some.injEq, reduceCtorEq, if_false]
    split <;> rfl
  have hsubst : substOperand (.inst i) w ∘ Option.map (resolve r.subst) =
      Option.map (resolve (r.replace i w).subst) :=
    funext fun v => substOperand_map_resolve i w v
  have hlist : ((r.filled j).map (substOperand (.inst i) w)).toArray =
      (r.filled j).toArray.map (substOperand (.inst i) w) :=
    (map_toArray ..).symm
  rw [Renaming.operands, Renaming.operands, hfilled, Array.map_append, Array.map_map, hsubst, hlist]

theorem Renaming.operands_fill (p : Plan) (r : Renaming) (i : InstId) (v : Value) (b : BlockId)
    (j : InstId) : (r.fill i v b).operands p j =
      if i = j then r.operands p i ++ #[some v, some (.block b)] else r.operands p j := by
  simp only [Renaming.operands, Renaming.filled, Renaming.fill, filter_append,
    flatMap_append]
  by_cases hij : i = j
  · subst hij
    simp
  · simp [hij]

/-- What renaming an instruction achieves: the state is what the plan notes after it, and the new
value of a cell, if there is one, is pushed. -/
def Renames (p : Plan) (s : PromoteState) (before after : Renaming × Env) (pushed : Option Nat)
    (s' : PromoteState) : Prop :=
  Represents p after.1 s' ∧
    (∀ n, stackAt s' n = (if pushed = some n then [some (after.2 n)] else []) ++ stackAt s n) ∧
    ∀ n, pushed ≠ some n → after.2 n = before.2 n

/-- Renaming an instruction does what the plan says. -/
abbrev Performs (p : Plan) (r : Renaming) (env : Env) (s : PromoteState) (i : InstId) : Prop :=
  ∃ pushed s', renameInst i s = .ok pushed s' ∧
    Renames p s (r, env) (p.visitInst (r, env) i) pushed s'

theorem renames_none (h : Represents p r s) : Renames p s (r, env) (r, env) none s :=
  ⟨h, fun _ => rfl, fun _ _ => rfl⟩

theorem push_spec (h : Represents p r s) (env : Env) (hn : n < p.cells.length) (v : Value) :
    ∃ s', push n (some v) s = .ok () s' ∧
      Renames p s (r, env) (r, Function.update env n v) (some n) s' := by
  refine ⟨_, rfl, h.modifyStack n (some v :: ·), fun m => ?_, fun m hm => ?_⟩
  · rw [stackAt_modifyStack, h.size]
    simp only [hn, and_true, Option.some.injEq]
    split
    · rename_i heq
      subst heq
      rw [Function.update_self]
      rfl
    · rfl
  · exact Function.update_of_ne (fun heq => hm (congrArg some heq.symm)) _ _

theorem Represents.retire (h : Represents p r s) (i : InstId) :
    Represents p (r.retire i) { s with dead := i :: s.dead } :=
  { h with dead := congrArg (i :: ·) h.dead }

/-- The invariant of the walk: the state is what the plan notes, the current values are on top of
the stacks, and cells hold what they may. -/
structure Walking (p : Plan) (r : Renaming) (env : Env) (s : PromoteState) : Prop where
  represents : Represents p r s
  fills : r.FillsPhis p
  sane : p.Sane r.subst
  holds : ∀ n < p.cells.length, p.Holds n (env n)
  current : Current p env s

section Instruction

variable (hp : p.Fits f) (h : Walking p r env s)
include hp h

theorem renameInst_phi (hop : (p.program.inst i).op = .phi) : Performs p r env s i := by
  have hop' : (s.context.inst i).op = .phi := (h.represents.inst_frame i).1.trans hop
  have hcell := h.represents.phiCell?_eq i
  unfold Performs renameInst Plan.visitInst
  rw [bind_of_ok (get_apply s)]
  simp only [hop, hop']
  cases hphi : p.phiOf i with rw [hphi] at hcell
  | none =>
    simp only [hcell]
    exact ⟨none, s, rfl, renames_none h.represents⟩
  | some n =>
    simp only [hcell]
    obtain ⟨s', hs', hren⟩ := push_spec h.represents env (hp.phi hphi).1 (.inst i)
    exact ⟨some n, s', bind_of_ok hs', hren⟩

theorem Walking.operand_eq (hop : (p.program.inst i).op ≠ .phi) (n : Nat) :
    (s.context.inst i).operand n = ((p.program.inst i).operand n).map (resolve r.subst) ∧
      cellAt? s ((s.context.inst i).operand n) = p.cellOf ((p.program.inst i).operand n) := by
  have hphi : p.phiOf i = none :=
    Option.eq_none_iff_forall_not_mem.mpr fun n hphi => hop (hp.phi hphi).2.1
  have hoperand := h.represents.operand_eq (h.fills.filled_eq_nil hphi) n
  exact ⟨hoperand, by rw [h.represents.cellAt?_eq, hoperand, h.sane.cellOf_resolve hp]⟩

variable (hb : b ∈ (p.program.func f).blocks) (hi : i ∈ (p.program.block b).insts)
include hb hi

theorem renameInst_load (hop : (p.program.inst i).op = .load) : Performs p r env s i := by
  have hop' : (s.context.inst i).op = .load := (h.represents.inst_frame i).1.trans hop
  have hcell := (h.operand_eq hp (i := i) (by simp [hop]) 0).2
  unfold Performs renameInst Plan.visitInst
  rw [bind_of_ok (get_apply s)]
  simp only [hop, hop', hcell]
  cases hn : p.cellOf ((p.program.inst i).operand 0) with
  | none => exact ⟨none, s, rfl, renames_none h.represents⟩
  | some n =>
    have hlt := Plan.cellOf_lt hn
    have hheld := h.holds n hlt
    have hframe := h.represents.frame
    -- The current value has the type of the load, so that the replacement is not refused.
    have htype : s.context.typeOf (.inst i) = s.context.typeOf (env n) := by
      rw [typeOf_of_frame hframe, typeOf_of_frame hframe, hheld.type,
        ← hp.load hb hi hop hn]
      rfl
    obtain ⟨d, hd, hedit⟩ := @Build.replaceUses_spec _ h.represents.linked (.inst i) (env n)
      trivial (fun hlocal => h.represents.tracks _ hlocal (hheld.tracks hlocal)) htype
    have hrep : Represents p { r.replace i (env n) with dead := r.dead } { s with context := d } :=
      h.represents.edit hedit (fun j => by
        rw [h.represents.operands j]
        exact (r.operands_replace p i (env n) j).symm) rfl
    refine ⟨none, { s with context := d, dead := i :: s.dead }, ?_, hrep.retire i, fun _ => rfl,
      fun _ _ => rfl⟩
    exact (bind_of_ok (h.current.top_eq hlt)).trans (bind_of_ok (build_of_ok hd))

theorem renameInst_store (hop : (p.program.inst i).op = .store) : Performs p r env s i := by
  have hop' : (s.context.inst i).op = .store := (h.represents.inst_frame i).1.trans hop
  have hoperand := h.operand_eq hp (i := i) (by simp [hop])
  have hcell := (hoperand 1).2
  unfold Performs renameInst Plan.visitInst
  rw [bind_of_ok (get_apply s)]
  simp only [hop, hop', hcell]
  cases hn : p.cellOf ((p.program.inst i).operand 1) with
  | none => exact ⟨none, s, rfl, renames_none h.represents⟩
  | some n =>
    obtain ⟨v, hv, _⟩ := hp.store hb hi hop hn
    have hvalue : (s.context.inst i).operand 0 = some (resolve r.subst v) := by
      rw [(hoperand 0).1, hv]
      rfl
    simp only [hv, hvalue]
    obtain ⟨s', hs', hrep, hstack, hsame⟩ :=
      push_spec h.represents env (Plan.cellOf_lt hn) (resolve r.subst v)
    refine ⟨some n, { s' with dead := i :: s'.dead }, ?_, hrep.retire i, hstack, hsame⟩
    exact bind_of_ok hs'

end Instruction

section

variable (hp : p.Fits f)
include hp

theorem visitInst_fillsPhis (h : r.FillsPhis p)
    (hsane : p.Sane (p.visitInst (r, env) i).1.subst) : (p.visitInst (r, env) i).1.FillsPhis p := by
  have hvisit := Plan.visitInst_visit p (r, env) i
  generalize p.visitInst (r, env) i = t at hvisit hsane ⊢
  cases hvisit with
  | phi _ _ _ => exact h
  | @load m _ _ _ =>
    intro x hx
    obtain ⟨y, hy, rfl⟩ := mem_map.mp hx
    obtain ⟨n, hn, hheld⟩ := h y hy
    have hone : p.Sane [(i, env m)] := by
      refine ⟨?_, ?_, ?_, ?_⟩ <;> intro z hz <;> obtain rfl := mem_singleton.mp hz
      · exact hsane.load (.head _)
      · exact hsane.type (.head _)
      · exact hsane.tracks (.head _)
      · exact hsane.plain (.head _)
    exact ⟨n, hn, hheld.resolve hp hone⟩
  | store _ _ _ _ => exact h
  | other _ _ => exact h

theorem renameInst_spec (hb : b ∈ (p.program.func f).blocks) (hi : i ∈ (p.program.block b).insts)
    (h : Walking p r env s) : ∃ pushed s', renameInst i s = .ok pushed s' ∧
      Walking p (p.visitInst (r, env) i).1 (p.visitInst (r, env) i).2 s' ∧
      Pushes s pushed.toList s' := by
  have hren : Performs p r env s i := by
    cases hop : (p.program.inst i).op with
    | phi => exact renameInst_phi hp h hop
    | load => exact renameInst_load hp h hb hi hop
    | store => exact renameInst_store hp h hb hi hop
    | _ =>
      have hop' := (h.represents.inst_frame i).1.trans hop
      refine ⟨none, s, ?_, ?_⟩
      · unfold renameInst
        rw [bind_of_ok (get_apply s)]
        simp only [hop']
        rfl
      · simp only [Plan.visitInst, hop]
        exact renames_none h.represents
  obtain ⟨pushed, s', hs', hrep, hstack, hsame⟩ := hren
  obtain ⟨hsane, hholds⟩ := Plan.visitInst_sane hp hb hi h.sane h.holds
  refine ⟨pushed, s', hs',
    ⟨hrep, visitInst_fillsPhis hp h.fills hsane, hsane, hholds, fun n hn => ?_⟩,
    fun n => ⟨_, ?_, hstack n⟩⟩
  · rw [hstack n]
    split
    · rfl
    · rename_i hne
      rw [hsame n hne]
      exact h.current n hn
  · cases pushed with
    | none => rfl
    | some m =>
      by_cases hmn : m = n
      · subst hmn
        simp
      · simp [hmn]

theorem renameInsts_spec (hb : b ∈ (p.program.func f).blocks) (l : List InstId)
    (hl : ∀ i ∈ l, i ∈ (p.program.block b).insts) (h : Walking p r env s) :
    ∃ pushed s', renameInsts l s = .ok pushed s' ∧
      Walking p (l.foldl p.visitInst (r, env)).1 (l.foldl p.visitInst (r, env)).2 s' ∧
      Pushes s pushed s' := by
  induction l generalizing r env s with
  | nil => exact ⟨[], s, rfl, h, fun n => ⟨[], rfl, rfl⟩⟩
  | cons i l ih =>
    obtain ⟨pushed, s₁, hs₁, hwalk₁, hstack₁⟩ := renameInst_spec hp hb (hl i (.head _)) h
    obtain ⟨rest, s₂, hs₂, hwalk₂, hstack₂⟩ :=
      ih (fun j hj => hl j (.tail _ hj)) hwalk₁
    refine ⟨pushed.toList ++ rest, s₂, ?_, hwalk₂, fun n => ?_⟩
    · unfold renameInsts
      rw [bind_of_ok hs₁]
      cases pushed with
      | none => exact hs₂
      | some m => exact bind_of_ok hs₂
    · obtain ⟨ws₁, hlen₁, heq₁⟩ := hstack₁ n
      obtain ⟨ws₂, hlen₂, heq₂⟩ := hstack₂ n
      refine ⟨ws₂ ++ ws₁, ?_, ?_⟩
      · rw [length_append, count_append, hlen₁, hlen₂, Nat.add_comm]
      · rw [heq₂, heq₁, append_assoc]

theorem fillPhi_spec (b : BlockId) {phi : InstId}
    (hphi : p.phiOf phi = some n) (h : Walking p r env s) :
    ∃ d, Build.addIncoming phi (some (env n)) (some b) s.context = .ok () d ∧
      Walking p (r.fill phi (env n) b) env { s with context := d } := by
  obtain ⟨hn, hop, htype, htracks⟩ := hp.phi hphi
  obtain ⟨hop', htype'⟩ := h.represents.inst_frame phi
  have hheld := h.holds n hn
  have hisPhi : (s.context.inst phi).isPhi = true := by
    rw [Instruction.isPhi, hop', hop]
    rfl
  have hvalue : s.context.typeOf (env n) = some (s.context.inst phi).type := by
    rw [typeOf_of_frame h.represents.frame, hheld.type, htype', htype]
  obtain ⟨d, hd, hedit⟩ := Build.addIncoming_spec h.represents.linked (b := b)
    (h.represents.tracks (.inst phi) trivial htracks) hisPhi hvalue
    fun hlocal => h.represents.tracks _ hlocal (hheld.tracks hlocal)
  refine ⟨d, hd, h.represents.edit hedit (fun j => ?_) rfl, ?_, h.sane, h.holds, h.current⟩
  · rw [r.operands_fill, h.represents.operands, h.represents.operands]
  · intro x hx
    rcases mem_append.mp hx with hx | hx
    · exact h.fills x hx
    · rw [mem_singleton.mp hx]
      exact ⟨n, hphi, hheld⟩

theorem fillPhis_spec (b : BlockId) (l : List InstId) (h : Walking p r env s) :
    ∃ s', fillPhis b l s = .ok () s' ∧ Walking p (l.foldl (p.fillPhi env b) r) env s' ∧
      ∀ n, stackAt s' n = stackAt s n := by
  induction l generalizing r s with
  | nil => exact ⟨s, rfl, h, fun _ => rfl⟩
  | cons phi l ih =>
    have hcell := h.represents.phiCell?_eq phi
    unfold fillPhis
    rw [bind_of_ok (get_apply s), foldl_cons, Plan.fillPhi]
    cases hphi : p.phiOf phi with rw [hphi] at hcell
    | none =>
      simp only [hcell]
      exact ih h
    | some n =>
      simp only [hcell]
      obtain ⟨d, hd, hwalk⟩ := fillPhi_spec hp b hphi h
      obtain ⟨s', hs', hwalk', hstack⟩ := ih hwalk
      exact ⟨s', (bind_of_ok (h.current.top_eq (hp.phi hphi).1)).trans
        ((bind_of_ok (build_of_ok hd)).trans hs'), hwalk', hstack⟩

theorem fillSuccessors_spec (b : BlockId) (targets : List BlockId)
    (h : Walking p r env s) : ∃ s', fillSuccessors b targets s = .ok () s' ∧
      Walking p ((targets.flatMap p.program.phis).foldl (p.fillPhi env b) r) env s' ∧
      ∀ n, stackAt s' n = stackAt s n := by
  induction targets generalizing r s with
  | nil => exact ⟨s, rfl, h, fun _ => rfl⟩
  | cons succ rest ih =>
    have hphis : s.context.phis succ = p.program.phis succ :=
      phis_of_frame h.represents.frame succ
    obtain ⟨s₁, hs₁, hwalk₁, hstack₁⟩ := fillPhis_spec hp b (p.program.phis succ) h
    obtain ⟨s₂, hs₂, hwalk₂, hstack₂⟩ := ih hwalk₁
    refine ⟨s₂, ?_, ?_, fun n => (hstack₂ n).trans (hstack₁ n)⟩
    · unfold fillSuccessors
      rw [bind_of_ok (get_apply s), hphis]
      exact (bind_of_ok hs₁).trans hs₂
    · rwa [flatMap_cons, foldl_append]

theorem renameBlock_spec (a : FlowAnalysis) (hb : b ∈ (p.program.func f).blocks)
    (h : Walking p r env s) :
    let t := p.visitBlock (a.successors (some b)) b (r, env)
    ∃ pushed s', renameBlock a b s = .ok pushed s' ∧ Walking p t.1 t.2 s' ∧ Pushes s pushed s' := by
  intro t
  have hinsts : (s.context.block b).insts = (p.program.block b).insts :=
    (block_of_frame h.represents.frame b).2.2.2
  obtain ⟨pushed, s₁, hs₁, hwalk₁, hstack₁⟩ := renameInsts_spec hp hb
    (p.program.block b).insts.toList (fun i hi => Array.mem_toList_iff.mp hi) h
  obtain ⟨s₂, hs₂, hwalk₂, hstack₂⟩ :=
    fillSuccessors_spec hp b (a.successors (some b)) hwalk₁
  refine ⟨pushed, s₂, ?_, hwalk₂, fun n => ?_⟩
  · unfold renameBlock
    rw [bind_of_ok (get_apply s), hinsts]
    exact (bind_of_ok hs₁).trans (bind_of_ok hs₂)
  · rw [hstack₂]
    exact hstack₁ n

end

theorem Walking.popAll {env' : Env} {s₁ : PromoteState} (h : Walking p r env' s₁)
    (hholds : ∀ n < p.cells.length, p.Holds n (env n)) (hcur : Current p env s) {pushed : List Nat}
    (hstack : Pushes s pushed s₁) : ∃ s', Promote.popAll pushed s₁ = .ok () s' ∧
      Walking p r env s' ∧ ∀ n, stackAt s' n = stackAt s n := by
  obtain ⟨s', hs', hrep, hdrop⟩ := popAll_spec h.represents pushed
  have hback : ∀ n, stackAt s' n = stackAt s n := by
    intro n
    obtain ⟨ws, hlen, heq⟩ := hstack n
    rw [hdrop, heq, ← hlen, drop_left]
  refine ⟨s', hs', ⟨hrep, h.fills, h.sane, hholds, fun n hn => ?_⟩, hback⟩
  rw [hback]
  exact hcur n hn

/-! ## The tree -/

section Tree

variable {a : FlowAnalysis} {g : FlowGraph} {v : Nat}

theorem visitNodes_out {vs : List Nat} {t : Renaming × (Nat → Env)} (hv : v ∉ vs) :
    (p.visitNodes a t vs).2 v = t.2 v := by
  induction vs generalizing t with
  | nil => rfl
  | cons w vs ih =>
    rw [mem_cons, not_or] at hv
    refine (ih (t := p.visitNode a t w) hv.2).trans ?_
    exact Function.update_of_ne hv.1 _ _

theorem renameBlock_node (hp : p.Fits f) (hb : a.flow.blockAt v ∈ (p.program.func f).blocks)
    (out : Nat → Env)
    (h : Walking p r (p.startOf a out v) s) :
    ∃ pushed s', renameBlock a (a.flow.blockAt v) s = .ok pushed s' ∧
      Walking p (p.visitNode a (r, out) v).1 ((p.visitNode a (r, out) v).2 v) s' ∧
      Pushes s pushed s' := by
  obtain ⟨pushed, s', hs', hwalk, hstack⟩ := renameBlock_spec hp a hb h
  refine ⟨pushed, s', hs', ?_, hstack⟩
  have hout : (p.visitNode a (r, out) v).2 v = (p.visitBlock (a.successors
      (some (a.flow.blockAt v))) (a.flow.blockAt v) (r, p.startOf a out v)).2 :=
    Function.update_self _ _ _
  rwa [hout]

theorem renameTree_step (hp : p.Fits f) (below : List Nat)
    (hb : a.flow.blockAt v ∈ (p.program.func f).blocks) (out : Nat → Env)
    (h : Walking p r (p.startOf a out v) s)
    (hbelow : ∀ s₁, Walking p (p.visitNode a (r, out) v).1 ((p.visitNode a (r, out) v).2 v) s₁ →
      ∃ s₂, renameTrees a n (a.tree.childrenOf v) s₁ = .ok () s₂ ∧
        Walking p (p.visitNodes a (p.visitNode a (r, out) v) below).1
          ((p.visitNode a (r, out) v).2 v) s₂ ∧ ∀ m, stackAt s₂ m = stackAt s₁ m) :
    ∃ s', renameTree a (n + 1) v s = .ok () s' ∧
      Walking p (p.visitNodes a (r, out) (v :: below)).1 (p.startOf a out v) s' ∧
      ∀ m, stackAt s' m = stackAt s m := by
  obtain ⟨pushed, s₁, hs₁, hwalk₁, hstack₁⟩ := renameBlock_node hp hb out h
  obtain ⟨s₂, hs₂, hwalk₂, hstack₂⟩ := hbelow s₁ hwalk₁
  obtain ⟨s₃, hs₃, hwalk₃, hstack₃⟩ := hwalk₂.popAll h.holds h.current
    (fun m => by rw [hstack₂]; exact hstack₁ m)
  refine ⟨s₃, ?_, hwalk₃, hstack₃⟩
  exact (bind_of_ok hs₁).trans ((bind_of_ok hs₂).trans hs₃)

/-- Renaming what is below the children of a node follows the plan, and ends with the stacks as they
were. -/
theorem renameTrees_spec (hp : p.Fits f) (hg : g.WellFormed) (htree : a.tree = ofGraph g)
    {vs l : List Nat}
    (hl : DominatorTree.Listing (ofGraph g) vs l)
    (hblocks : ∀ v ∈ l, a.flow.blockAt v ∈ (p.program.func f).blocks) {d : Nat}
    (hvs : ∀ v ∈ vs, a.tree.idomOf v = some d) (out : Nat → Env)
    (h : Walking p r (out d) s) (hn : 2 * l.length + 1 ≤ n) :
    ∃ s', renameTrees a n vs s = .ok () s' ∧
      Walking p (p.visitNodes a (r, out) l).1 (out d) s' ∧ ∀ m, stackAt s' m = stackAt s m := by
  induction hl generalizing d r out s n with
  | nil =>
    obtain ⟨n, rfl⟩ : ∃ k, n = k + 1 := ⟨n - 1, by omega⟩
    refine ⟨s, ?_, h, fun _ => rfl⟩
    rfl
  | @cons v rest below beside hbelow hbeside ihbelow ihbeside =>
    simp only [length_cons, length_append] at hn
    obtain ⟨n, rfl⟩ : ∃ k, n = k + 1 + 1 := ⟨n - 2, by omega⟩
    have hmem : ∀ {w}, w ∈ below ∨ w ∈ beside → w ∈ v :: (below ++ beside) :=
      fun hw => .tail _ (mem_append.mpr hw)
    -- The parent is visited neither below nor beside.
    have hparent : d ∉ v :: (below ++ beside) :=
      (DominatorTree.Listing.cons hbelow hbeside).not_mem_of_parent hg
        fun w hw => htree ▸ hvs w hw
    have hstart : p.startOf a out v = out d := by
      rw [Plan.startOf, hvs v mem_cons_self]
    have hchildren : ∀ w ∈ (ofGraph g).childrenOf v, a.tree.idomOf w = some v :=
      fun w hw => htree ▸ (mem_childrenOf_iff hg).mp hw
    obtain ⟨s₁, hs₁, hwalk₁, hstack₁⟩ := renameTree_step (n := n) hp below
      (hblocks v (.head _)) out (hstart.symm ▸ h) fun s₁ hs₁ => by
        rw [htree]
        exact ihbelow (fun w hw => hblocks w (hmem (.inl hw))) hchildren _ hs₁ (by omega)
    rw [hstart] at hwalk₁
    have hout : (p.visitNodes a (r, out) (v :: below)).2 d = out d :=
      visitNodes_out fun hd => hparent (by
        rcases mem_cons.mp hd with rfl | hd
        · exact .head _
        · exact hmem (.inl hd))
    obtain ⟨s₂, hs₂, hwalk₂, hstack₂⟩ := ihbeside (fun w hw => hblocks w (hmem (.inr hw)))
      (fun w hw => hvs w (.tail _ hw))
      (p.visitNodes a (r, out) (v :: below)).2 (by rw [hout]; exact hwalk₁) (n := n + 1)
      (by omega)
    refine ⟨s₂, ?_, ?_, fun m => (hstack₂ m).trans (hstack₁ m)⟩
    · exact (bind_of_ok hs₁).trans hs₂
    · rw [hout] at hwalk₂
      have hsplit : p.visitNodes a (r, out) (v :: (below ++ beside)) =
          p.visitNodes a (p.visitNodes a (r, out) (v :: below)) beside := by
        exact foldl_append
      rwa [hsplit]

/-- An analysis is about the blocks of a function of a program. -/
structure Analyses (a : FlowAnalysis) (c : Context) (f : FuncId) : Prop where
  blocks : a.flow.blocks = (c.func f).blocks
  nodup : a.flow.blocks.toList.Nodup
  size : a.flow.graph.size = a.flow.blocks.size
  wellFormed : a.flow.graph.WellFormed
  succs_nodup : ∀ v, (a.flow.graph.succsOf v).Nodup
  tree : a.tree = DominatorTree.ofGraph a.flow.graph

namespace Analyses

variable {c : Context}

theorem blocks_eq (a : FlowAnalysis) :
    a.flow.blocks.toList = (List.range a.flow.size).map a.flow.blockAt := by
  refine ext_getElem (by simp [ControlFlow.size]) fun i hi hi' => ?_
  rw [getElem_map, getElem_range, ControlFlow.blockAt,
    Array.getD_of_lt _ (by rwa [Array.length_toList] at hi), Array.getElem_toList]

section

variable (ha : Analyses a c f)
include ha

theorem blockAt_mem (hv : v < a.flow.size) : a.flow.blockAt v ∈ (c.func f).blocks := by
  rw [← ha.blocks, blockAt, Array.getD_of_lt _ hv]
  exact Array.getElem_mem hv

theorem nodeOf_blockAt (hv : v < a.flow.size) : a.flow.nodeOf (a.flow.blockAt v) = some v :=
  ControlFlow.nodeOf_blockAt ha.nodup hv

theorem exists_node {b : BlockId} (hb : b ∈ (c.func f).blocks) :
    ∃ v < a.flow.size, a.flow.blockAt v = b := by
  rw [← ha.blocks, ← Array.mem_toList_iff, blocks_eq] at hb
  obtain ⟨v, hv, rfl⟩ := mem_map.mp hb
  exact ⟨v, mem_range.mp hv, rfl⟩

theorem blockAt_inj {u : Nat} (hu : u < a.flow.size) (hv : v < a.flow.size)
    (h : a.flow.blockAt u = a.flow.blockAt v) : u = v := by
  have hnode := ha.nodeOf_blockAt hu
  rw [h, ha.nodeOf_blockAt hv] at hnode
  exact (Option.some.inj hnode).symm

theorem mem_preorder : v ∈ a.tree.preorder ↔ Reached a.flow.graph.Edge 0 v := by
  rw [ha.tree, DominatorTree.mem_preorder ha.wellFormed]

theorem preorder_nodup : a.tree.preorder.Nodup := by
  rw [ha.tree]
  exact DominatorTree.preorder_nodup ha.wellFormed

theorem tree_reachable : a.tree.reachable v = true ↔ Reached a.flow.graph.Edge 0 v := by
  rw [ha.tree, ofGraph_reachable_iff ha.wellFormed]

theorem startOf_eq_undefs (out : Nat → Env) (hv : Reached a.flow.graph.Edge 0 v → v = 0) :
    p.startOf a out v = p.undefs := by
  unfold Plan.startOf
  cases hidom : a.tree.idomOf v with
  | none => rfl
  | some d =>
    rw [ha.tree] at hidom
    obtain ⟨hreached, hne, _⟩ := (ofGraph_idomOf_iff ha.wellFormed).mp hidom
    exact absurd (hv hreached) hne

theorem lt_size (hv : Reached a.flow.graph.Edge 0 v) : v < a.flow.size := by
  have hc := DepthFirst.run_complete ha.wellFormed
  have hlt := hc.lt_size (hc.pos_iff.mpr hv)
  rwa [ha.size] at hlt

theorem target_lt {u : Nat} (h : a.flow.graph.Edge u v) : v < a.flow.size := by
  have hlt := ha.wellFormed.target_lt h
  rwa [ha.size] at hlt

end

end Analyses

theorem Plan.mem_order {c : Context} (ha : Analyses a c f) :
    v ∈ Plan.order a ↔ v < a.flow.size := by
  rw [Plan.order, mem_append, ha.mem_preorder, mem_filter, mem_range]
  constructor
  · rintro (hv | ⟨hv, _⟩)
    · exact ha.lt_size hv
    · exact hv
  · intro hv
    cases hr : a.tree.reachable v with
    | true => exact .inl (ha.tree_reachable.mp hr)
    | false => exact .inr ⟨hv, rfl⟩

theorem Plan.order_nodup {c : Context} (ha : Analyses a c f) : (Plan.order a).Nodup := by
  refine ha.preorder_nodup.append (nodup_range.filter _) fun v hv hrest => ?_
  have hnot := (mem_filter.mp hrest).2
  rw [ha.tree_reachable.mpr (ha.mem_preorder.mp hv)] at hnot
  cases hnot

theorem renameUnreachable_spec (hp : p.Fits f) (ha : Analyses a p.program f) (vs : List Nat)
    (hvs : ∀ v ∈ vs, v < a.flow.size) (out : Nat → Env) (h : Walking p r p.undefs s) :
    ∃ s', renameUnreachable a (vs.map a.flow.blockAt) s = .ok () s' ∧
      Walking p (p.visitNodes a (r, out) (vs.filter fun v => !a.tree.reachable v)).1 p.undefs
      s' := by
  induction vs generalizing r out s with
  | nil => exact ⟨s, rfl, h⟩
  | cons v vs ih =>
    have hv := hvs v (.head _)
    have hrest : ∀ w ∈ vs, w < a.flow.size := fun w hw => hvs w (.tail _ hw)
    have hreach : a.reachable (some (a.flow.blockAt v)) = a.tree.reachable v := by
      simp only [FlowAnalysis.reachable, FlowAnalysis.node?, Option.bind_some,
        ha.nodeOf_blockAt hv]
    rw [map_cons, renameUnreachable, hreach]
    cases hr : a.tree.reachable v with
    | true =>
      obtain ⟨s', hs', hwalk⟩ := ih hrest out h
      refine ⟨s', hs', ?_⟩
      rwa [filter_cons_of_neg (by simp [hr])]
    | false =>
      have hstart : p.startOf a out v = p.undefs := by
        refine ha.startOf_eq_undefs out fun hreached => ?_
        rw [ha.tree_reachable.mpr hreached] at hr
        cases hr
      obtain ⟨pushed, s₁, hs₁, hwalk₁, hstack₁⟩ :=
        renameBlock_node hp (ha.blockAt_mem hv) out (hstart.symm ▸ h)
      obtain ⟨s₂, hs₂, hwalk₂, _⟩ := hwalk₁.popAll h.holds h.current hstack₁
      obtain ⟨s₃, hs₃, hwalk₃⟩ := ih hrest (p.visitNode a (r, out) v).2 hwalk₂
      refine ⟨s₃, ?_, ?_⟩
      · exact (bind_of_ok hs₁).trans ((bind_of_ok hs₂).trans hs₃)
      · rwa [filter_cons_of_pos (by simp [hr])]

theorem rename_spec (hp : p.Fits f) (ha : Analyses a p.program f) (h : Walking p {} p.undefs s) :
    ∃ s₁ s₂, renameTree a (2 * a.flow.size + 2) 0 s = .ok () s₁ ∧
      renameUnreachable a a.flow.blocks.toList s₁ = .ok () s₂ ∧
      Walking p (p.walk a).1 p.undefs s₂ := by
  obtain ⟨below, hpre, hbelow, hnodup, hmem⟩ := ofGraph_listing ha.wellFormed
  have hlt : ∀ v ∈ 0 :: below, v < a.flow.size := fun v hv => ha.lt_size ((hmem v).mp hv)
  have hlen := length_le_size ha.wellFormed hnodup fun v hv => (hmem v).mp hv
  rw [length_cons, ha.size] at hlen
  have hlen : below.length + 1 ≤ a.flow.size := hlen
  have hstart : p.startOf a (fun _ => p.undefs) 0 = p.undefs := ha.startOf_eq_undefs _ fun _ => rfl
  obtain ⟨s₁, hs₁, hwalk₁, _⟩ := renameTree_step (a := a) (n := 2 * a.flow.size + 1)
    hp below (ha.blockAt_mem (hlt 0 (.head _))) (fun _ => p.undefs)
    (hstart.symm ▸ h) fun s₁ hs₁ => by
      rw [ha.tree]
      refine renameTrees_spec hp ha.wellFormed ha.tree hbelow
        (fun v hv => ha.blockAt_mem (hlt v (.tail _ hv)))
        (fun v hv => ?_) _ hs₁ (by omega)
      rw [ha.tree]
      exact (mem_childrenOf_iff ha.wellFormed).mp hv
  rw [hstart] at hwalk₁
  obtain ⟨s₂, hs₂, hwalk₂⟩ := renameUnreachable_spec hp ha (List.range a.flow.size)
    (fun v hv => mem_range.mp hv)
    (p.visitNodes a ({}, fun _ => p.undefs) (0 :: below)).2 hwalk₁
  refine ⟨s₁, s₂, hs₁, ?_, ?_⟩
  · rwa [Analyses.blocks_eq]
  · have hwalk : p.walk a = p.visitNodes a (p.visitNodes a ({}, fun _ => p.undefs) (0 :: below))
        ((List.range a.flow.size).filter fun v => !a.tree.reachable v) := by
      rw [Plan.walk, Plan.order, ha.tree, hpre]
      exact foldl_append
    rwa [hwalk]

end Tree

end Promote

end SsaIr
