import SsaIr.Proofs.Graph.Regular
import SsaIr.Proofs.Promote.WellFormed

/-!
# When promotion succeeds

Promotion is refused only if something that it retired is still read when it is to be erased. What
it puts in the place of a load is on a stack, and the stacks hold no load that is to be retired as
long as no store puts one there before its turn to be replaced. Where control arrives the verifier
sees to that; in dead code it does not, and `LoadsFirst` says what is needed there. Read it first,
then `Checked.unreadInOrder`.
-/

namespace SsaIr

open Instruction Context List

namespace Promote

/-- The instructions of the blocks that control does not reach, in the order of the blocks. -/
def deadCode (c : Context) (a : FlowAnalysis) : List InstId :=
  (a.flow.blocks.toList.filter fun b => !a.reachable (some b)).flatMap
    fun b => (c.block b).insts.toList

def IsAddress (c : Context) (a : FlowAnalysis) (v : Option Value) : Prop :=
  ∃ x ∈ cellsOf c a.flow, v = some (.inst x.alloca)

/-- An instruction stores to a cell what another one loads from a cell. -/
structure StoresLoad (c : Context) (a : FlowAnalysis) (store load : InstId) : Prop where
  op : (c.inst store).op = .store
  target : IsAddress c a ((c.inst store).operand 1)
  value : (c.inst store).operand 0 = some (.inst load)
  loadOp : (c.inst load).op = .load
  source : IsAddress c a ((c.inst load).operand 0)

/-- In dead code, what is loaded from a cell is not stored to one before it is loaded. -/
def LoadsFirst (c : Context) (a : FlowAnalysis) : Prop :=
  ∀ {pre post : List InstId} {i l : InstId}, deadCode c a = pre ++ i :: post →
    StoresLoad c a i l → l ∉ post

instance (c : Context) (a : FlowAnalysis) (v : Option Value) : Decidable (IsAddress c a v) :=
  inferInstanceAs (Decidable (∃ x ∈ cellsOf c a.flow, v = some (.inst x.alloca)))

instance (c : Context) (a : FlowAnalysis) (i l : InstId) : Decidable (StoresLoad c a i l) :=
  decidable_of_iff ((c.inst i).op = .store ∧ IsAddress c a ((c.inst i).operand 1) ∧
    (c.inst i).operand 0 = some (.inst l) ∧ (c.inst l).op = .load ∧
      IsAddress c a ((c.inst l).operand 0))
    ⟨fun ⟨hop, htarget, hvalue, hload, hsource⟩ => ⟨hop, htarget, hvalue, hload, hsource⟩,
      fun h => ⟨h.op, h.target, h.value, h.loadOp, h.source⟩⟩

theorem loadsFirst_of_pairwise {c : Context} {a : FlowAnalysis}
    (h : (deadCode c a).Pairwise fun i l => ¬ StoresLoad c a i l) : LoadsFirst c a := by
  intro pre post i l hcode hstores hmem
  rw [hcode] at h
  exact (pairwise_cons.mp (pairwise_append.mp h).2.1).1 l hmem hstores

/-- What a function computes is read in its blocks only, and no instruction without a result is
read. -/
structure Enclosed (c : Context) (f : FuncId) : Prop where
  readers : ∀ {i j : InstId} {b : BlockId}, some (.inst i) ∈ (c.inst j).operands →
    i ∈ (c.block b).insts → b ∈ (c.func f).blocks → ∃ b' ∈ (c.func f).blocks, j ∈ (c.block b').insts
  results : ∀ {i j : InstId}, some (.inst i) ∈ (c.inst j).operands → (c.inst i).type ≠ .void

namespace Plan

variable {p : Plan} {a : FlowAnalysis} {done : List InstId} {r : Renaming} {env : Env}

/-- What is stored to a cell is no load from a cell that is visited later. -/
def Timely (p : Plan) (a : FlowAnalysis) : Prop :=
  ∀ {vs ws : List Nat} {v : Nat} {pre post : List InstId} {i l : InstId} {n : Nat},
    order a = vs ++ v :: ws →
    (p.program.block (a.flow.blockAt v)).insts.toList = pre ++ i :: post →
    (p.program.inst i).op = .store → p.cellOf ((p.program.inst i).operand 1) = some n →
    (p.program.inst i).operand 0 = some (.inst l) → p.loads l = true → l ∈ p.instsOf a vs ++ pre

/-- After some instructions were visited, nothing that was put anywhere is a load from a cell. -/
structure Settling (p : Plan) (done : List InstId) (r : Renaming) : Prop where
  progress : p.Progress done r.subst
  fills : ∀ x ∈ r.fills, p.Settled x.2.1

theorem Settling.visitInst {i : InstId} (h : p.Settling done r) (henv : ∀ n, p.Settled (env n))
    (hstored : ∀ {n l}, p.Stores i n (.inst l) → p.loads l = true → l ∈ done) :
    p.Settling (done ++ [i]) (p.visitInst (r, env) i).1 ∧
      ∀ n, p.Settled ((p.visitInst (r, env) i).2 n) := by
  obtain ⟨hall, henv'⟩ := visitInst_all (s := (r, env)) (i := i) (P := p.Settled)
    (fun hop _ j hj => by cases hj; rw [loads, hop]; rfl)
    (fun hx => h.progress.settled_of_visited fun l hl => hstored (hl ▸ hx))
    ⟨h.progress.settled, h.fills⟩ henv
  refine ⟨⟨?_, hall.fills⟩, henv'⟩
  cases hi : p.loads i with
  | true =>
    obtain ⟨hop, n, hn⟩ := loads_iff.mp hi
    rw [visitInst_subst_of_load r env hop hn]
    exact h.progress.replace hi (henv n)
  | false =>
    rw [visitInst_subst_of_not r env hi]
    exact h.progress.snoc hi

theorem Timely.settling (htimely : p.Timely a) :
    p.Settling (p.instsOf a (order a)) (p.walk a).1 := by
  refine walk_induction (I := p.Settling) (P := p.Settled) (fun horder hblock h henv => ?_) ?_
    (fun _ => settled_of_ne nofun) fun {done r env b j} h henv => ?_
  · exact h.visitInst henv fun hx hload => htimely horder hblock hx.op hx.cell hx.value hload
  · refine ⟨⟨?_, ?_, ?_⟩, ?_⟩ <;> exact fun _ h => absurd h not_mem_nil
  · have hsubst := fillPhis_subst (p := p) env b [j] r
    exact ⟨hsubst ▸ h.progress, (fillPhi_all ⟨h.progress.settled, h.fills⟩ henv).fills⟩

end Plan

end Promote

namespace Context.Checked

open Promote

variable {c : Context} {f : FuncId} {a : FlowAnalysis} {b : BlockId} {i j : InstId} {x : Cell}

theorem isAddress_of_cellOf {v : Option Value} {n : Nat} (h : (planOf c a).cellOf v = some n) :
    IsAddress c a v := by
  obtain ⟨x, hx, rfl⟩ := Plan.cellOf_eq_some h
  exact ⟨x, mem_of_getElem? hx, rfl⟩

theorem isSome_cellOf (hx : x ∈ cellsOf c a.flow) :
    ((planOf c a).cellOf (some (.inst x.alloca))).isSome = true := by
  show ((cellsOf c a.flow).findIdx? _).isSome = true
  rw [findIdx?_isSome, any_eq_true]
  exact ⟨x, hx, decide_eq_true rfl⟩

section

variable (h : c.Checked f a)
include h

theorem deadCode_eq : deadCode c a =
    ((List.range a.flow.size).filter fun v => !a.tree.reachable v).flatMap
      fun v => (c.block (a.flow.blockAt v)).insts.toList := by
  unfold deadCode
  rw [Analyses.blocks_eq, filter_map, flatMap_map]
  congr 1
  refine filter_congr fun v hv => ?_
  have hreached := h.analyses.reachable_iff (mem_range.mp hv)
  exact congrArg not (Bool.eq_iff_iff.mpr (hreached.trans h.analyses.tree_reachable.symm))

theorem order_split {vs ws : List Nat} {v : Nat} (horder : Plan.order a = vs ++ v :: ws) :
    (Reached a.flow.graph.Edge 0 v ∧ ∃ rest, a.tree.preorder = vs ++ v :: rest) ∨
      ∃ dead, vs = a.tree.preorder ++ dead ∧
        ((List.range a.flow.size).filter fun v => !a.tree.reachable v) = dead ++ v :: ws := by
  rcases append_eq_append_iff.mp horder with ⟨dead, hvs, hdead⟩ | ⟨rest, hpre, hrest⟩
  · exact .inr ⟨dead, hvs, hdead⟩
  · cases rest with
    | nil => exact .inr ⟨[], by rw [hpre, append_nil, append_nil], hrest.symm⟩
    | cons w rest =>
      obtain ⟨rfl, _⟩ := List.cons.inj hrest
      exact .inl ⟨h.analyses.mem_preorder.mp (hpre ▸ by simp), rest, hpre⟩

/-- A store of the program comes after the leading phis, and the rest of its block is the same as in
the context. -/
theorem store_split {pre post : List InstId}
    (hblock : ((planOf c a).program.block b).insts.toList = pre ++ i :: post)
    (hop : ((planOf c a).program.inst i).op = .store) :
    ∃ before, (c.block b).insts.toList = before ++ i :: post := by
  obtain ⟨_, hbody⟩ := h.program_block b
  have hsplit := phis_append_body (planOf c a).program b
  rw [hblock, hbody] at hsplit
  rcases append_eq_append_iff.mp hsplit with ⟨mid, _, hmid⟩ | ⟨mid, hmid, hrest⟩
  · exact ⟨c.phis b ++ mid, by rw [append_assoc, ← hmid, phis_append_body]⟩
  · cases mid with
    | nil =>
      refine ⟨c.phis b, ?_⟩
      rw [nil_append] at hrest
      rw [hrest, phis_append_body]
    | cons j mid =>
      obtain ⟨rfl, _⟩ := List.cons.inj hrest
      have hphi := isPhi_of_mem_phis (c := (planOf c a).program) (b := b) (i := i)
        (hmid ▸ by simp)
      rw [isPhi_iff, hop] at hphi
      cases hphi

theorem timely (hloads : LoadsFirst c a) : (planOf c a).Timely a := by
  intro vs ws v pre post i l n horder hblock hop hn hvalue hload
  have hmem : some (.inst l) ∈ ((planOf c a).program.inst i).operands :=
    mem_operands_iff.mpr ⟨0, hvalue⟩
  rcases h.order_split horder with ⟨hreached, rest, hpre⟩ | ⟨dead, hvs, hdead⟩
  · -- Where control arrives, what is stored is at hand, so its block was visited.
    have havail := h.ordered hreached hblock (by simp [hop]) hmem
    rcases havail l rfl with hl | ⟨u, hne, hdom, hl⟩
    · exact mem_append_right _ hl
    · refine mem_append_left _ (mem_flatMap.mpr ⟨u, ?_, Array.mem_toList_iff.mpr hl⟩)
      exact DominatorTree.dominators_before h.analyses.wellFormed (h.analyses.tree ▸ hpre)
        ((DominatorTree.below_iff_dominance h.analyses.wellFormed hreached).mpr hdom) hne
  · have hv : v < a.flow.size :=
      (Plan.mem_order h.analyses).mp (horder ▸ mem_append_right _ (.head _))
    have hi : i ∈ ((planOf c a).program.block (a.flow.blockAt v)).insts := by
      rw [← Array.mem_toList_iff, hblock]
      simp
    obtain ⟨hold, hinst⟩ := h.program_inst_old hi (by simp [hop])
    obtain ⟨x, hx, hlive⟩ := h.live (h.analyses.blockAt_mem hv) hold
      (hasSlot_of_slot (u := ⟨i, 0⟩) (hinst ▸ hvalue))
    cases hx.symm.trans (hinst ▸ hvalue)
    obtain ⟨u, hu, _, hl⟩ := h.home_of_live hlive
    -- The block of the load was visited, or it is this one, or it comes later in the dead code.
    have hcases : u ∈ vs ∨ u = v ∨ u ∈ ws := by
      have hin := (Plan.mem_order h.analyses).mpr hu
      rw [horder] at hin
      simpa using hin
    have hdone : u ∈ vs → l ∈ (planOf c a).instsOf a vs ++ pre := fun hu =>
      mem_append_left _ (mem_flatMap.mpr ⟨u, hu, Array.mem_toList_iff.mpr hl⟩)
    obtain ⟨hloadOp, m, hm⟩ := Plan.loads_iff.mp hload
    obtain ⟨hlold, hlinst⟩ := h.program_inst_old hl (by simp [hloadOp])
    have hstores : StoresLoad c a i l := by
      rw [hinst] at hop hn hvalue
      rw [hlinst] at hloadOp hm
      exact ⟨hop, isAddress_of_cellOf hn, hvalue, hloadOp, isAddress_of_cellOf hm⟩
    obtain ⟨before, hc⟩ := h.store_split hblock hop
    have hcode :
      deadCode c a = ((dead.flatMap fun v => (c.block (a.flow.blockAt v)).insts.toList) ++
        before) ++ i ::
          (post ++ ws.flatMap fun v => (c.block (a.flow.blockAt v)).insts.toList) := by
      rw [h.deadCode_eq, hdead, flatMap_append, flatMap_cons, hc]
      simp
    have hlater := hloads hcode hstores
    rcases hcases with hu | rfl | hu
    · exact hdone hu
    · rw [← Array.mem_toList_iff, hblock] at hl
      rcases mem_append.mp hl with hl | hl
      · exact mem_append_right _ hl
      · rcases mem_cons.mp hl with rfl | hl
        · rw [hop] at hloadOp
          cases hloadOp
        · exact absurd (mem_append_left _ hl) hlater
    · exact absurd (mem_append_right _
        (mem_flatMap.mpr ⟨u, hu, Array.mem_toList_iff.mpr hlold⟩)) hlater

end

theorem read_cases {w : Value} (hread : some w ∈ ((planOf c a).walk a).1.operands (planOf c a) j) :
    (∃ v, some v ∈ (c.inst j).operands ∧ w = resolve ((planOf c a).walk a).1.subst v) ∨
      (∃ x ∈ ((planOf c a).walk a).1.fills, w = x.2.1) ∨ ∃ b, w = .block b := by
  rcases Array.mem_append.mp hread with hread | hread
  · obtain ⟨v, hv, hw⟩ := Array.mem_map.mp hread
    obtain ⟨v, rfl, rfl⟩ := Option.map_eq_some_iff.mp hw
    exact .inl ⟨v, (program_inst_of_read hv).2 ▸ hv, rfl⟩
  · refine .inr ?_
    obtain ⟨x, hx, hmem⟩ := mem_flatMap.mp (mem_toArray.mp hread)
    rcases mem_cons.mp hmem with heq | hmem
    · exact .inl ⟨x, (mem_filter.mp hx).1, Option.some.inj heq⟩
    · exact .inr ⟨x.2.2, Option.some.inj (mem_singleton.mp hmem)⟩

variable (h : c.Checked f a) (he : Enclosed c f)
include h he

theorem mem_of_reads_cell (hx : IsCell c a x)
    (hread : some (.inst x.alloca) ∈ (c.inst j).operands) :
    j ∈ (planOf c a).instsOf a (Plan.order a) := by
  obtain ⟨b, hb, hj⟩ := he.readers hread hx.mem h.entry_mem
  exact h.mem_instsOf.mpr ⟨b, hb, h.program_mem.mpr (.inl hj)⟩

theorem mem_of_loads (hload : (planOf c a).loads i = true) :
    i ∈ (planOf c a).instsOf a (Plan.order a) := by
  obtain ⟨_, n, hn⟩ := Plan.loads_iff.mp hload
  obtain ⟨x, _, hv, hcell, _⟩ := h.typeOf_cell hn
  have hread := mem_operands_iff.mpr ⟨0, hv⟩
  exact h.mem_of_reads_cell he hcell ((program_inst_of_read hread).2 ▸ hread)

theorem read_typed (hread : some (.inst i) ∈ ((planOf c a).walk a).1.operands (planOf c a) j) :
    (planOf c a).program.typeOf (.inst i) ≠ some .void := by
  obtain ⟨hsane, hfills⟩ := Promoted.walk_sane h
  rcases read_cases hread with ⟨v, hv, hw⟩ | ⟨x, hx, hw⟩ | ⟨b, hw⟩
  · -- Only instructions are replaced, so one was read before.
    obtain ⟨l, rfl⟩ : ∃ l, v = .inst l := by
      by_contra hinst
      rw [resolve_of_not_mem fun y _ hy => hinst ⟨y.1, hy⟩] at hw
      exact hinst ⟨i, hw.symm⟩
    have htype : (planOf c a).program.typeOf (.inst l) = c.typeOf (.inst l) := by
      refine program_typeOf fun hlocal => ?_
      obtain ⟨n, hn⟩ := mem_operands_iff.mp hv
      by_contra htracks
      have huser := (h.sound.linked.mem_users hlocal ⟨j, n⟩).mpr hn
      rw [users_of_not_tracks c htracks] at huser
      cases huser
    rw [hw, hsane.typeOf_resolve, htype]
    exact fun hvoid => he.results hv (Option.some.inj hvoid)
  · obtain ⟨n, hn, hholds⟩ := hfills x hx
    rw [hw, hholds.type]
    have hlt := (h.fits.phi hn).1
    have hcell := isCell_of_mem (List.getElem_mem hlt)
    rw [planOf_typeAt (List.getElem?_eq_getElem hlt)]
    intro hvoid
    have hprimitive := hcell.primitive
    rw [Option.some.inj hvoid] at hprimitive
    cases hprimitive
  · cases hw

theorem read_not_retires (hloads : LoadsFirst c a)
    (hread : some (.inst i) ∈ ((planOf c a).walk a).1.operands (planOf c a) j) :
    i ∉ ((planOf c a).instsOf a (Plan.order a)).filter (planOf c a).retires := by
  intro hi
  obtain ⟨hmem, hret⟩ := mem_filter.mp hi
  have hsettling := Plan.Timely.settling (h.timely hloads)
  have hsettled : (planOf c a).Settled (.inst i) := by
    rcases read_cases hread with ⟨v, hv, hw⟩ | ⟨x, hx, hw⟩ | ⟨b, hw⟩
    · rw [hw]
      exact hsettling.progress.settled_of_visited fun l _ hl => h.mem_of_loads he hl
    · rw [hw]
      exact hsettling.fills x hx
    · cases hw
  have hnot := hsettled i rfl
  obtain ⟨b, hb, hib⟩ := h.mem_instsOf.mp hmem
  cases hop : ((planOf c a).program.inst i).op with
  | load =>
    simp only [Plan.retires, hop] at hret
    simp [Plan.loads, hop, hret] at hnot
  | store =>
    obtain ⟨hold, hinst⟩ := h.program_inst_old hib (by simp [hop])
    refine h.read_typed he hread ?_
    have hwell := h.operation hb hold
    simp only [Site.OperationWell, ← hinst, hop] at hwell
    exact congrArg some (Ty.isVoid_iff.mp hwell.2.2.2)
  | _ => simp [Plan.retires, hop] at hret

theorem retires_of_reads_cell (hx : x ∈ cellsOf c a.flow)
    (hread : some (.inst x.alloca) ∈ (c.inst j).operands) :
    j ∈ ((planOf c a).instsOf a (Plan.order a)).filter (planOf c a).retires := by
  have hcell := isCell_of_mem hx
  obtain ⟨b, hb, hj⟩ := he.readers hread hcell.mem h.entry_mem
  refine mem_filter.mpr ⟨h.mem_of_reads_cell he hcell hread, ?_⟩
  obtain ⟨n, hn⟩ := mem_operands_iff.mp hread
  have hslot : c.HasSlot ⟨j, n⟩ := hasSlot_of_slot hn
  have hwell := h.operation hb hj
  simp only [Plan.retires, show (planOf c a).program.inst j = c.inst j
    from inst_addPhis_old hslot.lt]
  rcases hcell.slot h.sound (u := ⟨j, n⟩) hn with hop | ⟨hop, hindex⟩
  · replace hop : (c.inst j).op = .load := hop
    simp only [Site.OperationWell, hop] at hwell
    obtain rfl : n = 0 := Nat.lt_one_iff.mp (hwell.1 ▸ hslot)
    simpa only [hop, hn] using isSome_cellOf hx
  · obtain rfl : n = 1 := hindex
    replace hop : (c.inst j).op = .store := hop
    simp only [Site.OperationWell, hop] at hwell
    obtain ⟨v, hv, _⟩ := h.live hb hj (n := 0) (hwell.1 ▸ Nat.zero_lt_two)
    simp only [hop, hn, hv, isSome_cellOf hx]
    rfl

theorem unreadInOrder (hloads : LoadsFirst c a) {m : Context}
    (hm : Renamed c a m) : UnreadInOrder m (retired c a) := by
  intro k i hk u hu
  have hread := mem_operands_iff.mpr ⟨u.index, hu⟩
  rw [hm.operands] at hread
  have hnot := h.read_not_retires he hloads hread
  have hlast :
      (((planOf c a).instsOf a (Plan.order a)).filter (planOf c a).retires).length ≤ k := by
    by_contra hlt
    rw [retired, getElem?_append_left (Nat.lt_of_not_le hlt)] at hk
    exact hnot (mem_of_getElem? hk)
  rcases mem_append.mp (mem_of_getElem? hk) with hi | hi
  · exact absurd hi hnot
  · -- What reads a cell's address comes before all cells.
    obtain ⟨x, hx, rfl⟩ := mem_map.mp hi
    obtain ⟨hsane, hfills⟩ := Promoted.walk_sane h
    obtain ⟨n, hn⟩ := Option.isSome_iff_exists.mp (isSome_cellOf hx)
    rcases read_cases hread with ⟨v, hv, hw⟩ | ⟨y, hy, hw⟩ | ⟨b, ⟨⟩⟩
    · have hsame := hsane.cellOf_resolve h.fits (some v)
      rw [Option.map_some, ← hw] at hsame
      obtain ⟨y, hy, hxy⟩ := Plan.cellOf_eq_some hn
      obtain ⟨z, hz, hvz⟩ := Plan.cellOf_eq_some (hsame ▸ hn)
      cases hy.symm.trans hz
      cases hvz.trans hxy.symm
      rw [retired, take_append, take_of_length_le hlast]
      exact mem_append_left _ (h.retires_of_reads_cell he hx hv)
    · obtain ⟨m, _, hholds⟩ := hfills y hy
      rw [hw, hholds.plain] at hn
      cases hn

/-- Promotion of a verified function that is enclosed and loads first succeeds: it changes nothing,
or gives the promoted program. -/
theorem promoteFunction_succeeds (hloads : LoadsFirst c a) : promoteFunction c f = (.ok false, c) ∨
      ∃ d, promoteFunction c f = (.ok true, d) ∧ Promoted c a d := by
  rw [promoteFunction_of_checked h]
  by_cases hcells : cellsOf c a.flow = []
  · exact .inl (promoteCells_of_nil h hcells)
  · obtain ⟨m, hm, hok, -⟩ := h.promoteCells_spec hcells
    have hunread := h.unreadInOrder he hloads hm
    obtain ⟨d, hd, herased⟩ := hok hunread
    exact .inr ⟨d, hd, hm.promoted hunread herased⟩

end Context.Checked

end SsaIr
