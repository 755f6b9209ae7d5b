import SsaIr.Flow.Control
import SsaIr.Proofs.Computation
import SsaIr.Proofs.Flow.Dominators

/-!
# The analyses of a function speak of its blocks

Nodes of the flow graph stand for the positions of blocks, so that paths between nodes and paths
between blocks are images of each other. `ControlFlow.Describes` says what building the flow graph
of a function achieves. Read `FlowAnalysis.ofFunction_dominance_exact` first: dominance,
reachability and immediate dominators as the analysis gives them are those of the paths through the
function.
-/

namespace SsaIr

open DominatorTree List

theorem FlowPath.map {α β : Type} {edge : α → α → Prop} {edge' : β → β → Prop} (φ : α → β)
    (hφ : ∀ u v, edge u v → edge' (φ u) (φ v)) {u w : α} {p : List α} (h : FlowPath edge u w p) :
    FlowPath edge' (φ u) (φ w) (p.map φ) := by
  induction h with
  | refl v => exact .refl _
  | step he _ ih => exact .step (hφ _ _ he) ih

theorem FlowPath.mem_target {α : Type} {edge : α → α → Prop} {u w x : α} {p : List α}
    (h : FlowPath edge u w p) (hx : x ∈ p) : x = u ∨ ∃ y, edge y x := by
  induction h with
  | refl v => exact .inl (mem_singleton.mp hx)
  | @step u v w p he hp ih =>
    rcases mem_cons.mp hx with rfl | hx
    · exact .inl rfl
    · rcases ih hx with rfl | htarget
      · exact .inr ⟨u, he⟩
      · exact .inr htarget

/-- One block of a function may pass control to another: its terminator names it. -/
def Context.Passes (c : Context) (f : FuncId) (a b : BlockId) : Prop :=
  a ∈ (c.func f).blocks ∧ ∃ targets, c.blockSuccessors a = some targets ∧ b ∈ targets

namespace ControlFlow

variable {c : Context} {f : FuncId} {cf : ControlFlow} {blocks : Array BlockId} {b : BlockId}
  {func : String} {bs l : List BlockId}

theorem getElem?_of_position? {i : Nat} (h : position? blocks b = some i) :
    blocks[i]? = some b := by
  rw [position?, ← Array.idxOf?_toList, idxOf?_eq_some_iff] at h
  obtain ⟨hlt, heq, _⟩ := h
  rw [← Array.getElem?_toList, List.getElem?_eq_getElem hlt, heq]

theorem position?_exists (h : b ∈ blocks) : ∃ i, position? blocks b = some i := by
  cases hpos : position? blocks b with
  | none => exact absurd h (Array.idxOf?_eq_none_iff.mp hpos)
  | some i => exact ⟨i, rfl⟩

theorem position?_first (h : blocks[0]? = some b) : position? blocks b = some 0 := by
  rw [← Array.getElem?_toList] at h
  obtain ⟨hlt, heq⟩ := List.getElem?_eq_some_iff.mp h
  rw [position?, ← Array.idxOf?_toList, idxOf?_eq_some_iff]
  exact ⟨hlt, heq, fun j hj => absurd hj (Nat.not_lt_zero j)⟩

theorem targets_eq_ok_iff {source : BlockId} {ids : List Nat} :
    targets c func blocks source bs = .ok ids ↔
    (∀ t ∈ bs, t ∈ blocks) ∧ bs.filterMap (position? blocks) = ids := by
  induction bs generalizing ids with
  | nil => simp [targets]
  | cons b rest ih =>
    rw [targets, forall_mem_cons, filterMap_cons]
    cases hpos : position? blocks b with
    | none => simp [Array.idxOf?_eq_none_iff.mp hpos]
    | some i =>
      have hb : b ∈ blocks := Array.mem_of_getElem? (getElem?_of_position? hpos)
      simp only [Except.bind_eq_ok_iff, ih, hb, true_and, and_assoc, exists_and_left,
        exists_eq_left', pure,
        Except.pure, Except.ok.injEq]

/-- The successors of a block: the positions of its targets, each where it is named first. -/
def row (c : Context) (blocks : Array BlockId) (b : BlockId) : List Nat :=
  (((c.blockSuccessors b).getD []).filterMap (position? blocks)).eraseDups

theorem successors_eq_ok_iff {succs : List (List Nat)} : successors c func blocks l = .ok succs ↔
    (∀ b ∈ l, ∃ bs, c.blockSuccessors b = some bs ∧ ∀ t ∈ bs, t ∈ blocks) ∧
    l.map (row c blocks) = succs := by
  induction l generalizing succs with
  | nil => simp [successors]
  | cons b rest ih =>
    rw [successors, forall_mem_cons, map_cons, row]
    cases c.blockSuccessors b with
    | none => simp
    | some bs =>
      simp only [Except.bind_eq_ok_iff, targets_eq_ok_iff, ih, and_assoc, exists_and_left,
        exists_eq_left', pure,
        Except.pure, Except.ok.injEq, Option.some.injEq, Option.getD_some]

/-- The flow graph is that of a function: its nodes are the positions of the blocks, and its edges
lead from each block to the positions of its targets, all of which are blocks of the function. -/
structure Describes (cf : ControlFlow) (c : Context) (f : FuncId) : Prop where
  func : cf.func = f
  blocks : cf.blocks = (c.func f).blocks
  nonempty : cf.blocks.isEmpty = false
  targets : ∀ b ∈ cf.blocks, ∃ bs, c.blockSuccessors b = some bs ∧ ∀ t ∈ bs, t ∈ cf.blocks
  graph : cf.graph = .ofSuccs (cf.blocks.map (row c cf.blocks))

theorem ofFunction_eq_ok_iff : ofFunction c f = .ok cf ↔ cf.Describes c f := by
  unfold ofFunction
  dsimp only
  cases hempty : (c.func f).blocks.isEmpty with
  | true =>
    refine iff_of_false nofun fun h => ?_
    rw [← h.blocks, h.nonempty] at hempty
    cases hempty
  | false =>
    simp only [Bool.false_eq_true, if_false, Except.bind_eq_ok_iff, successors_eq_ok_iff, and_assoc]
    constructor
    · rintro ⟨_, htargets, rfl, hcf⟩
      cases hcf
      exact ⟨rfl, rfl, hempty, fun b hb => htargets b hb.val, by rw [← Array.toList_map]⟩
    · rintro ⟨rfl, hblocks, -, htargets, hgraph⟩
      rw [hblocks] at htargets hgraph
      refine ⟨_, fun b hb => htargets b ⟨hb⟩, rfl, ?_⟩
      rw [← Array.toList_map, Array.toArray_toList, ← hgraph, ← hblocks]
      rfl

theorem exists_ofFunction (hne : (c.func f).blocks.isEmpty = false)
    (h : ∀ b ∈ (c.func f).blocks, ∃ bs, c.blockSuccessors b = some bs ∧
      ∀ t ∈ bs, t ∈ (c.func f).blocks) : ∃ cf, ofFunction c f = .ok cf :=
  ⟨⟨f, _, .ofSuccs ((c.func f).blocks.map (row c (c.func f).blocks))⟩,
    ofFunction_eq_ok_iff.mpr ⟨rfl, rfl, hne, h, rfl⟩⟩

theorem ofFunction_congr {c d : Context} (hblocks : (d.func f).blocks = (c.func f).blocks)
    (hsame : ∀ b ∈ (c.func f).blocks, d.blockSuccessors b = c.blockSuccessors b)
    (h : ofFunction c f = .ok cf) : ofFunction d f = .ok cf := by
  rw [ofFunction_eq_ok_iff] at h ⊢
  rw [← h.blocks] at hsame
  refine ⟨h.func, h.blocks.trans hblocks.symm, h.nonempty, fun b hb => ?_, h.graph.trans ?_⟩
  · rw [hsame b hb]
    exact h.targets b hb
  · exact congrArg _ (Array.map_congr_left fun b hb => by rw [row, row, hsame b hb])

theorem nodup_eraseDups (l : List Nat) : l.eraseDups.Nodup := by
  induction hn : l.length using Nat.strong_induction_on generalizing l with
  | _ n ih =>
    cases l with
    | nil => exact nodup_nil
    | cons x l =>
      rw [eraseDups_cons]
      refine nodup_cons.mpr ⟨by simp, ih _ ?_ _ rfl⟩
      rw [← hn]
      exact Nat.lt_succ_of_le (length_filter_le _ _)

namespace Describes

section

variable (h : cf.Describes c f)
include h

theorem size : cf.graph.size = cf.blocks.size := by
  rw [h.graph, FlowGraph.size, FlowGraph.ofSuccs, Array.size_map]

theorem succsOf_eq {v : Nat} (hb : cf.blocks[v]? = some b) :
    cf.graph.succsOf v = row c cf.blocks b := by
  rw [h.graph, FlowGraph.succsOf, FlowGraph.ofSuccs, Array.getD_eq_getD_getElem?,
    Array.getElem?_map, hb]
  rfl

theorem succsOf_nodup (v : Nat) : (cf.graph.succsOf v).Nodup := by
  cases hb : cf.blocks[v]? with
  | none =>
    rw [Array.getElem?_eq_none_iff, ← h.size] at hb
    rw [FlowGraph.succsOf, Array.getD_of_not_lt _ hb.not_gt]
    exact nodup_nil
  | some b =>
    rw [h.succsOf_eq hb]
    exact nodup_eraseDups _

theorem edge_iff {v w : Nat} (hb : cf.blocks[v]? = some b) :
    cf.graph.Edge v w ↔ ∃ x, cf.nodeOf x = some w ∧ c.Passes f b x := by
  have hmem : b ∈ cf.blocks := Array.mem_of_getElem? hb
  obtain ⟨bs, hbs, -⟩ := h.targets b hmem
  rw [FlowGraph.Edge, h.succsOf_eq hb, row, mem_eraseDups, mem_filterMap, hbs]
  constructor
  · rintro ⟨x, hx, hxw⟩
    exact ⟨x, hxw, h.blocks ▸ hmem, bs, hbs, hx⟩
  · rintro ⟨x, hxw, _, bs', hbs', hx⟩
    cases hbs.symm.trans hbs'
    exact ⟨x, hx, hxw⟩

theorem regular : cf.graph.WellFormed ∧
    ∀ w, cf.graph.predsOf w = (List.range cf.graph.size).filter fun v =>
    w ∈ cf.graph.succsOf v := by
  have hnodup := h.succsOf_nodup
  have htarget : ∀ v w, cf.graph.Edge v w → w < cf.graph.size := by
    intro v w he
    have hv : v < cf.blocks.size := h.size ▸ he.source_lt
    obtain ⟨x, hx, -⟩ := (h.edge_iff (Array.getElem?_eq_getElem hv)).mp he
    rw [h.size]
    exact (Array.getElem?_eq_some_iff.mp (getElem?_of_position? hx)).1
  have hpos : 0 < cf.graph.size := by
    have hne := h.nonempty
    rw [h.size]
    grind
  rw [h.graph] at hnodup htarget hpos ⊢
  exact ⟨FlowGraph.ofSuccs_wellFormed htarget hnodup hpos, FlowGraph.predsOf_ofSuccs htarget hnodup⟩

theorem wellFormed : cf.graph.WellFormed := h.regular.1

end

theorem blockAt_of_nodeOf (_ : cf.Describes c f) {v : Nat}
    (hv : cf.nodeOf b = some v) : cf.blockAt v = b := by
  rw [blockAt, Array.getD_eq_getD_getElem?, getElem?_of_position? hv, Option.getD_some]

section

variable (h : cf.Describes c f)
include h

theorem nodeOf_exists (hb : b ∈ (c.func f).blocks) : ∃ v, cf.nodeOf b = some v :=
  position?_exists (h.blocks ▸ hb)

theorem mem_of_nodeOf {v : Nat} (hv : cf.nodeOf b = some v) : b ∈ (c.func f).blocks := by
  rw [← h.blocks]
  exact Array.mem_of_getElem? (getElem?_of_position? hv)

theorem passes_target {a : BlockId} (hab : c.Passes f a b) :
    ∃ v w, cf.nodeOf a = some v ∧ cf.nodeOf b = some w ∧ cf.graph.Edge v w := by
  obtain ⟨v, hv⟩ := h.nodeOf_exists hab.1
  obtain ⟨bs, hbs, hblocks⟩ := h.targets a (h.blocks ▸ hab.1)
  obtain ⟨bs', hbs', hb⟩ := hab.2
  cases hbs.symm.trans hbs'
  obtain ⟨w, hw⟩ := position?_exists (hblocks b hb)
  exact ⟨v, w, hv, hw, (h.edge_iff (getElem?_of_position? hv)).mpr ⟨b, hw, hab⟩⟩

theorem passes_of_edge {v w : Nat} (he : cf.graph.Edge v w) :
    c.Passes f (cf.blockAt v) (cf.blockAt w) ∧ cf.nodeOf (cf.blockAt w) = some w := by
  have hlt : v < cf.blocks.size := h.size ▸ he.source_lt
  have hget : cf.blocks[v]? = some (cf.blockAt v) := by
    rw [blockAt, Array.getD_of_lt _ hlt]
    exact Array.getElem?_eq_getElem hlt
  obtain ⟨x, hx, hpass⟩ := (h.edge_iff hget).mp he
  rw [h.blockAt_of_nodeOf hx]
  exact ⟨hpass, hx⟩

theorem nodeOf_entry {entry : BlockId} (hentry : c.entry f = some entry) :
    cf.nodeOf entry = some 0 :=
  position?_first (h.blocks ▸ hentry)

theorem entry_exists : ∃ entry, c.entry f = some entry := by
  have hpos := h.wellFormed.pos
  rw [h.size, h.blocks] at hpos
  exact ⟨_, Array.getElem?_eq_getElem hpos⟩

end

section Images

variable {entry : BlockId} {v : Nat}

variable (h : cf.Describes c f) (hentry : c.entry f = some entry)
include h hentry

theorem path_blocks (hb : cf.nodeOf b = some v) {p : List Nat} (hp : FlowPath cf.graph.Edge 0 v p) :
    FlowPath (c.Passes f) entry b (p.map cf.blockAt) ∧
      ∀ x ∈ p, cf.nodeOf (cf.blockAt x) = some x := by
  have h0 := h.blockAt_of_nodeOf (h.nodeOf_entry hentry)
  constructor
  · rw [← h0, ← h.blockAt_of_nodeOf hb]
    exact hp.map cf.blockAt fun u w he => (h.passes_of_edge he).1
  · intro x hx
    rcases hp.mem_target hx with rfl | ⟨y, hy⟩
    · rw [h0]
      exact h.nodeOf_entry hentry
    · exact (h.passes_of_edge hy).2

theorem path_nodes (hb : cf.nodeOf b = some v) {p : List BlockId}
    (hp : FlowPath (c.Passes f) entry b p) :
    FlowPath cf.graph.Edge 0 v (p.map fun x => (cf.nodeOf x).getD 0) ∧
      ∀ x ∈ p, ∃ w, cf.nodeOf x = some w := by
  have hedge : ∀ x y, c.Passes f x y →
      cf.graph.Edge ((cf.nodeOf x).getD 0) ((cf.nodeOf y).getD 0) := by
    intro x y hxy
    obtain ⟨i, j, hi, hj, he⟩ := h.passes_target hxy
    rwa [hi, hj]
  constructor
  · have hmap := hp.map (fun x => (cf.nodeOf x).getD 0) hedge
    rwa [h.nodeOf_entry hentry, hb] at hmap
  · intro x hx
    rcases hp.mem_target hx with rfl | ⟨y, hy⟩
    · exact ⟨0, h.nodeOf_entry hentry⟩
    · obtain ⟨_, w, _, hw, _⟩ := h.passes_target hy
      exact ⟨w, hw⟩

theorem reached_iff
    (hb : cf.nodeOf b = some v) : Reached cf.graph.Edge 0 v ↔ Reached (c.Passes f) entry b := by
  constructor
  · rintro ⟨p, hp⟩
    exact ⟨_, (h.path_blocks hentry hb hp).1⟩
  · rintro ⟨p, hp⟩
    exact ⟨_, (h.path_nodes hentry hb hp).1⟩

theorem dominance_iff {a : BlockId} {u : Nat} (ha : cf.nodeOf a = some u)
    (hb : cf.nodeOf b = some v) :
    Dominance cf.graph.Edge 0 u v ↔ Dominance (c.Passes f) entry a b := by
  constructor
  · intro hdom p hp
    obtain ⟨hp', hnodes⟩ := h.path_nodes hentry hb hp
    obtain ⟨x, hx, hxu⟩ := mem_map.mp (hdom _ hp')
    obtain ⟨w, hw⟩ := hnodes x hx
    rw [hw, Option.getD_some] at hxu
    rwa [← h.blockAt_of_nodeOf ha, ← hxu, h.blockAt_of_nodeOf hw]
  · intro hdom p hp
    obtain ⟨hp', hnodes⟩ := h.path_blocks hentry hb hp
    obtain ⟨x, hx, hxa⟩ := mem_map.mp (hdom _ hp')
    have hxx := hnodes x hx
    rw [hxa, ha] at hxx
    exact Option.some.inj hxx ▸ hx

theorem nodeOf_of_reached (hb : Reached (c.Passes f) entry b) : ∃ v, cf.nodeOf b = some v := by
  obtain ⟨p, hp⟩ := hb
  rcases hp.mem_target hp.target_mem with rfl | ⟨y, hy⟩
  · exact ⟨0, h.nodeOf_entry hentry⟩
  · obtain ⟨_, w, _, hw, _⟩ := h.passes_target hy
    exact ⟨w, hw⟩

theorem nodeOf_of_dominance {a : BlockId} (hb : Reached (c.Passes f) entry b)
    (hab : Dominance (c.Passes f) entry a b) : ∃ v, cf.nodeOf a = some v := by
  obtain ⟨v, hv⟩ := h.nodeOf_of_reached hentry hb
  obtain ⟨p, hp⟩ := hb
  exact (h.path_nodes hentry hv hp).2 a (hab p hp)

theorem immediateDominance_iff {a : BlockId} {u : Nat} (ha : cf.nodeOf a = some u)
    (hb : cf.nodeOf b = some v)
    (hreach : Reached (c.Passes f) entry b) :
    ImmediateDominance cf.graph.Edge 0 u v ↔ ImmediateDominance (c.Passes f) entry a b := by
  have hne : ∀ {x y : BlockId} {i j : Nat}, cf.nodeOf x = some i → cf.nodeOf y = some j →
      (i ≠ j ↔ x ≠ y) := by
    intro x y i j hx hy
    rw [not_iff_not]
    constructor
    · rintro rfl
      rw [← h.blockAt_of_nodeOf hx, h.blockAt_of_nodeOf hy]
    · rintro rfl
      exact Option.some.inj (hx.symm.trans hy)
  constructor
  · rintro ⟨hne', hdom, hclosest⟩
    refine ⟨(hne ha hb).mp hne', (h.dominance_iff hentry ha hb).mp hdom, fun x hxb hx => ?_⟩
    obtain ⟨i, hi⟩ := h.nodeOf_of_dominance hentry hreach hx
    exact (h.dominance_iff hentry hi ha).mp
      (hclosest i ((hne hi hb).mpr hxb) ((h.dominance_iff hentry hi hb).mpr hx))
  · rintro ⟨hne', hdom, hclosest⟩
    refine ⟨(hne ha hb).mpr hne', (h.dominance_iff hentry ha hb).mpr hdom, fun i hiv hi => ?_⟩
    obtain ⟨p, hp⟩ := (h.reached_iff hentry hb).mpr hreach
    have hx := (h.path_blocks hentry hb hp).2 i (hi p hp)
    exact (h.dominance_iff hentry hx ha).mpr
      (hclosest _ ((hne hx hb).mp hiv) ((h.dominance_iff hentry hx hb).mp hi))

end Images

end Describes

theorem map_eraseDups_filterMap {α β : Type} [DecidableEq α] [DecidableEq β] {φ : α → Option β}
    {ψ : β → α}
    (l : List α) (h : ∀ x ∈ l, ∃ y, φ x = some y ∧ ψ y = x) :
    (l.filterMap φ).eraseDups.map ψ = l.eraseDups := by
  induction hn : l.length using Nat.strong_induction_on generalizing l with
  | _ n ih =>
    cases l with
    | nil => rfl
    | cons x l =>
      obtain ⟨y, hxy, hyx⟩ := h x (.head _)
      have hrest :
          (l.filterMap φ).filter (fun z => !z == y) = (l.filter fun z => !z == x).filterMap φ := by
        rw [filter_filterMap, filterMap_filter]
        refine filterMap_congr fun z hz => ?_
        obtain ⟨y', hzy, hyz⟩ := h z (.tail _ hz)
        grind
      rw [filterMap_cons_some hxy, eraseDups_cons, eraseDups_cons, map_cons, hyx, hrest,
        ih _ ?_ _ (fun z hz => h z (.tail _ (mem_filter.mp hz).1)) rfl]
      exact hn ▸ Nat.lt_succ_of_le (length_filter_le _ _)

theorem nodeOf_blockAt (h : cf.blocks.toList.Nodup) {v : Nat} (hv : v < cf.size) :
    cf.nodeOf (cf.blockAt v) = some v := by
  have hget : cf.blocks.toList[v]? = some (cf.blockAt v) := by
    rw [blockAt, Array.getD_of_lt _ hv, Array.getElem?_toList]
    exact Array.getElem?_eq_getElem hv
  obtain ⟨w, hw⟩ := position?_exists (Array.mem_toList_iff.mp (mem_of_getElem? hget))
  have heq := hget.trans (Array.getElem?_toList.trans (getElem?_of_position? hw)).symm
  rwa [← (getElem?_inj (List.getElem?_eq_some_iff.mp hget).1 h).mp heq] at hw

/-- A function with a body whose terminators name blocks has a flow graph exactly when all of these
are its own. Then the successors of a node are the targets of its block in order, without those
named before; predecessors mirror successors, each once and in ascending order; and blocks and nodes
determine each other. -/
theorem ofFunction_edges_exact (targets : BlockId → List BlockId)
    (hbody : (c.func f).blocks.isEmpty = false)
    (honce : (c.func f).blocks.toList.Nodup)
    (htargets : ∀ b ∈ (c.func f).blocks, c.blockSuccessors b = some (targets b)) :
    ((∃ cf, ofFunction c f = .ok cf) ↔ ∀ b ∈ (c.func f).blocks, ∀ t ∈ targets b,
      t ∈ (c.func f).blocks) ∧
    ∀ cf, ofFunction c f = .ok cf →
      (∀ b v, cf.nodeOf b = some v →
        cf.blocksAt (cf.graph.succsOf v) = (targets b).eraseDups ∧
        (c.terminator b = none → cf.graph.succsOf v = [])) ∧
      (∀ p s, (cf.graph.predsOf s).count p = if s ∈ cf.graph.succsOf p then 1 else 0) ∧
      (∀ s, (cf.graph.predsOf s).Pairwise (· < ·)) ∧
      ∀ b v, cf.nodeOf b = some v ↔ v < cf.size ∧ cf.blockAt v = b := by
  refine ⟨⟨fun ⟨cf, hcf⟩ b hb => ?_, fun h => ?_⟩, fun cf hcf => ?_⟩
  · have hd := ofFunction_eq_ok_iff.mp hcf
    obtain ⟨bs, hbs, hall⟩ := hd.targets b (hd.blocks ▸ hb)
    cases (htargets b hb).symm.trans hbs
    exact hd.blocks ▸ hall
  · exact exists_ofFunction hbody fun b hb => ⟨targets b, htargets b hb, h b hb⟩
  · have hd := ofFunction_eq_ok_iff.mp hcf
    have hpreds : ∀ s, (cf.graph.predsOf s).Pairwise (· < ·) := fun s => by
      rw [hd.regular.2]
      exact pairwise_lt_range.filter _
    refine ⟨fun b v hv => ?_, fun p s => ?_, hpreds, fun b v => ⟨fun hv => ?_, fun ⟨hv, hb⟩ => ?_⟩⟩
    · have hb := hd.mem_of_nodeOf hv
      obtain ⟨bs, hbs, hall⟩ := hd.targets b (hd.blocks ▸ hb)
      cases (htargets b hb).symm.trans hbs
      rw [hd.succsOf_eq (getElem?_of_position? hv), row, hbs]
      refine ⟨map_eraseDups_filterMap _ fun t ht => ?_, fun hnone => ?_⟩
      · obtain ⟨w, hw⟩ := position?_exists (hall t ht)
        exact ⟨w, hw, hd.blockAt_of_nodeOf hw⟩
      · rw [Context.blockSuccessors, hnone] at hbs
        rw [← Option.some.inj hbs]
        rfl
    · have hnodup : (cf.graph.predsOf s).Nodup := (hpreds s).imp Nat.ne_of_lt
      rw [hnodup.count]
      simp only [hd.wellFormed.mem_preds, FlowGraph.Edge]
    · obtain ⟨hlt, -⟩ := Array.getElem?_eq_some_iff.mp (getElem?_of_position? hv)
      exact ⟨hlt, hd.blockAt_of_nodeOf hv⟩
    · exact hb ▸ nodeOf_blockAt (hd.blocks ▸ honce) hv

end ControlFlow

namespace FlowAnalysis

variable {c : Context} {f : FuncId} {a : FlowAnalysis}

section

variable (h : ofFunction c f = .ok a)
include h

theorem ofFunction_spec : a.flow.Describes c f ∧ a = ofFlow a.flow := by
  obtain ⟨cf, hflow, ha⟩ := Except.bind_eq_ok_iff.mp h
  cases ha
  exact ⟨ControlFlow.ofFunction_eq_ok_iff.mp hflow, rfl⟩

theorem ofFunction_tree : a.tree = ofGraph a.flow.graph :=
  congrArg tree (ofFunction_spec h).2

theorem reachable_iff {entry b : BlockId} (hentry : c.entry f = some entry)
    (hb : b ∈ (c.func f).blocks) :
    a.reachable (some b) = true ↔ Reached (c.Passes f) entry b := by
  have hd := (ofFunction_spec h).1
  obtain ⟨v, hv⟩ := hd.nodeOf_exists hb
  rw [← hd.reached_iff hentry hv, ← ofGraph_reachable_iff hd.wellFormed]
  simp only [reachable, node?, Option.bind_some, hv, ofFunction_tree h]

/-- The analysis knows dominance; a block that control does not reach is dominated by itself
only. -/
theorem dominatesBlock_iff {entry x b : BlockId}
    (hentry : c.entry f = some entry) (hx : x ∈ (c.func f).blocks) (hb : b ∈ (c.func f).blocks) :
    a.dominatesBlock x b = true ↔
      x = b ∨ Reached (c.Passes f) entry b ∧ Dominance (c.Passes f) entry x b := by
  have hd := (ofFunction_spec h).1
  obtain ⟨u, hu⟩ := hd.nodeOf_exists hx
  obtain ⟨v, hv⟩ := hd.nodeOf_exists hb
  have hiff := ofGraph_dominates_iff hd.wellFormed (a := u) (b := v)
  rw [hd.reached_iff hentry hv, hd.dominance_iff hentry hu hv] at hiff
  simp only [dominatesBlock, Bool.or_eq_true, decide_eq_true_eq, hu, hv, ofFunction_tree h, hiff]
  constructor
  · rintro (heq | rfl | hdom)
    · exact .inl heq
    · exact .inl ((hd.blockAt_of_nodeOf hu).symm.trans (hd.blockAt_of_nodeOf hv))
    · exact .inr hdom
  · rintro (heq | hdom)
    · exact .inl heq
    · exact .inr (.inr hdom)

omit h in
theorem mem_predecessors_of_nodeOf (hg : a.flow.graph.WellFormed) {x b : BlockId} {v : Nat}
    (hv : a.flow.nodeOf b = some v) : x ∈ a.predecessors (some b) ↔
      ∃ u, a.flow.graph.Edge u v ∧ a.flow.blockAt u = x := by
  simp only [predecessors, node?, Option.bind_some, hv, ControlFlow.blocksAt, mem_map, hg.mem_preds]

theorem mem_predecessors_iff {x b : BlockId}
    (hb : b ∈ (c.func f).blocks) : x ∈ a.predecessors (some b) ↔ c.Passes f x b := by
  have hd := (ofFunction_spec h).1
  obtain ⟨v, hv⟩ := hd.nodeOf_exists hb
  rw [mem_predecessors_of_nodeOf hd.wellFormed hv]
  constructor
  · rintro ⟨u, hu, rfl⟩
    have hpass := (hd.passes_of_edge hu).1
    rwa [hd.blockAt_of_nodeOf hv] at hpass
  · intro hpass
    obtain ⟨u, w, hu, hw, hedge⟩ := hd.passes_target hpass
    cases hv.symm.trans hw
    exact ⟨u, hedge, hd.blockAt_of_nodeOf hu⟩

/-- The analysis knows immediate dominators: every reached block but the entry has one, and it is
the only one. -/
theorem idom_spec {entry b : BlockId}
    (hentry : c.entry f = some entry) (hb : Reached (c.Passes f) entry b) (hne : b ≠ entry) :
    ∃ d ∈ (c.func f).blocks, a.idom (some b) = some d ∧
      ∀ x, ImmediateDominance (c.Passes f) entry x b ↔ x = d := by
  have hd := (ofFunction_spec h).1
  obtain ⟨v, hv⟩ := hd.nodeOf_of_reached hentry hb
  have hreach := (hd.reached_iff hentry hv).mpr hb
  have hv0 : v ≠ 0 := by
    rintro rfl
    exact hne ((hd.blockAt_of_nodeOf hv).symm.trans
      (hd.blockAt_of_nodeOf (hd.nodeOf_entry hentry)))
  obtain ⟨e, he⟩ := ofGraph_idomOf_exists hd.wellFormed hreach hv0
  obtain ⟨_, _, himm⟩ := (ofGraph_idomOf_iff hd.wellFormed).mp he
  obtain ⟨p, hp⟩ := hreach
  have hnode := (hd.path_blocks hentry hv hp).2 e (himm.dominates p hp)
  refine ⟨a.flow.blockAt e, hd.mem_of_nodeOf hnode, ?_, fun x => ⟨fun hx => ?_, ?_⟩⟩
  · simp only [idom, node?, Option.bind_some, hv, ofFunction_tree h, he, Option.bind_eq_bind,
      Option.map_eq_map, Option.map_some]
  · obtain ⟨w, hw⟩ := hd.nodeOf_of_dominance hentry hb hx.dominates
    have hx' := (hd.immediateDominance_iff hentry hw hv hb).mpr hx
    rw [immediateDominance_unique hd.wellFormed ⟨p, hp⟩ himm hx',
      hd.blockAt_of_nodeOf hw]
  · rintro rfl
    exact (hd.immediateDominance_iff hentry hnode hv hb).mp himm

end

/-- For every function that has a flow graph and any of its blocks, the analysis says that control
reaches a block when there is a path to it from the entry, that a block dominates a reached block
when every path to that one passes through it, and an unreached block when it is that block; and
the immediate dominator of a reached block other than the entry is the one strict dominator of it
that all its strict dominators dominate. -/
theorem ofFunction_dominance_exact (h : ofFunction c f = .ok a) :
    ∃ entry ∈ (c.func f).blocks, c.entry f = some entry ∧ ∀ b ∈ (c.func f).blocks,
      (a.reachable (some b) = true ↔ ∃ p, FlowPath (c.Passes f) entry b p) ∧
      (a.reachable (some b) = true → ∀ x ∈ (c.func f).blocks,
        (a.dominatesBlock x b = true ↔ ∀ p, FlowPath (c.Passes f) entry b p → x ∈ p)) ∧
      (a.reachable (some b) = false → ∀ x ∈ (c.func f).blocks,
        (a.dominatesBlock x b = true ↔ x = b)) ∧
      (a.reachable (some b) = true → b ≠ entry → ∃ d ∈ (c.func f).blocks,
        a.idom (some b) = some d ∧ ∀ x, ImmediateDominance (c.Passes f) entry x b ↔ x = d) := by
  obtain ⟨entry, hentry⟩ := (ofFunction_spec h).1.entry_exists
  refine ⟨entry, Array.mem_of_getElem? hentry, hentry, fun b hb => ?_⟩
  have hreach := reachable_iff h hentry hb
  refine ⟨hreach, fun hr x hx => ?_, fun hr x hx => ?_, fun hr hne => ?_⟩
  · rw [dominatesBlock_iff h hentry hx hb]
    constructor
    · rintro (rfl | ⟨_, hdom⟩)
      · exact dominance_refl x
      · exact hdom
    · exact fun hdom => .inr ⟨hreach.mp hr, hdom⟩
  · rw [dominatesBlock_iff h hentry hx hb]
    constructor
    · rintro (rfl | ⟨hb', _⟩)
      · rfl
      · rw [hreach.mpr hb'] at hr
        exact absurd hr (by decide)
    · exact .inl
  · exact idom_spec h hentry (hreach.mp hr) hne

/-- A function whose entry branches to two blocks that meet in a third, a fifth block that branches
there twice and that nothing branches to, and one without a terminator. -/
def diamond : Context :=
  { types := []
    constants := #[]
    functions :=
      #[{ name := "f", parent := ⟨0⟩, ret := .void, blocks := #[⟨0⟩, ⟨1⟩, ⟨2⟩, ⟨3⟩, ⟨4⟩, ⟨5⟩] }]
    blocks := #[
      { name := "entry", parent := ⟨0⟩, linked := true, insts := #[⟨0⟩] },
      { name := "left", parent := ⟨0⟩, linked := true, insts := #[⟨1⟩] },
      { name := "right", parent := ⟨0⟩, linked := true, insts := #[⟨2⟩] },
      { name := "join", parent := ⟨0⟩, linked := true, insts := #[⟨3⟩] },
      { name := "dead", parent := ⟨0⟩, linked := true, insts := #[⟨4⟩] },
      { name := "open", parent := ⟨0⟩, linked := true }]
    insts := #[
      { op := .condBr, name := "", type := .void, parent := some ⟨0⟩
        operands := #[some (.arg ⟨0⟩), some (.block ⟨1⟩), some (.block ⟨2⟩)] },
      { op := .br, name := "", type := .void, parent := some ⟨1⟩
        operands := #[some (.block ⟨3⟩)] },
      { op := .br, name := "", type := .void, parent := some ⟨2⟩
        operands := #[some (.block ⟨3⟩)] },
      { op := .ret, name := "", type := .void, parent := some ⟨3⟩ },
      { op := .condBr, name := "", type := .void, parent := some ⟨4⟩
        operands := #[some (.arg ⟨0⟩), some (.block ⟨3⟩), some (.block ⟨3⟩)] }] }

theorem edges_exact_diamond :
    diamond.blockSuccessors ⟨4⟩ = some [⟨3⟩, ⟨3⟩] ∧ diamond.terminator ⟨5⟩ = none ∧
    ∃ cf, ControlFlow.ofFunction diamond ⟨0⟩ = .ok cf ∧
      cf.blocksAt (cf.graph.succsOf 4) = [⟨3⟩] ∧ cf.graph.succsOf 5 = [] ∧
      ∀ s, (cf.graph.predsOf s).Pairwise (· < ·) := by
  have hexact := ControlFlow.ofFunction_edges_exact (c := diamond) (f := ⟨0⟩)
    (fun b => (diamond.blockSuccessors b).getD []) (by decide) (by decide) (by decide +kernel)
  obtain ⟨cf, hcf⟩ := hexact.1.mpr (by decide +kernel)
  have hnodes : (ControlFlow.ofFunction diamond ⟨0⟩).toOption.map
      (fun cf => (cf.nodeOf ⟨4⟩, cf.nodeOf ⟨5⟩)) = some (some 4, some 5) := by
    decide +kernel
  simp only [hcf, Except.toOption, Option.map_some, Option.some.injEq, Prod.mk.injEq] at hnodes
  obtain ⟨hsuccs, -, hpreds, -⟩ := hexact.2 cf hcf
  exact ⟨by decide +kernel, by decide +kernel, cf, hcf,
    (hsuccs _ _ hnodes.1).1.trans (by decide +kernel),
    (hsuccs _ _ hnodes.2).2 (by decide +kernel), hpreds⟩

/-- The entry is the immediate dominator of the block where two ways meet, although an unreached
block branches there too. -/
theorem dominance_exact_diamond : ∃ a, ofFunction diamond ⟨0⟩ = .ok a ∧
    a.reachable (some ⟨4⟩) = false ∧ a.idom (some ⟨3⟩) = some ⟨0⟩ ∧
    ∀ x, ImmediateDominance (diamond.Passes ⟨0⟩) ⟨0⟩ x ⟨3⟩ ↔ x = ⟨0⟩ := by
  have hrun : (ofFunction diamond ⟨0⟩).toOption.map
      (fun a => (a.reachable (some ⟨3⟩), a.reachable (some ⟨4⟩), a.idom (some ⟨3⟩))) =
      some (true, false, some ⟨0⟩) := by
    decide +kernel
  cases ha : ofFunction diamond ⟨0⟩ with
  | error e => simp [ha, Except.toOption] at hrun
  | ok a =>
    simp only [ha, Except.toOption, Option.map_some, Option.some.injEq, Prod.mk.injEq] at hrun
    obtain ⟨hjoin, hdead, hidom⟩ := hrun
    obtain ⟨entry, _, hentry, hall⟩ := ofFunction_dominance_exact ha
    cases hentry
    obtain ⟨_, _, _, himm⟩ := hall ⟨3⟩ (by decide +kernel)
    obtain ⟨d, _, hd, hunique⟩ := himm hjoin (by decide)
    cases hidom.symm.trans hd
    exact ⟨a, rfl, hdead, hidom, hunique⟩

end FlowAnalysis

end SsaIr
