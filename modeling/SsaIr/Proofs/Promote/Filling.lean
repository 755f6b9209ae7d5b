import SsaIr.Proofs.Promote.Reaching

/-!
# The incoming pairs of inserted phis

After the walk, an inserted phi has one incoming pair for each predecessor of its block, whether
control reaches it or not, and for a predecessor that control reaches the value is the one that the
cell holds at its end. Read `walk_sources` and `walk_fills` first.
-/

namespace SsaIr

open List

namespace Promote

def Renaming.sources (r : Renaming) (i : InstId) : List BlockId :=
  (r.fills.filter fun x => x.1 = i).map fun x => x.2.2

namespace Plan

variable {p : Plan} {a : FlowAnalysis} {f : FuncId} {c : Context} {i : InstId}

/-! ## Sources -/

theorem visitInsts_sources (l : List InstId) (s : Renaming × Env) :
    (l.foldl p.visitInst s).1.sources i = s.1.sources i := by
  induction l generalizing s with
  | nil => rfl
  | cons j l ih =>
    rw [foldl_cons, ih]
    have hvisit := visitInst_visit p s j
    generalize p.visitInst s j = t at hvisit ⊢
    cases hvisit with
    | phi _ _ _ => rfl
    | load _ _ _ =>
      simp only [Renaming.sources, Renaming.replace, filter_map, map_map]
      rfl
    | store _ _ _ _ => rfl
    | other _ _ => rfl

/-- Filling phis for control that comes from a block adds it to the sources of each, as often as
that is filled. -/
theorem fillPhis_sources {n : Nat} (hi : p.phiOf i = some n) (env : Env) (b : BlockId)
    (l : List InstId) (r : Renaming) :
    (l.foldl (p.fillPhi env b) r).sources i = r.sources i ++ List.replicate (l.count i) b := by
  induction l generalizing r with
  | nil => simp
  | cons j l ih =>
    rw [foldl_cons, ih]
    by_cases hji : j = i
    · subst hji
      have hfill : (p.fillPhi env b r j).sources j = r.sources j ++ [b] := by
        simp [fillPhi, hi, Renaming.fill, Renaming.sources]
      rw [hfill, count_cons_self, append_assoc, singleton_append,
        replicate_succ]
    · have hfill : (p.fillPhi env b r j).sources i = r.sources i := by
        unfold fillPhi
        split
        · simp [Renaming.fill, Renaming.sources, hji]
        · rfl
      rw [hfill, count_cons_of_ne hji]

/-- A phi that stands in the block of one node is filled once for each time that node is a
target. -/
theorem count_phis (hp : p.program.Placed) (ha : Analyses a c f) {y : Nat}
    (hi : i ∈ p.program.phis (a.flow.blockAt y)) (hy : y < a.flow.size) (ws : List Nat)
    (hws : ∀ w ∈ ws, w < a.flow.size) :
    ((ws.map a.flow.blockAt).flatMap p.program.phis).count i = ws.count y := by
  have hsub : ∀ b, (p.program.phis b).Sublist (p.program.block b).insts.toList :=
    fun b => takeWhile_sublist _
  induction ws with
  | nil => rfl
  | cons w ws ih =>
    have hrest := ih fun x hx => hws x (.tail _ hx)
    rw [map_cons, flatMap_cons, count_append, hrest]
    by_cases hwy : w = y
    · subst hwy
      rw [count_cons_self, count_eq_one_of_mem
        ((hp.insts_nodup _).sublist (hsub _)) hi, Nat.add_comm]
    · have hnot : i ∉ p.program.phis (a.flow.blockAt w) := by
        intro hmem
        have hparent := hp.mem_parent ⟨(hsub _).subset hmem⟩
        rw [hp.mem_parent ⟨(hsub _).subset hi⟩] at hparent
        exact hwy (ha.blockAt_inj (hws w (.head _)) hy (Option.some.inj hparent).symm)
      rw [count_cons_of_ne hwy, count_eq_zero_of_not_mem hnot, Nat.zero_add]

theorem successors_blockAt (ha : Analyses a c f) {v : Nat} (hv : v < a.flow.size) :
    a.successors (some (a.flow.blockAt v)) = (a.flow.graph.succsOf v).map a.flow.blockAt := by
  simp only [FlowAnalysis.successors, FlowAnalysis.node?, Option.bind_some, ha.nodeOf_blockAt hv,
    ControlFlow.blocksAt]

theorem visitNodes_sources (hp : p.program.Placed) (ha : Analyses a c f) {y n : Nat}
    (hi : i ∈ p.program.phis (a.flow.blockAt y)) (hn : p.phiOf i = some n) (hy : y < a.flow.size)
    (vs : List Nat) (hvs : ∀ v ∈ vs, v < a.flow.size) (s : Renaming × (Nat → Env)) :
    (p.visitNodes a s vs).1.sources i = s.1.sources i ++
      (vs.filter fun v => y ∈ a.flow.graph.succsOf v).map a.flow.blockAt := by
  induction vs generalizing s with
  | nil => exact (append_nil _).symm
  | cons v vs ih =>
    have hv := hvs v (.head _)
    have hnode : (p.visitNode a s v).1.sources i = s.1.sources i ++
        List.replicate ((a.flow.graph.succsOf v).count y) (a.flow.blockAt v) := by
      have hcount := count_phis hp ha hi hy (a.flow.graph.succsOf v) fun w hw => ha.target_lt hw
      rw [← successors_blockAt ha hv] at hcount
      rw [← hcount, ← visitInsts_sources (p.program.block (a.flow.blockAt v)).insts.toList
        (s.1, p.startOf a s.2 v)]
      exact fillPhis_sources hn _ _ _ _
    show (p.visitNodes a (p.visitNode a s v) vs).1.sources i = _
    rw [ih (fun w hw => hvs w (.tail _ hw)), hnode, append_assoc]
    congr 1
    by_cases hmem : y ∈ a.flow.graph.succsOf v
    · rw [count_eq_one_of_mem (ha.succs_nodup v) hmem, filter_cons_of_pos (by simpa)]
      rfl
    · rw [count_eq_zero_of_not_mem hmem, filter_cons_of_neg (by simpa)]
      rfl

theorem walk_sources (hp : p.program.Placed) (ha : Analyses a c f) {y n : Nat}
    (hi : i ∈ p.program.phis (a.flow.blockAt y)) (hn : p.phiOf i = some n) (hy : y < a.flow.size) :
    (p.walk a).1.sources i =
      ((order a).filter fun v => y ∈ a.flow.graph.succsOf v).map a.flow.blockAt :=
  visitNodes_sources hp ha hi hn hy (order a) (fun _ hv => (mem_order ha).mp hv) _

/-! ## Values -/

/-- Incoming pairs come from nodes that were visited, and those from reachable nodes have the values
that are current at their ends. -/
def Filled (p : Plan) (a : FlowAnalysis) (out : Nat → Env) (vs : List Nat) (r : Renaming) : Prop :=
  ∀ x ∈ r.fills, ∃ n u, p.phiOf x.1 = some n ∧ u ∈ vs ∧ x.2.2 = a.flow.blockAt u ∧
    (Reached a.flow.graph.Edge 0 u → x.2.1 = out u n)

theorem Filled.visitInsts {out : Nat → Env} {vs : List Nat} (hp : p.Fits f)
    (hsettled : ∀ u, Reached a.flow.graph.Edge 0 u → ∀ n < p.cells.length, p.Settled (out u n))
    (l : List InstId) (s : Renaming × Env) (h : p.Filled a out vs s.1) :
    p.Filled a out vs (l.foldl p.visitInst s).1 := by
  induction l generalizing s with
  | nil => exact h
  | cons j l ih =>
    refine ih _ ?_
    have hvisit := visitInst_visit p s j
    generalize p.visitInst s j = t at hvisit ⊢
    cases hvisit with
    | phi _ _ _ => exact h
    | @load m hop hm _ =>
      intro x hx
      obtain ⟨y, hy, rfl⟩ := mem_map.mp hx
      obtain ⟨n, u, hn, hu, hb, hvalue⟩ := h y hy
      refine ⟨n, u, hn, hu, hb, fun hr => ?_⟩
      have hset := hsettled u hr n (hp.phi hn).1
      show substValue j (s.2 m) y.2.1 = out u n
      rw [hvalue hr, substValue, if_neg fun heq => ?_]
      have hload := hset j heq
      rw [loads_iff.mpr ⟨hop, _, hm⟩] at hload
      cases hload
    | store _ _ _ _ => exact h
    | other _ _ => exact h

theorem Filled.fillPhis {out : Nat → Env} {vs : List Nat} {v : Nat} (hv : v ∈ vs)
    (l : List InstId) (r : Renaming) (h : p.Filled a out vs r) :
    p.Filled a out vs (l.foldl (p.fillPhi (out v) (a.flow.blockAt v)) r) := by
  induction l generalizing r with
  | nil => exact h
  | cons j l ih =>
    refine ih _ ?_
    unfold fillPhi
    split
    · rename_i n hn
      intro x hx
      rcases mem_append.mp hx with hx | hx
      · exact h x hx
      · rw [mem_singleton.mp hx]
        exact ⟨n, v, hn, hv, rfl, fun _ => rfl⟩
    · exact h

/-- After the walk, the incoming pairs from reachable nodes have the values that the cells hold at
their ends. -/
theorem walk_fills (hp : p.Fits f) (ha : Analyses a c f) (hord : p.Ordered a)
    (hnodup : (p.instsOf a (order a)).Nodup) :
    p.Filled a (p.walk a).2 (order a) (p.walk a).1 := by
  have hsettled : ∀ u, Reached a.flow.graph.Edge 0 u → ∀ n < p.cells.length,
      p.Settled ((p.walk a).2 u n) := by
    intro u hu n hn
    obtain ⟨hsolved, hout, _⟩ := walk_solved ha hord hnodup hu
    rw [hout]
    exact (hsolved.held (append_nil _).symm n hn).1
  -- The values at the end of a node do not change once it was visited.
  have hsteps : ∀ (ws vs : List Nat) (s : Renaming × (Nat → Env)), order a = vs ++ ws →
      p.walk a = p.visitNodes a s ws → p.Filled a (p.walk a).2 vs s.1 →
        p.Filled a (p.walk a).2 (vs ++ ws) (p.visitNodes a s ws).1 := by
    intro ws
    induction ws with
    | nil =>
      intro vs s _ _ h
      rwa [append_nil]
    | cons v ws ih =>
      intro vs s horder hwalk h
      have hlater : v ∉ ws := by
        have hnd := order_nodup ha
        rw [horder] at hnd
        exact (nodup_cons.mp (nodup_append.mp hnd).2.1).1
      have hout : (p.walk a).2 v = (p.visitBlock (a.successors (some (a.flow.blockAt v)))
          (a.flow.blockAt v) (s.1, p.startOf a s.2 v)).2 := by
        rw [hwalk]
        exact (visitNodes_out (t := p.visitNode a s v) hlater).trans (Function.update_self _ _ _)
      have hmem : v ∈ vs ++ [v] := mem_append_right _ (.head _)
      have hmono : p.Filled a (p.walk a).2 (vs ++ [v]) s.1 := by
        intro x hx
        obtain ⟨n, u, hn, hu, hrest⟩ := h x hx
        exact ⟨n, u, hn, mem_append_left _ hu, hrest⟩
      have hnode : p.Filled a (p.walk a).2 (vs ++ [v]) (p.visitNode a s v).1 := by
        have hinsts := hmono.visitInsts hp hsettled
          (p.program.block (a.flow.blockAt v)).insts.toList (s.1, p.startOf a s.2 v)
        have hfill := Filled.fillPhis hmem ((a.successors (some (a.flow.blockAt v))).flatMap
          p.program.phis) _ hinsts
        rwa [hout] at hfill
      have hrest := ih (vs ++ [v]) (p.visitNode a s v) (by rw [horder]; simp) hwalk hnode
      rwa [append_assoc, singleton_append] at hrest
  exact hsteps (order a) [] ({}, fun _ => p.undefs) rfl rfl fun _ h => absurd h not_mem_nil

end Plan

end Promote

end SsaIr
