import SsaIr.Proofs.Promote.Filling
import SsaIr.Proofs.Promote.Outcome

/-!
# Definitions come before their uses

The verifier's dominance checks on a function say that the operands of its reachable blocks are at
hand, so that the values which renaming puts there are at hand as well. Read `Checked.ordered`
first.
-/

namespace SsaIr

open FlowAnalysis

/-- An instruction is defined at a position of a block if it stands before it there, or in another
block that dominates this one. -/
theorem Site.defined_iff {s : Site} (h : s.context.Standing) {d : InstId} {b : BlockId}
    (hd : (s.context.inst d).parent = some b) {position : Nat} : s.Defined position d ↔
      b = s.block ∧ d ∈ (s.context.block b).insts.toList.take position ∨
        b ≠ s.block ∧ s.analysis.dominatesBlock b s.block = true := by
  unfold Site.Defined
  rw [hd]
  by_cases hb : b = s.block
  · subst hb
    rw [if_pos rfl, Array.idxOf?_getD_lt_iff (h.inst_mem hd)]
    simp
  · rw [if_neg fun heq => hb (Option.some.inj heq)]
    simp [hb]

namespace Promote.Analyses

variable {a : FlowAnalysis} {c : Context} {f : FuncId} {u v : Nat}

variable (ha : Analyses a c f)
include ha

theorem reachable_iff (hv : v < a.flow.size) :
    a.reachable (some (a.flow.blockAt v)) = true ↔ Reached a.flow.graph.Edge 0 v := by
  rw [← ha.tree_reachable]
  simp only [reachable, node?, Option.bind_some, ha.nodeOf_blockAt hv]

theorem node_of_reachable {b : BlockId} (h : a.reachable (some b) = true) :
    ∃ v < a.flow.size, a.flow.blockAt v = b ∧ Reached a.flow.graph.Edge 0 v := by
  have hmem : b ∈ (c.func f).blocks := by
    cases hnode : a.flow.nodeOf b with
    | none => simp [reachable, node?, hnode] at h
    | some v =>
      rw [← ha.blocks]
      exact Array.mem_of_getElem? (ControlFlow.getElem?_of_position? hnode)
  obtain ⟨v, hv, rfl⟩ := ha.exists_node hmem
  exact ⟨v, hv, rfl, (ha.reachable_iff hv).mp h⟩

theorem dominatesBlock_iff (hu : u < a.flow.size) (hv : v < a.flow.size)
    (hr : Reached a.flow.graph.Edge 0 v) :
    a.dominatesBlock (a.flow.blockAt u) (a.flow.blockAt v) = true ↔
      u = v ∨ Dominance a.flow.graph.Edge 0 u v := by
  have hiff := DominatorTree.ofGraph_dominates_iff ha.wellFormed (a := u) (b := v)
  rw [← ha.tree] at hiff
  simp only [dominatesBlock, Bool.or_eq_true, decide_eq_true_eq,
    ha.nodeOf_blockAt hu, ha.nodeOf_blockAt hv, hiff]
  constructor
  · rintro (heq | heq | ⟨_, hdom⟩)
    · exact .inl (ha.blockAt_inj hu hv heq)
    · exact .inl heq
    · exact .inr hdom
  · rintro (heq | hdom)
    · exact .inr (.inl heq)
    · exact .inr (.inr ⟨hr, hdom⟩)

end Promote.Analyses

namespace Context.Checked

open Promote

variable {c : Context} {f : FuncId} {a : FlowAnalysis} {b : BlockId} {i : InstId}

variable (h : c.Checked f a)
include h

theorem insts_sublist (b : BlockId) :
    (c.block b).insts.toList.Sublist ((planOf c a).program.block b).insts.toList := by
  obtain ⟨hphis, hbody⟩ := h.program_block b
  rw [← Context.phis_append_body, ← Context.phis_append_body (planOf c a).program, hphis, hbody]
  exact (List.sublist_append_left _ _).append_right _

theorem home_of_live {d : InstId} (hlive : Site.Live ⟨c, f, a, b⟩ (.inst d)) :
    ∃ u < a.flow.size, (c.inst d).parent = some (a.flow.blockAt u) ∧
      d ∈ ((planOf c a).program.block (a.flow.blockAt u)).insts := by
  obtain ⟨home, hmem, hparent⟩ := h.block_of_live hlive
  obtain ⟨u, hu, rfl⟩ := h.analyses.exists_node hmem
  exact ⟨u, hu, hparent, h.program_mem.mpr (.inl (h.sound.inst_mem hparent))⟩

/-- An operand of an instruction other than a phi, in a block that control reaches, is defined
before it in the block, or in another one that dominates it. -/
theorem defined_before (hb : b ∈ (c.func f).blocks) {k : Nat}
    (hk : (c.block b).insts.toList[k]? = some i) (hop : (c.inst i).op ≠ .phi)
    (hr : a.reachable (some b) = true) {d : InstId} (hd : some (.inst d) ∈ (c.inst i).operands) :
    ∃ t ∈ (c.func f).blocks, (c.inst d).parent = some t ∧
      (t = b ∧ d ∈ (c.block t).insts.toList.take k ∨ t ≠ b ∧ a.dominatesBlock t b = true) := by
  have hwell := ((h.blocks b hb).instructions k i hk).well
  obtain ⟨w, hw, hlive⟩ := hwell.live _ hd
  cases hw
  obtain ⟨t, ht, hparent⟩ := h.block_of_live hlive
  have hphi : (c.inst i).isPhi = false := by
    rwa [← Bool.not_eq_true, Instruction.isPhi_iff]
  have hdefined := hwell.dominated hphi hr d hd
  rw [Site.defined_iff h.standing hparent, Nat.zero_add] at hdefined
  exact ⟨t, ht, hparent, hdefined⟩

theorem ordered : (planOf c a).Ordered a := by
  intro v pre post i x hv hsplit hop hx d hd
  subst hd
  have hlt := h.analyses.lt_size hv
  have hb := h.analyses.blockAt_mem hlt
  have hi' : i ∈ ((planOf c a).program.block (a.flow.blockAt v)).insts := by
    rw [← Array.mem_toList_iff, hsplit]
    exact List.mem_append_right _ (.head _)
  obtain ⟨hi, heq⟩ := h.program_inst_old hi' hop
  rw [heq] at hop hx
  obtain ⟨k, hk⟩ := List.mem_iff_getElem?.mp hi.val
  obtain ⟨t, ht, hparent, hdefined⟩ :=
    h.defined_before hb hk hop ((h.analyses.reachable_iff hlt).mpr hv) hx
  rcases hdefined with ⟨rfl, htake⟩ | ⟨hne, hdom⟩
  · -- Both stand in one block, in this order, and other instructions do not change that.
    obtain ⟨hklt, hik⟩ := List.getElem?_eq_some_iff.mp hk
    have hlist : (c.block (a.flow.blockAt v)).insts.toList =
        (c.block (a.flow.blockAt v)).insts.toList.take k ++
          i :: (c.block (a.flow.blockAt v)).insts.toList.drop (k + 1) := by
      rw [← hik, List.cons_getElem_drop_succ, List.take_append_drop]
    have hpair : [d, i].Sublist (c.block (a.flow.blockAt v)).insts.toList := by
      rw [hlist]
      exact (List.singleton_sublist.mpr htake).append
        (List.singleton_sublist.mpr (.head _))
    have hnodup := h.program_sound.insts_nodup (a.flow.blockAt v)
    rw [hsplit] at hnodup
    exact .inl (List.mem_of_pair_sublist (hsplit ▸ hpair.trans (h.insts_sublist _)) hnodup)
  · obtain ⟨u, hu, rfl⟩ := h.analyses.exists_node ht
    have hne' : u ≠ v := fun heq => hne (heq ▸ rfl)
    refine .inr ⟨u, hne', ?_, h.program_mem.mpr (.inl (h.sound.inst_mem hparent))⟩
    exact ((h.analyses.dominatesBlock_iff hu hlt hv).mp hdom).resolve_left hne'

theorem incoming_available (hb : b ∈ (c.func f).blocks)
    (hi : i ∈ (c.block b).insts) (hop : (c.inst i).op = .phi) {u : Nat} {x : Value}
    (hx : (some x, some (.block (a.flow.blockAt u))) ∈ (c.inst i).incoming)
    (hlive : Site.Live ⟨c, f, a, b⟩ x) (hu : Reached a.flow.graph.Edge 0 u) :
    (planOf c a).Available a u
      ((planOf c a).program.block (a.flow.blockAt u)).insts.toList x := by
  intro d hd
  subst hd
  have hwell := h.operation hb hi
  rw [Site.OperationWell, hop] at hwell
  obtain ⟨bs, hincoming, _⟩ := hwell.incoming
  obtain ⟨t, ht, hparent, hmem⟩ := h.home_of_live hlive
  have hlt := h.analyses.lt_size hu
  have hdom := hincoming.available _ hx _ rfl d rfl _ hparent
    ((h.analyses.reachable_iff hlt).mpr hu)
  rcases (h.analyses.dominatesBlock_iff ht hlt hu).mp hdom with rfl | hdom
  · exact .inl hmem.val
  · by_cases htu : t = u
    · subst htu
      exact .inl hmem.val
    · exact .inr ⟨t, htu, hdom, hmem⟩

theorem available_walk {v : Nat} (hv : Reached a.flow.graph.Edge 0 v) {pre post : List InstId}
    (hsplit : ((planOf c a).program.block (a.flow.blockAt v)).insts.toList = pre ++ post)
    {x : Value}
    (hx : (planOf c a).Available a v pre x) :
    (planOf c a).Available a v pre (resolve ((planOf c a).walk a).1.subst x) := by
  have hsolved := fun {u : Nat} (hu : Reached a.flow.graph.Edge 0 u) =>
    (Plan.walk_solved h.analyses h.ordered h.instsOf_nodup hu).1
  refine ((hsolved hv).take hsplit).available_resolve h.analyses.wellFormed
    (Plan.walk_loads _ _) hv (fun u _ hdom => ⟨_, hsolved ?_⟩) hx
  exact DominatorTree.reached_of_dominance h.analyses.wellFormed hv hdom

end Context.Checked

end SsaIr
