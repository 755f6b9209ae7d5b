import SsaIr.Proofs.Flow.Dominators

/-!
# Walking the dominator tree

The children of a node are the nodes it dominates immediately. `Listing t vs l` says that a walk
down from the nodes `vs`, each node before its children, meets the nodes `l` in this order. Read
`ofGraph_listing` first: the walk from the entry meets every reachable node once.
-/

namespace SsaIr

open List

variable {l vs : List Nat} {t : DominatorTree} {v w x : Nat}

namespace DominatorTree

open DepthFirst

theorem childLists_cons (w : Nat) (order : List Nat) (idom : Array (Option Nat)) :
    childLists (w :: order) idom =
      match idom.getD w none with
      | some p => (childLists order idom).modify p (w :: ·)
      | none => childLists order idom :=
  rfl

theorem childLists_size (order : List Nat) (idom : Array (Option Nat)) :
    (childLists order idom).size = idom.size := by
  induction order with
  | nil => exact Array.size_replicate
  | cons w order ih =>
    rw [childLists_cons]
    split
    · rw [Array.size_modify, ih]
    · exact ih

theorem childLists_getD (order : List Nat) (idom : Array (Option Nat)) {p : Nat}
    (hp : p < idom.size) :
    (childLists order idom).getD p [] = order.filter fun w => idom.getD w none = some p := by
  induction order with
  | nil => exact Array.getD_replicate_self idom.size p []
  | cons w order ih =>
    rw [childLists_cons, filter_cons]
    cases idom.getD w none with
    | none => exact ih
    | some q =>
      simp only [Option.some.injEq, decide_eq_true_eq]
      rw [Array.getD_modify, childLists_size, ih]
      by_cases hqp : q = p
      · subst hqp
        rw [if_pos ⟨rfl, hp⟩, if_pos rfl]
      · rw [if_neg fun h => hqp h.1, if_neg hqp]

variable {g : FlowGraph}

variable (hg : g.WellFormed)
include hg

/-- The nodes after the first one in depth-first order are the reachable ones other than the
entry. -/
theorem mem_order_drop : w ∈ (run g 0).order.toList.drop 1 ↔ 1 < (run g 0).numberOf w := by
  have h := run_complete hg
  constructor
  · intro hw
    obtain ⟨k, hk⟩ := mem_iff_getElem?.mp hw
    rw [getElem?_drop, Array.getElem?_toList, h.order_iff] at hk
    omega
  · intro hw
    refine mem_iff_getElem?.mpr ⟨(run g 0).numberOf w - 2, ?_⟩
    rw [getElem?_drop, Array.getElem?_toList, h.order_iff]
    omega

theorem order_nodup : (run g 0).order.toList.Nodup := by
  have h := run_complete hg
  rw [nodup_iff_getElem?_ne_getElem?]
  intro i j hij hj heq
  have hget := List.getElem?_eq_getElem hj
  have hi := heq.trans hget
  rw [Array.getElem?_toList, h.order_iff] at hi hget
  omega

theorem childrenOf_eq (v : Nat) : (ofGraph g).childrenOf v =
    ((run g 0).order.toList.drop 1).filter fun w => (ofGraph g).idomOf w = some v := by
  have h := run_complete hg
  obtain ⟨hsize, _, _⟩ := Semidominators.dominators_spec hg h
  by_cases hv : v < (ofGraph g).idom.size
  · exact childLists_getD ((run g 0).order.toList.drop 1) (ofGraph g).idom hv
  · have hnone : (ofGraph g).children.getD v [] = [] := by
      refine Array.getD_of_not_lt _ ?_ _
      have hchildren : (ofGraph g).children.size = (ofGraph g).idom.size := childLists_size _ _
      omega
    refine hnone.trans (filter_eq_nil_iff.mpr fun w _ hw => hv ?_).symm
    obtain ⟨hreach, _, himm⟩ := (ofGraph_idomOf_iff hg).mp (of_decide_eq_true hw)
    exact hsize ▸ h.lt_size (h.pos_iff.mpr (reached_of_dominance hg hreach himm.dominates))

theorem mem_childrenOf_iff : w ∈ (ofGraph g).childrenOf v ↔ (ofGraph g).idomOf w = some v := by
  rw [childrenOf_eq hg, mem_filter, decide_eq_true_iff]
  constructor
  · exact And.right
  · intro hw
    obtain ⟨hreach, hw0, _⟩ := (ofGraph_idomOf_iff hg).mp hw
    exact ⟨(mem_order_drop hg).mpr (one_lt_number hg hreach hw0), hw⟩

theorem childrenOf_nodup (v : Nat) : ((ofGraph g).childrenOf v).Nodup := by
  rw [childrenOf_eq hg]
  exact ((order_nodup hg).sublist (drop_sublist _ _)).filter _

/-! ## Listings -/

/-- A walk down the tree from some nodes meets the listed nodes: each node before what is below its
children, and that before what is below the nodes beside it. -/
inductive Listing (t : DominatorTree) : List Nat → List Nat → Prop where
  | nil : Listing t [] []
  | cons {v : Nat} {rest below beside : List Nat} : Listing t (t.childrenOf v) below →
      Listing t rest beside → Listing t (v :: rest) (v :: (below ++ beside))

def Below (t : DominatorTree) : Nat → Nat → Prop :=
  Relation.ReflTransGen fun v w => t.idomOf w = some v

theorem below_iff :
    (ofGraph g).Below v x ↔ v = x ∨ ∃ w ∈ (ofGraph g).childrenOf v, (ofGraph g).Below w x := by
  constructor
  · intro h
    rcases h.cases_head with heq | ⟨w, hw, hx⟩
    · exact .inl heq
    · exact .inr ⟨w, (mem_childrenOf_iff hg).mpr hw, hx⟩
  · rintro (rfl | ⟨w, hw, hx⟩)
    · exact .refl
    · exact .head ((mem_childrenOf_iff hg).mp hw) hx

theorem number_le_of_below (h : (ofGraph g).Below v x) :
    (run g 0).numberOf v ≤ (run g 0).numberOf x := by
  induction h with
  | refl => exact le_rfl
  | tail _ hstep ih => exact (ih.trans_lt (number_lt_of_idomOf hg hstep)).le

omit hg in
theorem below_total (hv : t.Below v x) (hw : t.Below w x) :
    t.Below v w ∨ t.Below w v := by
  have hunique : Relator.RightUnique (fun b a => t.idomOf b = some a) :=
    fun b a a' ha ha' => Option.some.inj (ha.symm.trans ha')
  have hswap : ∀ {a b : Nat},
      t.Below a b ↔ Relation.ReflTransGen (fun b a => t.idomOf b = some a) b a :=
    Relation.reflTransGen_swap.symm
  rw [hswap] at hv hw
  rw [hswap, hswap]
  exact (hv.total_of_right_unique hunique hw).symm

theorem below_iff_dominance (hx : Reached g.Edge 0 x) :
    (ofGraph g).Below v x ↔ Dominance g.Edge 0 v x := by
  constructor
  · intro h
    induction h with
    | refl => exact fun p hp => hp.target_mem
    | tail _ hstep ih =>
      obtain ⟨_, _, himm⟩ := (ofGraph_idomOf_iff hg).mp hstep
      exact (ih (reached_of_dominance hg hx himm.dominates)).trans himm.dominates
  · intro h
    induction hn : (run g 0).numberOf x using Nat.strong_induction_on generalizing x with
    | _ n ih =>
      by_cases hvx : v = x
      · subst hvx
        exact .refl
      · obtain ⟨p, hp, _, hreach, hvp⟩ := exists_parent hg hx hvx h
        exact (ih _ (hn ▸ number_lt_of_idomOf hg hp) hreach hvp rfl).tail hp

theorem below_entry_iff : (ofGraph g).Below 0 x ↔ Reached g.Edge 0 x := by
  constructor
  · intro h
    rcases h.cases_tail with heq | ⟨w, _, hx⟩
    · subst heq
      exact ⟨[0], .refl 0⟩
    · exact ((ofGraph_idomOf_iff hg).mp hx).1
  · intro hx
    exact (below_iff_dominance hg hx).mpr fun p hp => by cases hp <;> exact .head _

namespace Listing

theorem mem_iff (h : Listing (ofGraph g) vs l) :
    x ∈ l ↔ ∃ v ∈ vs, (ofGraph g).Below v x := by
  induction h with
  | nil => simp
  | @cons v rest below beside _ _ ihbelow ihbeside =>
    rw [mem_cons, mem_append, ihbelow, ihbeside]
    constructor
    · rintro (rfl | ⟨w, hw, hx⟩ | ⟨w, hw, hx⟩)
      · exact ⟨x, .head _, .refl⟩
      · exact ⟨v, .head _, (below_iff hg).mpr (.inr ⟨w, hw, hx⟩)⟩
      · exact ⟨w, .tail _ hw, hx⟩
    · rintro ⟨w, hw, hx⟩
      rcases mem_cons.mp hw with rfl | hw
      · rcases (below_iff hg).mp hx with rfl | hx
        · exact .inl rfl
        · exact .inr (.inl hx)
      · exact .inr (.inr ⟨w, hw, hx⟩)

theorem children_pairwise (v : Nat) : ((ofGraph g).childrenOf v).Pairwise fun a b =>
      ¬ (ofGraph g).Below a b ∧ ¬ (ofGraph g).Below b a := by
  have hnot : ∀ {a b : Nat}, (ofGraph g).idomOf a = some v → (ofGraph g).idomOf b = some v →
      a ≠ b → ¬ (ofGraph g).Below a b := by
    intro a b ha hb hne hab
    rcases hab.cases_tail with heq | ⟨w, haw, hw⟩
    · exact hne heq.symm
    · cases hb.symm.trans hw
      have hlt := number_lt_of_idomOf hg ha
      have hle := number_le_of_below hg haw
      omega
  refine (childrenOf_nodup hg v).imp_of_mem fun {a b} ha hb hne => ?_
  rw [mem_childrenOf_iff hg] at ha hb
  exact ⟨hnot ha hb hne, hnot hb ha (Ne.symm hne)⟩

theorem not_mem_of_parent
    (h : Listing (ofGraph g) vs l) (hvs : ∀ w ∈ vs, (ofGraph g).idomOf w = some v) : v ∉ l := by
  intro hv
  obtain ⟨w, hw, hwv⟩ := (h.mem_iff hg).mp hv
  have hlt := number_lt_of_idomOf hg (hvs w hw)
  have hle := number_le_of_below hg hwv
  omega

theorem nodup (h : Listing (ofGraph g) vs l)
    (hvs : vs.Pairwise fun a b => ¬ (ofGraph g).Below a b ∧ ¬ (ofGraph g).Below b a) :
    l.Nodup := by
  induction h with
  | nil => exact nodup_nil
  | @cons v rest below beside hbelow hbeside ihbelow ihbeside =>
    obtain ⟨hv, hrest⟩ := pairwise_cons.mp hvs
    have hchild : v ∉ below :=
      hbelow.not_mem_of_parent hg fun w hw => (mem_childrenOf_iff hg).mp hw
    have hside : v ∉ beside := by
      intro hmem
      obtain ⟨w, hw, hwv⟩ := (hbeside.mem_iff hg).mp hmem
      exact (hv w hw).2 hwv
    have hdisjoint : below.Disjoint beside := by
      intro x hx hx'
      obtain ⟨w, hw, hwx⟩ := (hbelow.mem_iff hg).mp hx
      obtain ⟨w', hw', hwx'⟩ := (hbeside.mem_iff hg).mp hx'
      rcases below_total ((below_iff hg).mpr (.inr ⟨w, hw, hwx⟩)) hwx' with hvw | hvw
      · exact (hv w' hw').1 hvw
      · exact (hv w' hw').2 hvw
    refine nodup_cons.mpr ⟨?_, ?_⟩
    · rw [mem_append]
      exact fun hmem => hmem.elim hchild hside
    · exact (ihbelow (children_pairwise hg v)).append (ihbeside hrest) hdisjoint

omit hg in
/-- What is below a node follows it without a gap. -/
theorem segment (h : Listing t vs l) (hx : x ∈ l) :
    ∃ pre below post, l = pre ++ x :: below ++ post ∧ Listing t (t.childrenOf x) below := by
  induction h with
  | nil => exact absurd hx not_mem_nil
  | @cons v rest below beside hbelow _ ihbelow ihbeside =>
    rcases mem_cons.mp hx with rfl | hx
    · exact ⟨[], below, beside, rfl, hbelow⟩
    · rcases mem_append.mp hx with hx | hx
      · obtain ⟨pre, l, post, rfl, hl⟩ := ihbelow hx
        exact ⟨v :: pre, l, post ++ beside, by simp, hl⟩
      · obtain ⟨pre, l, post, rfl, hl⟩ := ihbeside hx
        exact ⟨v :: below ++ pre, l, post, by simp, hl⟩

omit hg in
theorem exists_of_children
    (h : ∀ v ∈ vs, ∃ l, Listing t (t.childrenOf v) l) : ∃ l, Listing t vs l := by
  induction vs with
  | nil => exact ⟨[], .nil⟩
  | cons v vs ih =>
    obtain ⟨below, hbelow⟩ := h v (.head _)
    obtain ⟨beside, hbeside⟩ := ih fun w hw => h w (.tail _ hw)
    exact ⟨_, .cons hbelow hbeside⟩

theorem exists_below (v : Nat) : ∃ l, Listing (ofGraph g) ((ofGraph g).childrenOf v) l := by
  have hc := run_complete hg
  -- Numbers grow on the way down, and are bounded.
  induction hn : (run g 0).order.size - (run g 0).numberOf v using Nat.strong_induction_on
    generalizing v with
  | _ n ih =>
    refine exists_of_children fun w hw => ih _ ?_ w rfl
    have hlt := number_lt_of_idomOf hg ((mem_childrenOf_iff hg).mp hw)
    have hle := hc.number_le w
    omega

omit hg in
theorem listing_eq (h : Listing t vs l) (rest : List Nat) (n : Nat) :
    listing t.children (l.length + n) (vs ++ rest) = l ++ listing t.children n rest := by
  induction h generalizing rest n with
  | nil => rw [length_nil, Nat.zero_add, nil_append, nil_append]
  | @cons v vs below beside _ _ ihbelow ihbeside =>
    have hlen : (v :: (below ++ beside)).length + n =
        (below.length + (beside.length + n)) + 1 := by
      simp only [length_cons, length_append]
      omega
    rw [hlen, cons_append, listing]
    have hchildren : t.children.getD v [] = t.childrenOf v := rfl
    rw [hchildren, ihbelow, ihbeside, cons_append, append_assoc]

end Listing

theorem length_le_size {l : List Nat} (hnodup : l.Nodup) (hl : ∀ v ∈ l, Reached g.Edge 0 v) :
    l.length ≤ g.size := by
  have hc := run_complete hg
  have hle := (subperm_of_subset hnodup fun v hv =>
    mem_range.mpr (hc.lt_size (hc.pos_iff.mpr (hl v hv)))).length_le
  rwa [length_range] at hle

theorem ofGraph_listing : ∃ below, (ofGraph g).preorder = 0 :: below ∧
    Listing (ofGraph g) ((ofGraph g).childrenOf 0) below ∧ (0 :: below).Nodup ∧
      ∀ v, v ∈ 0 :: below ↔ Reached g.Edge 0 v := by
  obtain ⟨below, hbelow⟩ := Listing.exists_below hg 0
  have hwhole : Listing (ofGraph g) [0] (0 :: (below ++ [])) := .cons hbelow .nil
  rw [append_nil] at hwhole
  have hnodup := hwhole.nodup hg (pairwise_singleton _ _)
  have hmem : ∀ v, v ∈ 0 :: below ↔ Reached g.Edge 0 v := by
    intro v
    rw [hwhole.mem_iff hg, ← below_entry_iff hg]
    simp
  refine ⟨below, ?_, hbelow, hnodup, hmem⟩
  -- The nodes are few enough for the bounded walk.
  have hlen := length_le_size hg hnodup fun v hv => (hmem v).mp hv
  have hlist := hwhole.listing_eq [] (g.size + 1 - (0 :: below).length)
  rw [append_nil, Nat.add_sub_cancel' (by omega)] at hlist
  have hnil : ∀ n, listing (ofGraph g).children n [] = [] := by
    intro n
    cases n <;> rfl
  rwa [hnil, append_nil] at hlist

theorem preorder_nodup : (ofGraph g).preorder.Nodup := by
  obtain ⟨below, hpre, _, hnodup, _⟩ := ofGraph_listing hg
  rwa [hpre]

theorem mem_preorder : v ∈ (ofGraph g).preorder ↔ Reached g.Edge 0 v := by
  obtain ⟨below, hpre, _, _, hmem⟩ := ofGraph_listing hg
  rw [hpre, hmem]

theorem preorder_segment (hx : Reached g.Edge 0 x) : ∃ pre below post,
    (ofGraph g).preorder = pre ++ x :: below ++ post ∧
      ∀ y, y ∈ x :: below ↔ Reached g.Edge 0 y ∧ Dominance g.Edge 0 x y := by
  obtain ⟨all, hpre, hall, _, _⟩ := ofGraph_listing hg
  have hwhole : Listing (ofGraph g) [0] (0 :: (all ++ [])) := .cons hall .nil
  rw [append_nil, ← hpre] at hwhole
  obtain ⟨pre, below, post, heq, hbelow⟩ := hwhole.segment ((mem_preorder hg).mpr hx)
  refine ⟨pre, below, post, heq, fun y => ?_⟩
  rw [mem_cons, hbelow.mem_iff hg, @eq_comm _ y, ← below_iff hg]
  constructor
  · intro hy
    have hreach : Reached g.Edge 0 y :=
      (below_entry_iff hg).mp (((below_entry_iff hg).mpr hx).trans hy)
    exact ⟨hreach, (below_iff_dominance hg hreach).mp hy⟩
  · exact fun ⟨hreach, hy⟩ => (below_iff_dominance hg hreach).mpr hy

theorem dominators_before {pre post : List Nat} {u : Nat}
    (hl : (ofGraph g).preorder = pre ++ v :: post) (h : (ofGraph g).Below u v) (hne : u ≠ v) :
    u ∈ pre := by
  have hnodup := preorder_nodup hg
  rw [hl] at hnodup
  have hv : Reached g.Edge 0 v := (mem_preorder hg).mp (by simp [hl])
  have hdom := (below_iff_dominance hg hv).mp h
  obtain ⟨pre', below, post', heq, hbelow⟩ := preorder_segment hg (reached_of_dominance hg hv hdom)
  have hvb := (hbelow v).mpr ⟨hv, hdom⟩
  -- The part that starts with `u` holds `v`, which occurs once.
  rw [hl, append_assoc] at heq
  rcases append_eq_append_iff.mp heq with ⟨mid, rfl, hmid⟩ | ⟨mid, rfl, hmid⟩ <;>
    cases mid <;> grind

theorem idomOf_mem_preorder {pre post : List Nat} {d : Nat}
    (hl : (ofGraph g).preorder = pre ++ v :: post) (hd : (ofGraph g).idomOf v = some d) :
    d ∈ pre :=
  dominators_before hg hl (.single hd) ((ofGraph_idomOf_iff hg).mp hd).2.2.ne

/-- The walk lists every reachable node once, after its immediate dominator, with the nodes that it
dominates right behind it; and the children of the nodes divide the reachable nodes other than the
entry by their immediate dominators. -/
theorem ofGraph_preorder_segments : (ofGraph g).preorder.Nodup ∧
    (∀ v, v ∈ (ofGraph g).preorder ↔ Reached g.Edge 0 v) ∧
    (∀ pre v post d, (ofGraph g).preorder = pre ++ v :: post →
      ImmediateDominance g.Edge 0 d v → d ∈ pre) ∧
    (∀ x, Reached g.Edge 0 x → ∃ pre below post,
      (ofGraph g).preorder = pre ++ x :: below ++ post ∧
        ∀ y, y ∈ x :: below ↔ Reached g.Edge 0 y ∧ Dominance g.Edge 0 x y) ∧
    (∀ v, ((ofGraph g).childrenOf v).Nodup ∧ ∀ w, w ∈ (ofGraph g).childrenOf v ↔
      Reached g.Edge 0 w ∧ w ≠ 0 ∧ ImmediateDominance g.Edge 0 v w) ∧
    ∀ w, Reached g.Edge 0 w → w ≠ 0 → ∃! v, w ∈ (ofGraph g).childrenOf v := by
  obtain ⟨below, hpre, _, hnodup, hmem⟩ := ofGraph_listing hg
  rw [← hpre] at hnodup hmem
  refine ⟨hnodup, hmem, ?_, fun x => preorder_segment hg, fun v => ?_, fun w hw hw0 => ?_⟩
  · intro pre v post d hl hd
    have hv : Reached g.Edge 0 v := (hmem v).mp (by simp [hl])
    exact dominators_before hg hl ((below_iff_dominance hg hv).mpr hd.dominates) hd.ne
  · exact ⟨childrenOf_nodup hg v, fun w => (mem_childrenOf_iff hg).trans (ofGraph_idomOf_iff hg)⟩
  · obtain ⟨v, hv⟩ := ofGraph_idomOf_exists hg hw hw0
    refine ⟨v, (mem_childrenOf_iff hg).mpr hv, fun u hu => ?_⟩
    exact Option.some.inj (((mem_childrenOf_iff hg).mp hu).symm.trans hv)

omit hg in
/-- Two branches that join again before the last node, and a node that nothing reaches. -/
def joinedBranches : FlowGraph := .ofSuccs #[[1, 2], [3], [3], [4], [], [3]]

omit hg in
theorem ofGraph_preorder_segments_joined : joinedBranches.WellFormed ∧
    (ofGraph joinedBranches).preorder = [0, 1, 3, 4, 2] ∧
      ∃! v, 3 ∈ (ofGraph joinedBranches).childrenOf v := by
  have hg : joinedBranches.WellFormed := FlowGraph.ofSuccs_wellFormed
    (by rintro (_ | _ | _ | _ | _ | _ | v) <;> simp)
    (by rintro (_ | _ | _ | _ | _ | _ | v) <;> simp) (by decide)
  obtain ⟨_, hmem, _, _, _, hchild⟩ := ofGraph_preorder_segments hg
  have hlist : (ofGraph joinedBranches).preorder = [0, 1, 3, 4, 2] := by decide +kernel
  exact ⟨hg, hlist, hchild 3 ((hmem 3).mp (by simp [hlist])) (by decide)⟩

end DominatorTree

end SsaIr
