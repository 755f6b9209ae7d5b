import SsaIr.Proofs.Flow.Dominators

/-!
# Shortened paths give the same answers

At every moment at which the first pass may ask its forest (`Moment`), the forest answers like the
one in which the same links were made and no path was ever shortened (`ofLinks`): both represent the
tree paths down to the same number, so both find nodes of least rank on the same path.
-/

namespace SsaIr

open DepthFirst LinkEval

variable {g : FlowGraph} {d : DepthFirst} {lo w : Nat} {first rest linked : List Nat}

namespace LinkEval

variable {f : LinkEval} {rank : Nat → Nat}

/-- The links of some nodes to their parents, with no path shortened. -/
def ofLinks (d : DepthFirst) (size : Nat) (linked : List Nat) : LinkEval :=
  linked.foldl (fun f w => (d.parentOf w).elim f (f.link · w)) (.new size)

/-- The nodes on the path from `v` up to, but without, the root of its tree. -/
def OnPath (f : LinkEval) (v z : Nat) : Prop :=
  Relation.ReflTransGen (fun x y => f.ancestorOf x = some y) v z ∧ f.ancestorOf z ≠ none

theorem Represents.eval_rank_eq (h : Preorder g d) {f' : LinkEval} (hf : Represents g d rank lo f)
    (hf' : Represents g d rank lo f') (v : Nat) :
    rank (f.eval rank v).1 = rank (f'.eval rank v).1 := by
  rcases Nat.lt_or_ge lo (d.numberOf v) with hv | hv
  · obtain ⟨hanc, hlo, hmin⟩ := (eval_spec h hf v).2.2 hv
    obtain ⟨hanc', hlo', hmin'⟩ := (eval_spec h hf' v).2.2 hv
    exact Nat.le_antisymm (hmin _ hanc' hlo') (hmin' _ hanc hlo)
  · rw [(eval_spec h hf v).2.1 hv, (eval_spec h hf' v).2.1 hv]

section

variable (h : Preorder g d)
include h

theorem ofLinks_represents (rank : Nat → Nat) (first rest : List Nat) (hne : 0 < first.length)
    (horder : d.order.toList = first ++ rest) :
    Represents g d rank first.length (ofLinks d g.size rest.reverse) ∧
      ∀ {v}, first.length < d.numberOf v →
        (ofLinks d g.size rest.reverse).ancestorOf v = d.parentOf v := by
  induction rest generalizing first with
  | nil =>
    have hall := h.number_le_of_split horder
    exact ⟨new_represents hall, fun {v} hv => absurd (hall v) (not_le.mpr hv)⟩
  | cons w rest ih =>
    have hw := h.number_of_split horder
    obtain ⟨p, hp⟩ := h.parent_exists (by omega) (h.ne_zero (v := w) (by omega))
    obtain ⟨hrep, hanc⟩ := ih (first ++ [w]) (by simp) (by rw [horder]; simp)
    rw [List.length_append] at hrep hanc
    have hlink : ofLinks d g.size (w :: rest).reverse =
        (ofLinks d g.size rest.reverse).link p w := by
      rw [List.reverse_cons, ofLinks, List.foldl_append, List.foldl_cons, List.foldl_nil, hp]
      rfl
    rw [hlink]
    refine ⟨link_represents h hrep hw hp, fun {v} hv => ?_⟩
    rw [link, ancestorOf, Array.getD_setIfInBounds]
    split
    · rename_i hwv
      rw [← hp, hwv.1]
    · rename_i hwv
      refine hanc (Nat.lt_of_le_of_ne hv fun heq => hwv ⟨?_, ?_⟩)
      · exact h.number_inj (by omega) (hw.trans heq)
      · rw [hrep.ancestor_size]
        exact h.lt_size (by omega)

/-- The path in the forest of the links is the tree path down to the last number linked. -/
theorem onPath_ofLinks_iff (hne : 0 < first.length) (horder : d.order.toList = first ++ rest)
    {v z : Nat} : (ofLinks d g.size rest.reverse).OnPath v z ↔
      d.Ancestor z v ∧ first.length < d.numberOf z := by
  obtain ⟨hrep, hanc⟩ := ofLinks_represents h (fun _ => 0) first rest hne horder
  rw [OnPath, ne_eq, hrep.ancestorOf_eq_none_iff, not_le]
  refine and_congr_left fun hz => ⟨fun hpath => ?_, fun hpath => ?_⟩
  · induction hpath with
    | refl => exact .refl
    | @tail x y _ hxy ih =>
      have hx := hrep.lt_number hxy
      exact .head ((hanc hx).symm.trans hxy) (ih hx)
  · induction hpath with
    | refl => exact .refl
    | tail hzp hpv ih =>
      refine .head ((hanc ?_).trans hpv) ih
      exact (hz.trans_le (h.ancestor_le hzp)).trans (h.parent_some hpv).2.2

/-- Walking up a path ends within the bound on it. -/
theorem path_add (hf : Represents g d rank lo f) (v k : Nat) {n : Nat}
    (hn : d.numberOf v ≤ lo + n) : f.path (n + k) v = f.path n v := by
  induction n generalizing v with
  | zero =>
    cases k with
    | zero => rfl
    | succ k => simp [path, (hf.root hn).1]
  | succ n ih =>
    rw [Nat.add_right_comm, path, path]
    cases hv : f.ancestorOf v with
    | none => rfl
    | some a =>
      have hlo := hf.lt_number hv
      obtain ⟨b, hb, hbv, hne, _⟩ := hf.linked hlo
      cases hv.symm.trans hb
      have := h.ancestor_lt hbv hne (by omega)
      simp only [ih a (by omega)]

end

end LinkEval

namespace Semidominators

variable {s : Semidominators}

/-- A moment of the first pass, with the nodes linked before it: some of the predecessors of a node
were looked at, or some of the nodes that wait at its parent were released. -/
inductive Moment (g : FlowGraph) (d : DepthFirst) : List Nat → Semidominators → Prop where
  | lowering {linked later seen unseen : List Nat} {w : Nat} :
      (d.order.toList.drop 1).reverse = linked ++ w :: later → g.predsOf w = seen ++ unseen →
      Moment g d linked (seen.foldl (lower d w) (linked.foldl (node g d) (start d g.size)))
  | releasing {linked later seen unseen : List Nat} {w p : Nat} {s t : Semidominators} :
      (d.order.toList.drop 1).reverse = linked ++ w :: later → d.parentOf w = some p →
      t = (g.predsOf w).foldl (lower d w) (linked.foldl (node g d) (start d g.size)) →
      s = { t.wait d w with forest := t.forest.link p w } → s.bucket.getD p [] = seen ++ unseen →
      Moment g d (linked ++ [w]) (seen.foldl (guess p) s)

/-- Before the node `w`, the nodes after it in the numbering are processed. -/
theorem sweep_before (hg : g.WellFormed) (h : Complete g d) {later : List Nat}
    (hnodes : (d.order.toList.drop 1).reverse = linked ++ w :: later) :
    d.order.toList = (0 :: later.reverse) ++ w :: linked.reverse ∧
      d.numberOf w = (0 :: later.reverse).length + 1 ∧
      Sweep g d ((0 :: later.reverse).length + 1) ((0 :: later.reverse).length + 1)
        (linked.foldl (node g d) (start d g.size)) := by
  have horder : d.order.toList = (0 :: later.reverse) ++ w :: linked.reverse := by
    rw [order_eq_cons h.toPreorder, List.reverse_eq_iff.mp hnodes]
    simp
  refine ⟨horder, h.number_of_split horder, ?_⟩
  have hs := sweep_foldl hg h ((0 :: later.reverse) ++ [w]) linked.reverse (by simp)
    (by rw [horder]; simp)
  rwa [List.reverse_reverse, List.length_append] at hs

theorem Moment.represents (hg : g.WellFormed) (h : Complete g d) (hs : Moment g d linked s) :
    ∃ first rest, 0 < first.length ∧ d.order.toList = first ++ rest ∧ rest.reverse = linked ∧
      Represents g d s.semiOf first.length s.forest := by
  cases hs with
  | @lowering linked later seen _ w hnodes _ =>
    obtain ⟨horder, hw, hsweep⟩ := sweep_before hg h hnodes
    refine ⟨(0 :: later.reverse) ++ [w], linked.reverse, by simp, by simp [horder], by simp, ?_⟩
    rw [List.length_append]
    exact (lower_foldl h.toPreorder hsweep hw (by omega) seen
      ⟨hsweep.forest, rfl, rfl, rfl, fun _ => rfl, le_rfl⟩).1.forest
  | @releasing linked later seen unseen w p s t hnodes hp ht hlink hbucket =>
    obtain ⟨horder, hw, hsweep⟩ := sweep_before hg h hnodes
    refine ⟨0 :: later.reverse, w :: linked.reverse, by simp, horder, by simp, ?_⟩
    have hw0 : w ≠ 0 := h.ne_zero (by rw [hw]; simp)
    obtain ⟨hlow, hsemi⟩ := lower_preds hg h hsweep hw (by omega) hw0
    have hs := link_sweep h hsweep hlow hsemi hw hw0 hp
    rw [← ht, ← hlink] at hs
    refine (guess_foldl h.toPreorder hs.idom_size hs.semi_done hw hp seen (fun v hv => ?_)
      ⟨hs.forest, rfl, rfl, rfl, fun _ => .inl rfl⟩).1.forest
    have hmem : v ∈ s.bucket.getD p [] := hbucket ▸ List.mem_append_left _ hv
    obtain ⟨hlo, _, hnum, hchild⟩ := hs.waiting hmem
    exact ⟨hs.ancestor_waiting h hmem, hlo, hnum, hchild⟩

/-- Shortening is never seen: at each moment the walk up any path ends, a root answers itself, any
other node the least ranked node of its path in the forest of the links, with the rank that forest
itself would answer, and no question changes the rank that a later one is answered with. -/
theorem eval_transparent (hg : g.WellFormed) (hs : Moment g (DepthFirst.run g 0) linked s)
    (v : Nat) :
    (∀ k, s.forest.path (s.forest.ancestor.size + k) v = s.forest.path s.forest.ancestor.size v) ∧
      ((ofLinks (DepthFirst.run g 0) g.size linked).ancestorOf v = none → (s.eval v).1 = v) ∧
      ((ofLinks (DepthFirst.run g 0) g.size linked).ancestorOf v ≠ none →
        (ofLinks (DepthFirst.run g 0) g.size linked).OnPath v (s.eval v).1 ∧
        ∀ z, (ofLinks (DepthFirst.run g 0) g.size linked).OnPath v z →
          s.semiOf (s.eval v).1 ≤ s.semiOf z) ∧
      s.semiOf (s.eval v).1 =
        s.semiOf ((ofLinks (DepthFirst.run g 0) g.size linked).eval s.semiOf v).1 ∧
      ∀ u, s.semiOf ((s.eval u).2.eval v).1 = s.semiOf (s.eval v).1 := by
  have h := (run_complete hg).toPreorder
  obtain ⟨first, rest, hne, horder, rfl, hrep⟩ := hs.represents hg (run_complete hg)
  obtain ⟨hplain, _⟩ := ofLinks_represents h s.semiOf first rest hne horder
  have hpath := fun z => onPath_ofLinks_iff h hne horder (v := v) (z := z)
  simp only [hplain.ancestorOf_eq_none_iff, ne_eq, not_le, hpath]
  refine ⟨fun k => path_add h hrep v k ?_, (eval_spec h hrep v).2.1, fun hv => ?_,
    hrep.eval_rank_eq h hplain v, fun u => ?_⟩
  · have := h.number_le v
    have := h.order_size_le
    rw [hrep.ancestor_size]
    omega
  · obtain ⟨hanc, hlo, hmin⟩ := (eval_spec h hrep v).2.2 hv
    exact ⟨⟨hanc, hlo⟩, fun z hz => hmin z hz.1 hz.2⟩
  · exact (eval_spec h hrep u).1.eval_rank_eq h hrep v

/-- A chain of four nodes whose last one leads back to its second. Before the second is numbered its
predecessors are asked for, which shortens the path of the last. -/
def backEdge : FlowGraph := .ofSuccs #[[1], [2], [3], [1]]

theorem eval_transparent_backEdge : ∃ s, Moment backEdge (DepthFirst.run backEdge 0) [3, 2] s ∧
    s.forest ≠ ofLinks (DepthFirst.run backEdge 0) backEdge.size [3, 2] ∧
    s.semiOf (s.eval 3).1 =
      s.semiOf ((ofLinks (DepthFirst.run backEdge 0) backEdge.size [3, 2]).eval s.semiOf 3).1 := by
  have hs : Moment backEdge (DepthFirst.run backEdge 0) [3, 2] _ :=
    @Moment.lowering _ _ [3, 2] [] [0, 3] [] 1 (by decide) (by decide)
  have hg : backEdge.WellFormed := FlowGraph.ofSuccs_wellFormed
    (by rintro (_ | _ | _ | _ | v) <;> simp) (by rintro (_ | _ | _ | _ | v) <;> simp) (by decide)
  exact ⟨_, hs, by decide, (eval_transparent hg hs 3).2.2.2.1⟩

end Semidominators

end SsaIr
