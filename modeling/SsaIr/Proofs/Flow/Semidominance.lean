import SsaIr.Proofs.Flow.DepthFirst

/-!
# Semidominators

The theory behind the computation of immediate dominators. A semidominator of a node is a node of
least number that leads to it through greater numbers only (`SemiPath`, `IsSemi`). Semidominators
follow from those of greater nodes (`semiPath_of_candidate` and `candidate_of_semiPath`), and
immediate dominators follow from semidominators: `immediate_of_semi` when no node between the
semidominator and the node has a lesser one, and `immediate_of_lower` otherwise.
-/

namespace SsaIr.DepthFirst

variable {a e n s u v w : Nat}

variable {g : FlowGraph} {d : DepthFirst}

/-- `v` leads to `w` through nodes of greater number than `w`. -/
def SemiPath (g : FlowGraph) (d : DepthFirst) (v w : Nat) : Prop :=
  0 < d.numberOf v ∧
    ∃ x, Relation.ReflTransGen (fun y z => g.Edge y z ∧ d.numberOf w < d.numberOf z) v x ∧
      g.Edge x w

/-- `n` is the least number of a node with a semidominator path to `w`. -/
def IsSemi (g : FlowGraph) (d : DepthFirst) (w n : Nat) : Prop :=
  IsLeast { m | ∃ v, SemiPath g d v w ∧ d.numberOf v = m } n

namespace SemiPath

theorem of_edge (hv : 0 < d.numberOf v) (he : g.Edge v w) : SemiPath g d v w :=
  ⟨hv, v, .refl, he⟩

theorem prepend {x x' y : Nat} (hx : 0 < d.numberOf x) (he : g.Edge x x')
    (hlt : d.numberOf y < d.numberOf x') (h : SemiPath g d x' y) : SemiPath g d x y := by
  obtain ⟨_, z, hpath, hz⟩ := h
  exact ⟨hx, z, .head ⟨he, hlt⟩ hpath, hz⟩

theorem ancestor (h : Complete g d) (hvw : SemiPath g d v w)
    (hlt : d.numberOf v < d.numberOf w) : d.Ancestor v w := by
  obtain ⟨hv, x, hpath, hx⟩ := hvw
  refine h.ancestor_of_path hv (.tail ?_ ⟨hx, hlt.le⟩)
  exact Relation.ReflTransGen.mono (fun y z hyz => ⟨hyz.1, (hlt.trans hyz.2).le⟩) _ _ hpath

theorem avoiding (hvw : SemiPath g d v w) (hew : d.numberOf e < d.numberOf w) :
    Relation.ReflTransGen (Avoiding g.Edge e) v w := by
  obtain ⟨_, x, hpath, hx⟩ := hvw
  have hinner : ∀ y z, g.Edge y z ∧ d.numberOf w < d.numberOf z → Avoiding g.Edge e y z := by
    rintro y z ⟨hyz, hlt⟩
    refine ⟨hyz, ?_⟩
    rintro rfl
    omega
  refine .tail (Relation.ReflTransGen.mono hinner _ _ hpath) ⟨hx, ?_⟩
  rintro rfl
  exact lt_irrefl _ hew

end SemiPath

variable (h : Complete g d)
include h

theorem isSemi_exists (hw : 0 < d.numberOf w) (hw0 : w ≠ 0) :
    ∃ n, IsSemi g d w n ∧ n < d.numberOf w := by
  obtain ⟨p, hp⟩ := h.parent_exists hw hw0
  obtain ⟨hpos, hedge, hlt⟩ := h.parent_some hp
  have hmem : d.numberOf p ∈ { m | ∃ v, SemiPath g d v w ∧ d.numberOf v = m } :=
    ⟨p, .of_edge hpos hedge, rfl⟩
  exact ⟨_, ⟨Nat.sInf_mem ⟨_, hmem⟩, fun _ hm => Nat.sInf_le hm⟩,
    (Nat.sInf_le hmem).trans_lt hlt⟩

omit h in
theorem IsSemi.unique {m : Nat} (hm : IsSemi g d w m) (hn : IsSemi g d w n) : m = n :=
  IsLeast.unique hm hn

theorem IsSemi.lt_number (hn : IsSemi g d w n)
    (hw : 0 < d.numberOf w) (hw0 : w ≠ 0) : n < d.numberOf w := by
  obtain ⟨m, hm, hlt⟩ := isSemi_exists h hw hw0
  rwa [hn.unique hm]

theorem IsSemi.ancestor (hs : IsSemi g d w (d.numberOf s))
    (hspos : 0 < d.numberOf s) (hw : 0 < d.numberOf w) (hw0 : w ≠ 0) :
    d.Ancestor s w ∧ s ≠ w ∧ SemiPath g d s w := by
  obtain ⟨v, hv, heq⟩ := hs.1
  obtain rfl := h.number_inj (heq ▸ hspos) heq
  have hlt := hs.lt_number h hw hw0
  refine ⟨hv.ancestor h hlt, ?_, hv⟩
  rintro rfl
  exact lt_irrefl _ hlt

/-! ## The recursion for semidominators -/

/-- What the predecessors of `w` offer: the number of a smaller one, and the semidominators of the
nodes above a greater one that are greater than `w` themselves. -/
def Candidate (g : FlowGraph) (d : DepthFirst) (w n : Nat) : Prop :=
  ∃ v, 0 < d.numberOf v ∧ g.Edge v w ∧
    ((d.numberOf v < d.numberOf w ∧ n = d.numberOf v) ∨
      ∃ u, d.Ancestor u v ∧ d.numberOf w < d.numberOf u ∧ IsSemi g d u n)

theorem semiPath_of_candidate (hc : Candidate g d w n) :
    ∃ v, SemiPath g d v w ∧ d.numberOf v = n := by
  obtain ⟨v, hv, hvw, ⟨_, rfl⟩ | ⟨u, huv, hwu, hsemi⟩⟩ := hc
  · exact ⟨v, .of_edge hv hvw, rfl⟩
  · -- From the semidominator of `u` to `u`, down the tree to `v`, and on to `w`.
    obtain ⟨s, ⟨hs, x, hpath, hxu⟩, hnum⟩ := hsemi.1
    refine ⟨s, ⟨hs, v, ?_, hvw⟩, hnum⟩
    have hfirst : Relation.ReflTransGen
        (fun y z => g.Edge y z ∧ d.numberOf w < d.numberOf z) s u :=
      .tail (Relation.ReflTransGen.mono (fun y z hyz => ⟨hyz.1, hwu.trans hyz.2⟩) _ _ hpath)
        ⟨hxu, hwu⟩
    refine hfirst.trans (Relation.ReflTransGen.mono (fun y z hyz => ⟨hyz.1, ?_⟩) _ _
      (h.ancestor_edges huv))
    exact hwu.trans hyz.2.1

/-- The node where a path through numbers above `w` first meets the ancestors of its end: following
the path backwards, either the current node is above the end or it leads to such a node through
greater numbers. -/
theorem meets_ancestor {y : Nat} (hy : d.numberOf w < d.numberOf y)
    (hpath : Relation.ReflTransGen (fun y z => g.Edge y z ∧ d.numberOf w < d.numberOf z) y v) :
    ∃ u, d.Ancestor u v ∧ d.numberOf w < d.numberOf u ∧
      (u = y ∨ d.numberOf u < d.numberOf y ∧ SemiPath g d y u) := by
  induction hpath using Relation.ReflTransGen.head_induction_on with
  | refl => exact ⟨v, .refl, hy, .inl rfl⟩
  | @head y y' hstep _ ih =>
    have hypos : 0 < d.numberOf y := by omega
    obtain ⟨u, huv, hwu, rfl | ⟨hlt, hsemi⟩⟩ := ih hstep.2
    · rcases Nat.lt_trichotomy (d.numberOf y) (d.numberOf u) with hlt | heq | hgt
      · exact ⟨y, (h.edge_ancestor hypos hstep.1 hlt).trans huv, hy, .inl rfl⟩
      · obtain rfl := h.number_inj hypos heq
        exact ⟨y, huv, hy, .inl rfl⟩
      · exact ⟨u, huv, hwu, .inr ⟨hgt, .of_edge hypos hstep.1⟩⟩
    · have hyu : SemiPath g d y u := .prepend hypos hstep.1 hlt hsemi
      rcases Nat.lt_trichotomy (d.numberOf y) (d.numberOf u) with hlt' | heq | hgt
      · exact ⟨y, (hyu.ancestor h hlt').trans huv, hy, .inl rfl⟩
      · obtain rfl := h.number_inj hypos heq
        exact ⟨y, huv, hy, .inl rfl⟩
      · exact ⟨u, huv, hwu, .inr ⟨hgt, hyu⟩⟩

theorem candidate_of_semiPath {x : Nat} (hxw : SemiPath g d x w)
    (hlt : d.numberOf x < d.numberOf w) : ∃ n, n ≤ d.numberOf x ∧ Candidate g d w n := by
  obtain ⟨hx, v, hpath, hvw⟩ := hxw
  rcases Relation.ReflTransGen.cases_head hpath with rfl | ⟨y, hxy, hrest⟩
  · exact ⟨d.numberOf x, le_rfl, x, hx, hvw, .inl ⟨hlt, rfl⟩⟩
  · obtain ⟨u, huv, hwu, hu⟩ := meets_ancestor h hxy.2 hrest
    have hxu : SemiPath g d x u := by
      rcases hu with rfl | ⟨hlt', hsemi⟩
      · exact .of_edge hx hxy.1
      · exact .prepend hx hxy.1 hlt' hsemi
    have hw0 : u ≠ 0 := by
      rintro rfl
      rw [h.entry] at hwu
      omega
    obtain ⟨n, hn, _⟩ := isSemi_exists h (by omega : 0 < d.numberOf u) hw0
    have hvpos : 0 < d.numberOf v := by
      have := h.ancestor_le huv
      omega
    exact ⟨n, hn.2 ⟨x, hxu, rfl⟩, v, hvpos, hvw, .inr ⟨u, huv, hwu, hn⟩⟩

/-! ## Dominators lie on the tree path -/

theorem tree_avoiding (ha : d.Ancestor u v)
    (he : ∀ z, d.Ancestor u z → d.Ancestor z v → z ≠ u → z ≠ e) :
    Relation.ReflTransGen (Avoiding g.Edge e) u v := by
  induction ha with
  | refl => exact .refl
  | @tail p w hup hp ih =>
    have hedge := h.parent_some hp
    refine .tail (ih fun z huz hzp hzu => he z huz (hzp.tail hp) hzu) ⟨hedge.2.1, ?_⟩
    refine he w (hup.tail hp) .refl ?_
    rintro rfl
    have := h.ancestor_le hup
    omega

theorem dominance_ancestor (hw : 0 < d.numberOf w)
    (hdom : Dominance g.Edge 0 e w) : d.Ancestor e w := by
  by_contra hnot
  refine dominance_iff_not_avoiding.mp hdom ⟨?_, ?_⟩
  · rintro rfl
    exact hnot (h.entry_ancestor hw)
  · refine tree_avoiding h (h.entry_ancestor hw) fun z _ hzw _ => ?_
    rintro rfl
    exact hnot hzw

theorem not_dominance_below (huw : d.Ancestor u w)
    (hlt : d.numberOf e < d.numberOf u) (hu : ¬ Dominance g.Edge 0 e u) :
    ¬ Dominance g.Edge 0 e w := by
  rw [dominance_iff_not_avoiding, not_not] at hu ⊢
  refine ⟨hu.1, hu.2.trans (tree_avoiding h huw fun z huz _ _ => ?_)⟩
  rintro rfl
  have := h.ancestor_le huz
  omega

theorem dominance_of_le {b : Nat} (hw : 0 < d.numberOf w)
    (ha : Dominance g.Edge 0 a w) (hb : Dominance g.Edge 0 b w)
    (hle : d.numberOf a ≤ d.numberOf b) : Dominance g.Edge 0 a b := by
  have hbw := dominance_ancestor h hw hb
  have hbpos := h.ancestor_pos hbw hw
  rcases Nat.lt_or_eq_of_le hle with hlt | heq
  · by_contra hnot
    exact not_dominance_below h hbw hlt hnot ha
  · obtain rfl := h.number_inj (heq ▸ hbpos) heq
    exact dominance_refl a

theorem dominance_antisymm {b : Nat} (ha : 0 < d.numberOf a)
    (hb : 0 < d.numberOf b) (hab : Dominance g.Edge 0 a b) (hba : Dominance g.Edge 0 b a) :
    a = b :=
  h.number_inj ha (Nat.le_antisymm (h.ancestor_le (dominance_ancestor h hb hab))
    (h.ancestor_le (dominance_ancestor h ha hba)))

/-- A dominator of a node other than itself is above the start of every semidominator path from a
smaller number. -/
theorem dominance_semiPath (hw : 0 < d.numberOf w)
    (hne : e ≠ w) (hdom : Dominance g.Edge 0 e w) (hvw : SemiPath g d v w)
    (hlt : d.numberOf v < d.numberOf w) : d.Ancestor e v := by
  have hew := dominance_ancestor h hw hdom
  have hanc := hvw.ancestor h hlt
  have hewlt := h.ancestor_lt hew hne hw
  rcases Nat.lt_or_ge (d.numberOf v) (d.numberOf e) with hve | hev
  · -- Otherwise the tree leads to `v` above `e`, and the path goes around `e`.
    refine absurd hdom (dominance_iff_not_avoiding.not.mpr (not_not.mpr ⟨?_, ?_⟩))
    · rintro rfl
      rw [h.entry] at hve
      have := hvw.1
      omega
    · refine (tree_avoiding h (h.entry_ancestor hvw.1) fun z _ hzv _ => ?_).trans
        (hvw.avoiding hewlt)
      rintro rfl
      have := h.ancestor_le hzv
      omega
  · exact h.ancestor_chain hew hanc hw hev

/-! ## Immediate dominators from semidominators -/

/-- A node above `w` dominates `w` if no semidominator path leads from a smaller number to a node
between the two. The proof follows a path around the node backwards from `w`: at every moment it
stands at a node between the two, or leads to one through greater numbers. -/
theorem dominance_of_no_entry (haw : d.Ancestor a w) (hne : a ≠ w) (hw : 0 < d.numberOf w)
    (hno : ∀ x y, d.Ancestor a y → a ≠ y → d.Ancestor y w → SemiPath g d x y →
      d.numberOf x < d.numberOf y → x ≠ a → d.numberOf a ≤ d.numberOf x) :
    Dominance g.Edge 0 a w := by
  rw [dominance_iff_not_avoiding]
  rintro ⟨h0, hpath⟩
  have hclaim : ∀ {x : Nat}, Relation.ReflTransGen (Avoiding g.Edge a) x w → x ≠ a →
      0 < d.numberOf x → ∃ y, d.Ancestor a y ∧ a ≠ y ∧ d.Ancestor y w ∧
        (y = x ∨ d.numberOf y < d.numberOf x ∧ SemiPath g d x y) := by
    intro x hx
    induction hx using Relation.ReflTransGen.head_induction_on with
    | refl => exact fun _ _ => ⟨w, haw, hne, .refl, .inl rfl⟩
    | @head x x' hstep _ ih =>
      intro hxa hxpos
      obtain ⟨y, hay, hay', hyw, hy⟩ := ih hstep.2 (h.closed hxpos hstep.1)
      have hxy : SemiPath g d x y := by
        rcases hy with rfl | ⟨hlt, hsemi⟩
        · exact .of_edge hxpos hstep.1
        · exact .prepend hxpos hstep.1 hlt hsemi
      rcases Nat.lt_trichotomy (d.numberOf x) (d.numberOf y) with hlt | heq | hgt
      · have hxw := (hxy.ancestor h hlt).trans hyw
        have hle := hno x y hay hay' hyw hxy hlt hxa
        exact ⟨x, h.ancestor_chain haw hxw hw hle, Ne.symm hxa, hxw, .inl rfl⟩
      · exact ⟨y, hay, hay', hyw, .inl (h.number_inj hxpos heq).symm⟩
      · exact ⟨y, hay, hay', hyw, .inr ⟨hgt, hxy⟩⟩
  obtain ⟨y, hay, hay', hyw, hy⟩ := hclaim hpath h0 (by rw [h.entry]; omega)
  have hypos := h.ancestor_pos hyw hw
  have hlt := h.ancestor_lt hay hay' hypos
  have hapos := h.ancestor_pos haw hw
  rcases hy with rfl | ⟨hy, _⟩
  · rw [h.entry] at hlt
    omega
  · rw [h.entry] at hy
    omega

/-- When no node between the semidominator and the node has a lesser semidominator, the
semidominator is the immediate dominator. -/
theorem immediate_of_semi (hw : 0 < d.numberOf w) (hw0 : w ≠ 0)
    (hspos : 0 < d.numberOf s) (hs : IsSemi g d w (d.numberOf s))
    (hmin : ∀ u m, d.Ancestor s u → s ≠ u → d.Ancestor u w → IsSemi g d u m →
      d.numberOf s ≤ m) : ImmediateDominance g.Edge 0 s w := by
  obtain ⟨hsw, hne, hpath⟩ := hs.ancestor h hspos hw hw0
  have hdom : Dominance g.Edge 0 s w := by
    refine dominance_of_no_entry h hsw hne hw fun x y hsy hsy' hyw hxy _ _ => ?_
    have hypos := h.ancestor_pos hyw hw
    have hy0 : y ≠ 0 := by
      rintro rfl
      have := h.ancestor_lt hsy hsy' hypos
      rw [h.entry] at this
      omega
    obtain ⟨m, hm, _⟩ := isSemi_exists h hypos hy0
    exact (hmin y m hsy hsy' hyw hm).trans (hm.2 ⟨x, hxy, rfl⟩)
  refine ⟨hne, hdom, fun a ha hadom => ?_⟩
  have has := dominance_semiPath h hw ha hadom hpath (h.ancestor_lt hsw hne hw)
  exact dominance_of_le h hw hadom hdom (h.ancestor_le has)

/-- Otherwise the node has the immediate dominator of the one of least semidominator among those
between its semidominator and itself. -/
theorem immediate_of_lower {m : Nat} (hw : 0 < d.numberOf w)
    (hw0 : w ≠ 0) (hspos : 0 < d.numberOf s) (hs : IsSemi g d w (d.numberOf s))
    (hsu : d.Ancestor s u) (hsu' : s ≠ u) (huw : d.Ancestor u w) (hm : IsSemi g d u m)
    (hmin : ∀ u' m', d.Ancestor s u' → s ≠ u' → d.Ancestor u' w → IsSemi g d u' m' → m ≤ m')
    (he : ImmediateDominance g.Edge 0 e u) : ImmediateDominance g.Edge 0 e w := by
  obtain ⟨hsw, hne, hpath⟩ := hs.ancestor h hspos hw hw0
  have hupos := h.ancestor_pos huw hw
  have heu := dominance_ancestor h hupos he.dominates
  have heult := h.ancestor_lt heu he.ne hupos
  have hew : d.Ancestor e w := heu.trans huw
  have hewne : e ≠ w := by
    rintro rfl
    have := h.ancestor_le huw
    omega
  have hsult := h.ancestor_lt hsu hsu' hupos
  have hu0 : u ≠ 0 := by
    rintro rfl
    rw [h.entry] at hsult
    omega
  -- The dominator `e` of `u` is above the semidominator of `u`.
  have hem : d.numberOf e ≤ m := by
    obtain ⟨v, hv, hvm⟩ := hm.1
    have hlt := hm.lt_number h hupos hu0
    have := h.ancestor_le
      (dominance_semiPath h hupos he.ne he.dominates hv (by rw [hvm]; exact hlt))
    omega
  have hdom : Dominance g.Edge 0 e w := by
    refine dominance_of_no_entry h hew hewne hw fun x y hey hey' hyw hxy hlt hxe => ?_
    by_contra hnot
    have hypos := h.ancestor_pos hyw hw
    have hy0 : y ≠ 0 := by
      rintro rfl
      rw [h.entry] at hlt
      have := hxy.1
      omega
    obtain ⟨k, hk, _⟩ := isSemi_exists h hypos hy0
    have hkx : k ≤ d.numberOf x := hk.2 ⟨x, hxy, rfl⟩
    -- So `y` is too high up to lie below the semidominator of `w`, and above `u` then.
    have hys : d.numberOf y ≤ d.numberOf s := by
      by_contra hgt
      have hsy := h.ancestor_chain hsw hyw hw (by omega)
      have hsy' : s ≠ y := by
        rintro rfl
        omega
      have := hmin y k hsy hsy' hyw hk
      omega
    have hyu : d.Ancestor y u := h.ancestor_chain hyw huw hw (by omega)
    have heylt := h.ancestor_lt hey hey' hypos
    refine absurd he.dominates (not_dominance_below h hyu heylt ?_)
    rw [dominance_iff_not_avoiding, not_not]
    refine ⟨?_, (tree_avoiding h (h.entry_ancestor hxy.1) fun z _ hzx _ => ?_).trans
      (hxy.avoiding heylt)⟩
    · rintro rfl
      rw [h.entry] at hnot
      have := hxy.1
      omega
    · rintro rfl
      have := h.ancestor_le hzx
      omega
  refine ⟨hewne, hdom, fun a ha hadom => ?_⟩
  have haw := dominance_ancestor h hw hadom
  have has := dominance_semiPath h hw ha hadom hpath (h.ancestor_lt hsw hne hw)
  have hault : d.numberOf a < d.numberOf u := (h.ancestor_le has).trans_lt hsult
  have hau : Dominance g.Edge 0 a u := by
    by_contra hnot
    exact not_dominance_below h huw hault hnot hadom
  refine he.closest a ?_ hau
  rintro rfl
  exact lt_irrefl _ hault

end SsaIr.DepthFirst
