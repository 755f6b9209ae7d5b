import SsaIr.Flow.Dominators
import SsaIr.Proofs.Flow.LinkEval
import SsaIr.Proofs.Flow.Semidominance

/-!
# The dominator tree is right

The two passes over the numbered nodes compute the immediate dominators. `Sweep g d lo lo s` is the
invariant of the first pass once the nodes with numbers above `lo` are processed, `node_sweep` its
step, and `dominators_spec` the result of both passes. Read `ofGraph_dominates_iff` and
`ofGraph_idom` for what they mean for the tree.
-/

namespace SsaIr

open DepthFirst LinkEval List

variable {b p : Nat}

namespace DepthFirst.Preorder

variable {g : FlowGraph} {d : DepthFirst} (h : Preorder g d) {v : Nat} {first : List Nat}
include h

theorem nodeAt_number (hv : 0 < d.numberOf v) : d.nodeAt (d.numberOf v) = v := by
  obtain ⟨k, hk⟩ : ∃ k, d.numberOf v = k + 1 := ⟨d.numberOf v - 1, by omega⟩
  rw [nodeAt, hk, Nat.add_sub_cancel, Array.getD_eq_getD_getElem?, h.order_iff.mpr hk,
    Option.getD_some]

theorem ne_zero (hv : 1 < d.numberOf v) : v ≠ 0 := by
  rintro rfl
  exact hv.ne' h.entry

theorem number_of_split {rest : List Nat} (horder : d.order.toList = first ++ v :: rest) :
    d.numberOf v = first.length + 1 := by
  rw [← h.order_iff, ← Array.getElem?_toList, horder]
  simp

theorem number_le_of_split (horder : d.order.toList = first ++ []) (v : Nat) :
    d.numberOf v ≤ first.length := by
  rw [← append_nil first, ← horder]
  exact h.number_le v

end DepthFirst.Preorder

namespace Semidominators

variable {g : FlowGraph} {d : DepthFirst} {lo w : Nat} {s t : Semidominators}

/-- The guess `u` for the immediate dominator of `v` with semidominator `s`: the semidominator, when
nothing between it and `v` has a lesser one, and else a node between them of least semidominator. -/
def GoodGuess (g : FlowGraph) (d : DepthFirst) (s v u : Nat) : Prop :=
  (u = s ∧ ∀ z m, Between d s v z → IsSemi g d z m → d.numberOf s ≤ m) ∨
    ∃ m, Between d s v u ∧ IsSemi g d u m ∧ m < d.numberOf s ∧
      ∀ z m', Between d s v z → IsSemi g d z m' → m ≤ m'

/-- What holds once the nodes with numbers above `lo` are processed. A processed node waits at its
semidominator until the child of the semidominator above it is processed, and has a good guess
from then on; `hi` bounds the numbers of the children whose waiting nodes were not released. -/
structure Sweep (g : FlowGraph) (d : DepthFirst) (lo hi : Nat) (s : Semidominators) : Prop where
  semi_size : s.semi.size = g.size
  bucket_size : s.bucket.size = g.size
  idom_size : s.idom.size = g.size
  forest : Represents g d s.semiOf lo s.forest
  semi_done : ∀ {v : Nat}, lo < d.numberOf v → IsSemi g d v (s.semiOf v)
  semi_start : ∀ {v : Nat}, d.numberOf v ≤ lo → s.semiOf v = d.numberOf v
  waiting : ∀ {p v : Nat}, v ∈ s.bucket.getD p [] → lo < d.numberOf v ∧
    0 < d.numberOf p ∧ s.semiOf v = d.numberOf p ∧
    ∀ c, d.parentOf c = some p → d.Ancestor c v → d.numberOf c ≤ hi
  guessed : ∀ {p v : Nat}, lo < d.numberOf v → 0 < d.numberOf p →
    s.semiOf v = d.numberOf p → v ∈ s.bucket.getD p [] ∨
      ∃ u, s.idom.getD v none = some u ∧ GoodGuess g d p v u
  idom_none : ∀ {v : Nat}, d.numberOf v ≤ lo → s.idom.getD v none = none

theorem start_sweep (h : Preorder g d) (hlo : ∀ v, d.numberOf v ≤ lo) :
    Sweep g d lo lo (start d g.size) where
  semi_size := h.number_size
  bucket_size := Array.size_replicate
  idom_size := Array.size_replicate
  forest := new_represents hlo
  semi_done := fun {v} hv => absurd (hlo v) (Nat.not_le_of_lt hv)
  semi_start := fun _ => rfl
  waiting := by
    intro p v hv
    rw [start, Array.getD_replicate_self] at hv
    exact absurd hv not_mem_nil
  guessed := fun {_ v} hv => absurd (hlo v) (Nat.not_le_of_lt hv)
  idom_none := fun _ => Array.getD_replicate_self _ _ _

/-! ## Computing a semidominator -/

/-- What the predecessor `v` of `w` offers: its own number if it is smaller, and the semidominators
of the greater nodes above it. -/
def Offer (g : FlowGraph) (d : DepthFirst) (w v n : Nat) : Prop :=
  0 < d.numberOf v ∧ ((d.numberOf v < d.numberOf w ∧ n = d.numberOf v) ∨
    ∃ u, d.Ancestor u v ∧ d.numberOf w < d.numberOf u ∧ IsSemi g d u n)

/-- The state while the predecessors of `w` are looked at: only the semidominator of `w` and the
lengths of forest paths have changed since `s`. -/
structure Lowering (g : FlowGraph) (d : DepthFirst) (lo w : Nat) (s t : Semidominators) :
    Prop where
  forest : Represents g d t.semiOf lo t.forest
  bucket : t.bucket = s.bucket
  idom : t.idom = s.idom
  semi_size : t.semi.size = s.semi.size
  semi_other : ∀ {v : Nat}, v ≠ w → t.semiOf v = s.semiOf v
  semi_le : t.semiOf w ≤ s.semiOf w

section

variable (h : Preorder g d) (hs : Sweep g d lo lo s) (hw : d.numberOf w = lo)
  (hwpos : 0 < d.numberOf w)
include h hs hw hwpos

theorem lower_spec {v : Nat} (ht : Lowering g d lo w s t) : Lowering g d lo w s (lower d w t v) ∧
      (lower d w t v).semiOf w ≤ t.semiOf w ∧
      ((lower d w t v).semiOf w = t.semiOf w ∨ Offer g d w v ((lower d w t v).semiOf w)) ∧
      ∀ n, Offer g d w v n → (lower d w t v).semiOf w ≤ n := by
  by_cases hv : d.reached v = true
  · have hvpos := reached_iff_pos.mp hv
    obtain ⟨hrep, hunlinked, hlinked⟩ := eval_spec h ht.forest v
    -- The semidominator found through the forest is offered, and nothing offered is less.
    have hoffer : v ≠ w → Offer g d w v (t.semiOf (t.forest.eval t.semiOf v).1) ∧
        ∀ n, Offer g d w v n → t.semiOf (t.forest.eval t.semiOf v).1 ≤ n := by
      intro hvw
      rcases Nat.lt_or_ge lo (d.numberOf v) with hlo | hlo
      · obtain ⟨hanc, hgt, hmin⟩ := hlinked hlo
        have huw : ∀ {u : Nat}, lo < d.numberOf u → u ≠ w := by
          rintro u hu rfl
          omega
        refine ⟨⟨hvpos, .inr ⟨_, hanc, by omega, ?_⟩⟩, ?_⟩
        · rw [ht.semi_other (huw hgt)]
          exact hs.semi_done hgt
        · rintro n ⟨_, ⟨hlt, _⟩ | ⟨u, huv, hwu, hsemi⟩⟩
          · omega
          · have hu : lo < d.numberOf u := by omega
            have hn : t.semiOf u = n := by
              rw [ht.semi_other (huw hu)]
              exact (hs.semi_done hu).unique hsemi
            rw [← hn]
            exact hmin u huv hu
      · have hnum : t.semiOf v = d.numberOf v := by
          rw [ht.semi_other hvw]
          exact hs.semi_start hlo
        have hlt : d.numberOf v < d.numberOf w := by
          rcases Nat.lt_or_eq_of_le hlo with hlt | heq
          · omega
          · exact absurd (h.number_inj hvpos (heq.trans hw.symm)) hvw
        rw [hunlinked hlo, hnum]
        refine ⟨⟨hvpos, .inl ⟨hlt, rfl⟩⟩, ?_⟩
        rintro n ⟨_, ⟨_, rfl⟩ | ⟨u, huv, hwu, _⟩⟩
        · exact le_rfl
        · have := h.ancestor_le huv
          omega
    have hwlt : w < t.semi.size := by
      rw [ht.semi_size, hs.semi_size]
      exact h.lt_size hwpos
    by_cases hlt : t.semiOf (t.forest.eval t.semiOf v).1 < t.semiOf w
    · -- The semidominator of `w` is lowered.
      have heq : lower d w t v =
          { t with
            forest := (t.forest.eval t.semiOf v).2
            semi := t.semi.setIfInBounds w (t.semiOf (t.forest.eval t.semiOf v).1) } := by
        rw [lower, if_pos hv]
        exact if_pos hlt
      have hsemi : ∀ x, (lower d w t v).semiOf x =
          if w = x then t.semiOf (t.forest.eval t.semiOf v).1 else t.semiOf x := by
        intro x
        rw [heq]
        simp only [semiOf, Array.getD_setIfInBounds, hwlt, and_true]
      have hvw : v ≠ w := by
        rintro rfl
        rw [hunlinked (by omega)] at hlt
        exact lt_irrefl _ hlt
      have hw' : (lower d w t v).semiOf w = t.semiOf (t.forest.eval t.semiOf v).1 := by
        rw [hsemi, if_pos rfl]
      have hother : ∀ {x : Nat}, x ≠ w → (lower d w t v).semiOf x = t.semiOf x := fun hx => by
        rw [hsemi, if_neg (Ne.symm hx)]
      have hforest : Represents g d (lower d w t v).semiOf lo (t.forest.eval t.semiOf v).2 :=
        hrep.congr fun x hx => hother (by rintro rfl; omega)
      refine ⟨⟨?_, ?_, ?_, ?_, fun hx => (hother hx).trans (ht.semi_other hx), ?_⟩, ?_⟩
      · rw [heq] at hforest ⊢
        exact hforest
      · rw [heq]
        exact ht.bucket
      · rw [heq]
        exact ht.idom
      · rw [heq]
        exact Array.size_setIfInBounds.trans ht.semi_size
      all_goals rw [hw']
      · exact hlt.le.trans ht.semi_le
      · exact ⟨hlt.le, .inr (hoffer hvw).1, (hoffer hvw).2⟩
    · have heq : lower d w t v = { t with forest := (t.forest.eval t.semiOf v).2 } := by
        rw [lower, if_pos hv]
        exact if_neg hlt
      rw [heq]
      refine ⟨{ ht with forest := hrep }, le_rfl, .inl rfl, fun n hn => ?_⟩
      by_cases hvw : v = w
      · -- An edge from `w` to itself offers nothing.
        subst hvw
        obtain ⟨_, ⟨hlt', _⟩ | ⟨u, huv, hwu, _⟩⟩ := hn
        · omega
        · have := h.ancestor_le huv
          omega
      · exact (not_lt.mp hlt).trans ((hoffer hvw).2 n hn)
  · have heq : lower d w t v = t := if_neg hv
    rw [heq]
    refine ⟨ht, le_rfl, .inl rfl, fun n hn => ?_⟩
    exact absurd (reached_iff_pos.mpr hn.1) hv

theorem lower_foldl (preds : List Nat) (ht : Lowering g d lo w s t) :
    Lowering g d lo w s (preds.foldl (lower d w) t) ∧
      (preds.foldl (lower d w) t).semiOf w ≤ t.semiOf w ∧
      ((preds.foldl (lower d w) t).semiOf w = t.semiOf w ∨
        ∃ v ∈ preds, Offer g d w v ((preds.foldl (lower d w) t).semiOf w)) ∧
      ∀ v ∈ preds, ∀ n, Offer g d w v n → (preds.foldl (lower d w) t).semiOf w ≤ n := by
  induction preds generalizing t with
  | nil => exact ⟨ht, le_rfl, .inl rfl, fun v hv => absurd hv not_mem_nil⟩
  | cons v rest ih =>
    obtain ⟨ht', hle, hfrom, hall⟩ := lower_spec (v := v) h hs hw hwpos ht
    obtain ⟨ht'', hle', hfrom', hall'⟩ := ih ht'
    rw [foldl_cons]
    refine ⟨ht'', hle'.trans hle, ?_, ?_⟩
    · rcases hfrom' with heq | ⟨x, hx, hoffer⟩
      · rw [heq]
        rcases hfrom with heq' | hoffer
        · exact .inl heq'
        · exact .inr ⟨v, .head .., hoffer⟩
      · exact .inr ⟨x, .tail _ hx, hoffer⟩
    · intro x hx n hn
      rcases mem_cons.mp hx with rfl | hx
      · exact hle'.trans (hall n hn)
      · exact hall' x hx n hn

end

theorem lower_preds (hg : g.WellFormed) (h : Complete g d) (hs : Sweep g d lo lo s)
    (hw : d.numberOf w = lo) (hwpos : 0 < d.numberOf w) (hw0 : w ≠ 0) :
    Lowering g d lo w s ((g.predsOf w).foldl (lower d w) s) ∧
      IsSemi g d w (((g.predsOf w).foldl (lower d w) s).semiOf w) := by
  have hstart : Lowering g d lo w s s :=
    ⟨hs.forest, rfl, rfl, rfl, fun _ => rfl, le_rfl⟩
  obtain ⟨ht, hle, hfrom, hall⟩ :=
    lower_foldl h.toPreorder hs hw hwpos (g.predsOf w) hstart
  rw [hs.semi_start hw.le] at hle hfrom
  have hall' : ∀ n, Candidate g d w n → ((g.predsOf w).foldl (lower d w) s).semiOf w ≤ n := by
    rintro n ⟨v, hvpos, hvw, hoffer⟩
    exact hall v (hg.mem_preds.mpr hvw) n ⟨hvpos, hoffer⟩
  refine ⟨ht, ?_, ?_⟩
  · rcases hfrom with heq | ⟨v, hv, hvpos, hoffer⟩
    · -- The parent offers less than the number of `w`.
      obtain ⟨p, hp⟩ := h.parent_exists hwpos hw0
      obtain ⟨hppos, hpw, hlt⟩ := h.parent_some hp
      have := hall' _ ⟨p, hppos, hpw, .inl ⟨hlt, rfl⟩⟩
      omega
    · exact semiPath_of_candidate h ⟨v, hvpos, hg.mem_preds.mp hv, hoffer⟩
  · rintro n ⟨x, hx, rfl⟩
    rcases Nat.lt_or_ge (d.numberOf x) (d.numberOf w) with hlt | hge
    · obtain ⟨m, hm, hcand⟩ := candidate_of_semiPath h hx hlt
      exact (hall' m hcand).trans hm
    · exact hle.trans hge

/-! ## Guessing immediate dominators -/

/-- The nodes between a waiting node and its semidominator `p` are the linked ones above it: the
child of `p` above it is the node `w` that was just linked. -/
theorem between_iff_linked (h : Preorder g d) {v z : Nat} (hw : d.numberOf w = lo + 1)
    (hp : d.parentOf w = some p) (hpv : d.Ancestor p v) (hv : lo < d.numberOf v)
    (hchild : ∀ c, d.parentOf c = some p → d.Ancestor c v → d.numberOf c ≤ lo + 1) :
    Between d p v z ↔ d.Ancestor z v ∧ lo < d.numberOf z := by
  have hpw := h.parent_some hp
  have hvpos : 0 < d.numberOf v := by omega
  constructor
  · rintro ⟨hpz, hne, hzv⟩
    refine ⟨hzv, ?_⟩
    -- The child of `p` on the way to `z`.
    obtain ⟨c, hc, hcz⟩ : ∃ c, d.parentOf c = some p ∧ d.Ancestor c z := by
      rcases Relation.ReflTransGen.cases_head hpz with heq | ⟨c, hc, hcz⟩
      · exact absurd heq hne
      · exact ⟨c, hc, hcz⟩
    have hcv := hcz.trans hzv
    have hcw : c = w := by
      have hle := hchild c hc hcv
      have hcw := h.interval hcv (by omega : 0 < d.numberOf w) (by omega) (by omega)
      exact (between_parent h hp ⟨.single hc, by
        rintro rfl
        have := (h.parent_some hc).2.2
        omega, hcw⟩)
    have := h.ancestor_le hcz
    rw [hcw] at this
    omega
  · rintro ⟨hzv, hlt⟩
    refine ⟨h.ancestor_chain hpv hzv hvpos (by omega), ?_, hzv⟩
    rintro rfl
    omega

/-- The state while the nodes that wait at `p` are released: only guesses and the lengths of forest
paths have changed since `s`. -/
structure Releasing (g : FlowGraph) (d : DepthFirst) (lo p : Nat) (s t : Semidominators) :
    Prop where
  forest : Represents g d t.semiOf lo t.forest
  bucket : t.bucket = s.bucket
  semi : t.semi = s.semi
  idom_size : t.idom.size = s.idom.size
  idom : ∀ v, t.idom.getD v none = s.idom.getD v none ∨
    lo < d.numberOf v ∧ ∃ u, t.idom.getD v none = some u ∧ GoodGuess g d p v u

theorem guess_spec (h : Preorder g d) {v : Nat} (ht : Releasing g d lo p s t)
    (hsize : s.idom.size = g.size)
    (hsemi : ∀ {x : Nat}, lo < d.numberOf x → IsSemi g d x (s.semiOf x))
    (hw : d.numberOf w = lo + 1) (hp : d.parentOf w = some p) (hpv : d.Ancestor p v)
    (hv : lo < d.numberOf v) (hvp : s.semiOf v = d.numberOf p)
    (hchild : ∀ c, d.parentOf c = some p → d.Ancestor c v → d.numberOf c ≤ lo + 1) :
    Releasing g d lo p s (guess p t v) ∧
      ∃ u, (guess p t v).idom.getD v none = some u ∧ GoodGuess g d p v u := by
  have hbetween : ∀ z, Between d p v z ↔ d.Ancestor z v ∧ lo < d.numberOf z :=
    fun z => between_iff_linked h hw hp hpv hv hchild
  obtain ⟨hrep, _, hlinked⟩ := eval_spec h ht.forest v
  obtain ⟨hanc, hgt, hmin⟩ := hlinked hv
  have hsemi_eq : ∀ x, t.semiOf x = s.semiOf x := fun x => by rw [semiOf, ht.semi]; rfl
  have hvlt : v < t.idom.size := by
    rw [ht.idom_size, hsize]
    exact h.lt_size (by omega)
  have hidom : ∀ x, (guess p t v).idom.getD x none =
      if v = x then some (if t.semiOf (t.forest.eval t.semiOf v).1 < t.semiOf v
        then (t.forest.eval t.semiOf v).1 else p) else t.idom.getD x none := by
    intro x
    show (t.idom.setIfInBounds v _).getD x none = _
    simp only [Array.getD_setIfInBounds, hvlt, and_true]
    rfl
  have hgood : GoodGuess g d p v (if t.semiOf (t.forest.eval t.semiOf v).1 < t.semiOf v
      then (t.forest.eval t.semiOf v).1 else p) := by
    have hle : ∀ z m, Between d p v z → IsSemi g d z m →
        t.semiOf (t.forest.eval t.semiOf v).1 ≤ m := by
      intro z m hz hm
      obtain ⟨hzv, hzlo⟩ := (hbetween z).mp hz
      rw [← (hsemi hzlo).unique hm, ← hsemi_eq]
      exact hmin z hzv hzlo
    split
    · rename_i hlt
      refine .inr ⟨_, (hbetween _).mpr ⟨hanc, hgt⟩, ?_, ?_, hle⟩
      · rw [hsemi_eq]
        exact hsemi hgt
      · rwa [← hvp, ← hsemi_eq]
    · rename_i hnot
      refine .inl ⟨rfl, fun z m hz hm => ?_⟩
      rw [← hvp, ← hsemi_eq]
      exact (not_lt.mp hnot).trans (hle z m hz hm)
  refine ⟨⟨hrep, ht.bucket, ht.semi, Array.size_setIfInBounds.trans ht.idom_size, fun x => ?_⟩, _,
    by rw [hidom, if_pos rfl], hgood⟩
  rw [hidom]
  split
  · rename_i hx
    subst hx
    exact .inr ⟨hv, _, rfl, hgood⟩
  · exact ht.idom x

theorem guess_foldl (h : Preorder g d) (hsize : s.idom.size = g.size)
    (hsemi : ∀ {x : Nat}, lo < d.numberOf x → IsSemi g d x (s.semiOf x))
    (hw : d.numberOf w = lo + 1) (hp : d.parentOf w = some p) (vs : List Nat)
    (hvs : ∀ v ∈ vs, d.Ancestor p v ∧ lo < d.numberOf v ∧ s.semiOf v = d.numberOf p ∧
      ∀ c, d.parentOf c = some p → d.Ancestor c v → d.numberOf c ≤ lo + 1)
    (ht : Releasing g d lo p s t) : Releasing g d lo p s (vs.foldl (guess p) t) ∧
      ∀ v, v ∈ vs ∨ (∃ u, t.idom.getD v none = some u ∧ GoodGuess g d p v u) →
        ∃ u, (vs.foldl (guess p) t).idom.getD v none = some u ∧ GoodGuess g d p v u := by
  induction vs generalizing t with
  | nil =>
    refine ⟨ht, fun v hv => ?_⟩
    rcases hv with hv | hv
    · exact absurd hv not_mem_nil
    · exact hv
  | cons x rest ih =>
    obtain ⟨hpx, hx, hxp, hchild⟩ := hvs x (.head ..)
    obtain ⟨ht', hxgood⟩ := guess_spec h ht hsize hsemi hw hp hpx hx hxp hchild
    obtain ⟨ht'', hall⟩ := ih (fun v hv => hvs v (.tail _ hv)) ht'
    refine ⟨ht'', fun v hv => hall v ?_⟩
    by_cases hvx : v = x
    · subst hvx
      exact .inr hxgood
    · rcases hv with hv | ⟨u, hu, hgood⟩
      · rcases mem_cons.mp hv with hv | hv
        · exact absurd hv hvx
        · exact .inl hv
      · refine .inr ⟨u, ?_, hgood⟩
        rw [show (guess p t x).idom = t.idom.setIfInBounds x _ from rfl,
          Array.getD_setIfInBounds, if_neg (fun hc => hvx hc.1.symm)]
        exact hu

theorem guess_foldl_other {v : Nat} {vs : List Nat} (hv : v ∉ vs) :
    (vs.foldl (guess p) t).idom.getD v none = t.idom.getD v none := by
  induction vs generalizing t with
  | nil => rfl
  | cons x rest ih =>
    rw [foldl_cons, ih fun hmem => hv (.tail _ hmem),
      show (guess p t x).idom = t.idom.setIfInBounds x _ from rfl, Array.getD_setIfInBounds,
      if_neg]
    rintro ⟨rfl, _⟩
    exact hv (.head ..)

/-! ## One node -/

theorem link_sweep (h : Complete g d)
    (hs : Sweep g d (lo + 1) (lo + 1) s) (ht : Lowering g d (lo + 1) w s t)
    (hsemi : IsSemi g d w (t.semiOf w)) (hw : d.numberOf w = lo + 1) (hw0 : w ≠ 0)
    (hp : d.parentOf w = some p) :
    Sweep g d lo (lo + 1) { t.wait d w with forest := t.forest.link p w } := by
  obtain ⟨q, hq, hqnum⟩ := hsemi.1
  have hqpos : 0 < d.numberOf q := hq.1
  have hnode : d.nodeAt (t.semiOf w) = q := by
    rw [← hqnum]
    exact h.nodeAt_number hqpos
  have hgt : ∀ {v : Nat}, v ≠ w → lo < d.numberOf v → lo + 1 < d.numberOf v := by
    intro v hvw hv
    by_contra hle
    exact hvw (h.number_inj (by omega) (by omega))
  have hbucket : ∀ x, (t.wait d w).bucket.getD x [] =
      if q = x then s.bucket.getD x [] ++ [w] else s.bucket.getD x [] := by
    intro x
    have hqlt : q < s.bucket.size := by
      rw [hs.bucket_size]
      exact h.lt_size hqpos
    simp only [wait, hnode, ht.bucket, Array.getD_modify, hqlt, and_true]
  refine ⟨?_, ?_, ?_, ?_, ?_, ?_, ?_, ?_, ?_⟩
  · exact ht.semi_size.trans hs.semi_size
  · simp only [wait, Array.size_modify]
    rw [ht.bucket, hs.bucket_size]
  · exact (congrArg Array.size ht.idom).trans hs.idom_size
  · exact link_represents h.toPreorder ht.forest hw hp
  · intro v hv
    by_cases hvw : v = w
    · rwa [hvw]
    · have hdone := hs.semi_done (hgt hvw hv)
      rwa [← ht.semi_other hvw] at hdone
  · intro v hv
    have hvw : v ≠ w := by
      rintro rfl
      omega
    exact (ht.semi_other hvw).trans (hs.semi_start (by omega))
  · intro x v hv
    rw [hbucket] at hv
    have hold : v ∈ s.bucket.getD x [] → lo < d.numberOf v ∧ 0 < d.numberOf x ∧
        t.semiOf v = d.numberOf x ∧
        ∀ c, d.parentOf c = some x → d.Ancestor c v → d.numberOf c ≤ lo + 1 := by
      intro hv
      obtain ⟨hlt, hx, hvx, hc⟩ := hs.waiting hv
      have hvw : v ≠ w := by
        rintro rfl
        omega
      exact ⟨by omega, hx, (ht.semi_other hvw).trans hvx, hc⟩
    split at hv
    · rename_i hqx
      rcases mem_append.mp hv with hv | hv
      · exact hold hv
      · obtain rfl := mem_singleton.mp hv
        subst hqx
        refine ⟨by omega, hqpos, hqnum.symm, fun c _ hcv => ?_⟩
        have := h.ancestor_le hcv
        omega
    · exact hold hv
  · intro x v hv hx hvx
    rw [hbucket]
    by_cases hvw : v = w
    · subst hvw
      left
      rw [if_pos (h.number_inj hqpos (hqnum.trans hvx))]
      simp
    · have hvx' : s.semiOf v = d.numberOf x := (ht.semi_other hvw).symm.trans hvx
      rcases hs.guessed (hgt hvw hv) hx hvx' with hmem | ⟨u, hu, hgood⟩
      · left
        split
        · exact mem_append_left _ hmem
        · exact hmem
      · exact .inr ⟨u, (congrArg (fun a => a.getD v none) ht.idom).trans hu, hgood⟩
  · intro v hv
    exact (congrArg (fun a => a.getD v none) ht.idom).trans (hs.idom_none (by omega))

theorem Sweep.ancestor_waiting {hi : Nat} (h : Complete g d) (hs : Sweep g d lo hi s) {x v : Nat}
    (hv : v ∈ s.bucket.getD x []) : d.Ancestor x v := by
  obtain ⟨hlt, hx, hvx, _⟩ := hs.waiting hv
  have hsemi : IsSemi g d v (d.numberOf x) := hvx ▸ hs.semi_done hlt
  by_cases hv0 : v = 0
  · -- Only the entry itself has a number as small as the entry's.
    subst hv0
    obtain ⟨a, _, hanc, hne, _⟩ := hs.forest.linked hlt
    have hlt' := h.ancestor_lt hanc hne
    have hpos := h.ancestor_pos hanc (by rw [h.entry]; omega)
    rw [h.entry] at hlt'
    omega
  · exact (hsemi.ancestor h hx (by omega) hv0).1

theorem release_sweep (h : Complete g d)
    (hs : Sweep g d lo (lo + 1) s) (hw : d.numberOf w = lo + 1) (hp : d.parentOf w = some p) :
    Sweep g d lo lo (s.release p) := by
  have hppos := (h.parent_some hp).1
  have hrel : Releasing g d lo p s s := ⟨hs.forest, rfl, rfl, rfl, fun _ => .inl rfl⟩
  obtain ⟨hfin, hgood⟩ := guess_foldl h.toPreorder hs.idom_size (fun hx => hs.semi_done hx) hw hp
    (s.bucket.getD p []) (fun v hv => ⟨hs.ancestor_waiting h hv, (hs.waiting hv).1,
      (hs.waiting hv).2.2.1, (hs.waiting hv).2.2.2⟩) hrel
  have hsemi : ∀ v, (s.release p).semiOf v = s.semiOf v :=
    fun v => congrArg (fun a => a.getD v 0) hfin.semi
  have hbucket : ∀ x, (s.release p).bucket.getD x [] =
      if p = x then [] else s.bucket.getD x [] := by
    intro x
    have hplt : p < s.bucket.size := by
      rw [hs.bucket_size]
      exact h.lt_size hppos
    simp only [release, hfin.bucket, Array.getD_setIfInBounds, hplt, and_true]
  refine ⟨?_, ?_, ?_, hfin.forest, ?_, ?_, ?_, ?_, ?_⟩
  · exact (congrArg Array.size hfin.semi).trans hs.semi_size
  · simp only [release, Array.size_setIfInBounds]
    rw [hfin.bucket, hs.bucket_size]
  · exact hfin.idom_size.trans hs.idom_size
  · intro v hv
    rw [hsemi]
    exact hs.semi_done hv
  · intro v hv
    rw [hsemi]
    exact hs.semi_start hv
  · intro x v hv
    rw [hbucket] at hv
    split at hv
    · exact absurd hv not_mem_nil
    · rename_i hpx
      obtain ⟨hlt, hx, hvx, hc⟩ := hs.waiting hv
      refine ⟨hlt, hx, by rw [hsemi]; exact hvx, fun c hcx hcv => ?_⟩
      -- A child of another node than `p` is not the node linked last.
      rcases Nat.lt_or_eq_of_le (hc c hcx hcv) with hlt' | heq
      · omega
      · obtain rfl := h.number_inj (by omega) (heq.trans hw.symm)
        exact absurd (Option.some.inj (hp.symm.trans hcx)) hpx
  · intro x v hv hx hvx
    rw [hsemi] at hvx
    rw [hbucket]
    have hcases := hs.guessed hv hx hvx
    by_cases hpx : p = x
    · subst hpx
      exact .inr (hgood v hcases)
    · rw [if_neg hpx]
      rcases hcases with hmem | ⟨u, hu, hgu⟩
      · exact .inl hmem
      · refine .inr ⟨u, ?_, hgu⟩
        have hvp : v ∉ s.bucket.getD p [] := by
          intro hvp
          exact hpx (h.number_inj hppos ((hs.waiting hvp).2.2.1.symm.trans hvx))
        exact (guess_foldl_other hvp).trans hu
  · intro v hv
    rcases hfin.idom v with hsame | ⟨hlt, _⟩
    · exact hsame.trans (hs.idom_none hv)
    · omega

theorem node_sweep (hg : g.WellFormed) (h : Complete g d)
    (hs : Sweep g d (lo + 1) (lo + 1) s) (hw : d.numberOf w = lo + 1) (hw0 : w ≠ 0) :
    Sweep g d lo lo (node g d s w) := by
  have hwpos : 0 < d.numberOf w := by omega
  obtain ⟨p, hp⟩ := h.parent_exists hwpos hw0
  obtain ⟨ht, hsemi⟩ := lower_preds hg h hs hw hwpos hw0
  have hnode : node g d s w =
      release { ((g.predsOf w).foldl (lower d w) s).wait d w with
        forest := ((g.predsOf w).foldl (lower d w) s).forest.link p w } p := by
    rw [node, hp]
    rfl
  rw [hnode]
  exact release_sweep h (link_sweep h hs ht hsemi hw hw0 hp) hw hp

theorem sweep_foldl (hg : g.WellFormed) (h : Complete g d) (first rest : List Nat)
    (hne : 0 < first.length) (horder : d.order.toList = first ++ rest) :
    Sweep g d first.length first.length (rest.reverse.foldl (node g d) (start d g.size)) := by
  induction rest generalizing first with
  | nil => exact start_sweep h.toPreorder (h.number_le_of_split horder)
  | cons w rest ih =>
    rw [reverse_cons, foldl_append]
    have hrest := ih (first ++ [w]) (by simp) (by rw [horder]; simp)
    rw [length_append] at hrest
    have hw := h.number_of_split horder
    exact node_sweep hg h hrest hw (h.ne_zero (by omega))

theorem order_eq_cons (h : Preorder g d) : d.order.toList = 0 :: d.order.toList.drop 1 := by
  have hfirst : d.order.toList[0]? = some 0 := by
    rw [Array.getElem?_toList]
    exact h.order_iff.mpr h.entry
  cases horder : d.order.toList with
  | nil => simp [horder] at hfirst
  | cons v rest =>
    rw [horder, getElem?_cons_zero, Option.some.injEq] at hfirst
    rw [hfirst, drop_one, tail_cons]

/-- The result of the first pass: every node but the entry has its semidominator and a good guess,
because nothing is left waiting. -/
theorem run_guess (hg : g.WellFormed) (h : Complete g d) (hw : 1 < d.numberOf w) :
    ∃ q u, 0 < d.numberOf q ∧ IsSemi g d w (d.numberOf q) ∧
      (run g d).semiOf w = d.numberOf q ∧ (run g d).idom.getD w none = some u ∧
      GoodGuess g d q w u := by
  have hs : Sweep g d 1 1 (run g d) :=
    sweep_foldl hg h [0] _ Nat.one_pos (order_eq_cons h.toPreorder)
  have hsemi := hs.semi_done hw
  obtain ⟨q, hq, hqnum⟩ := hsemi.1
  have hqpos : 0 < d.numberOf q := hq.1
  rcases hs.guessed hw hqpos hqnum.symm with hwait | ⟨u, hu, hgood⟩
  · obtain ⟨_, _, _, hchild⟩ := hs.waiting hwait
    rcases (hs.ancestor_waiting h hwait).cases_head with rfl | ⟨c, hc, hcw⟩
    · have := hsemi.lt_number h (by omega) (h.ne_zero hw)
      omega
    · have hle := hchild c hc hcw
      have hlt := (h.parent_some hc).2.2
      omega
  · refine ⟨q, u, hqpos, ?_, hqnum.symm, hu, hgood⟩
    rwa [hqnum]

/-! ## The second pass -/

/-- The second pass after the nodes with numbers up to `n`: they have their immediate dominators,
and the other nodes what the first pass left. -/
structure Corrected (g : FlowGraph) (d : DepthFirst) (s : Semidominators) (n : Nat)
    (idom : Array (Option Nat)) : Prop where
  size : idom.size = g.size
  done : ∀ {v : Nat}, 1 < d.numberOf v → d.numberOf v ≤ n →
    ∃ e, idom.getD v none = some e ∧ ImmediateDominance g.Edge 0 e v
  rest : ∀ {v : Nat}, d.numberOf v ≤ 1 ∨ n < d.numberOf v →
    idom.getD v none = s.idom.getD v none

section

variable (hg : g.WellFormed) (h : Complete g d)
include hg h

theorem correct_spec {n : Nat}
    {idom : Array (Option Nat)} (hi : Corrected g d (run g d) n idom) (hw : d.numberOf w = n + 1)
    (hn : 0 < n) : Corrected g d (run g d) (n + 1) (correct d (run g d) idom w) := by
  obtain ⟨q, u, hqpos, hsemi, hnum, hidom, hgood⟩ := run_guess hg h (w := w) (by omega)
  have hguess : idom.getD w none = some u := (hi.rest (.inr (by omega))).trans hidom
  have hnode : d.nodeAt ((run g d).semiOf w) = q := by
    rw [hnum]
    exact h.nodeAt_number hqpos
  have hwpos : 0 < d.numberOf w := by omega
  have hw0 : w ≠ 0 := h.ne_zero (by omega)
  have hlast : ∀ {v : Nat}, d.numberOf v ≤ n + 1 → v ≠ w → d.numberOf v ≤ n := by
    intro v hv hvw
    by_contra hgt
    exact hvw (h.number_inj (by omega) (by omega))
  rcases hgood with ⟨rfl, hmin⟩ | ⟨m, ⟨hqu, hne, huw⟩, hm, hlt, hmin⟩
  · -- The guess is the semidominator, and right.
    have heq : correct d (run g d) idom w = idom := by
      rw [correct, hguess]
      exact if_pos hnode.symm
    rw [heq]
    refine ⟨hi.size, fun {v} hv hle => ?_, fun hv => hi.rest (by omega)⟩
    by_cases hvw : v = w
    · subst hvw
      exact ⟨u, hguess, immediate_of_semi h hwpos hw0 hqpos hsemi fun z m hz hz' hzv =>
        hmin z m ⟨hz, hz', hzv⟩⟩
    · exact hi.done hv (hlast hle hvw)
  · -- The guess has the same immediate dominator and is done.
    have huw' : u ≠ w := by
      rintro rfl
      have := hm.unique hsemi
      omega
    have hult := h.ancestor_lt huw huw' hwpos
    have hqult := h.ancestor_lt hqu hne (h.ancestor_pos huw hwpos)
    obtain ⟨e, he, himm⟩ := hi.done (v := u) (by omega) (by omega)
    have heq : correct d (run g d) idom w = idom.setIfInBounds w (some e) := by
      rw [correct, hguess]
      simp only [hnode, he]
      exact if_neg (Ne.symm hne)
    have hwlt : w < idom.size := by
      rw [hi.size]
      exact h.lt_size hwpos
    have hget : ∀ v, (idom.setIfInBounds w (some e)).getD v none =
        if w = v then some e else idom.getD v none := by
      intro v
      rw [Array.getD_setIfInBounds]
      simp only [hwlt, and_true]
    rw [heq]
    refine ⟨?_, fun {v} hv hle => ?_, fun {v} hv => ?_⟩
    · rw [Array.size_setIfInBounds, hi.size]
    · rw [hget]
      by_cases hvw : w = v
      · subst hvw
        exact ⟨e, if_pos rfl, immediate_of_lower h hwpos hw0 hqpos hsemi hqu hne huw hm
          (fun z m' hz hz' hzw => hmin z m' ⟨hz, hz', hzw⟩) himm⟩
      · rw [if_neg hvw]
        exact hi.done hv (hlast hle (Ne.symm hvw))
    · rw [hget, if_neg (by rintro rfl; omega)]
      exact hi.rest (by omega)

theorem correct_foldl (first rest : List Nat)
    (hne : 0 < first.length) (horder : d.order.toList = first ++ rest)
    {idom : Array (Option Nat)} (hi : Corrected g d (run g d) first.length idom) :
    Corrected g d (run g d) d.order.size (rest.foldl (correct d (run g d)) idom) := by
  induction rest generalizing first idom with
  | nil =>
    rwa [← Array.length_toList, horder, append_nil]
  | cons w rest ih =>
    refine ih (first ++ [w]) (by simp) (by rw [horder]; simp) ?_
    rw [length_append]
    exact correct_spec hg h hi (h.number_of_split horder) hne

/-- Both passes together give every reached node but the entry its immediate dominator, and no
other node one. -/
theorem dominators_spec : (dominators d (run g d)).size = g.size ∧ (∀ v, 1 < d.numberOf v →
      ∃ e, (dominators d (run g d)).getD v none = some e ∧ ImmediateDominance g.Edge 0 e v) ∧
    ∀ v, d.numberOf v ≤ 1 → (dominators d (run g d)).getD v none = none := by
  have hs : Sweep g d 1 1 (run g d) :=
    sweep_foldl hg h [0] _ Nat.one_pos (order_eq_cons h.toPreorder)
  have hstart : Corrected g d (run g d) 1 (run g d).idom :=
    ⟨hs.idom_size, fun hv hle => by omega, fun _ => rfl⟩
  have hend := correct_foldl hg h [0] _ Nat.one_pos (order_eq_cons h.toPreorder) hstart
  exact ⟨hend.size, fun v hv => hend.done hv (h.number_le v),
    fun v hv => (hend.rest (.inl hv)).trans (hs.idom_none hv)⟩

end

end Semidominators

namespace DominatorTree

variable {g : FlowGraph} {v a : Nat}

section

variable (hg : g.WellFormed)
include hg

theorem ofGraph_reachable_iff : (ofGraph g).reachable v = true ↔ Reached g.Edge 0 v := by
  rw [← (run_complete hg).pos_iff]
  exact reached_iff_pos

theorem one_lt_number (hv : Reached g.Edge 0 v) (hv0 : v ≠ 0) :
    1 < (DepthFirst.run g 0).numberOf v := by
  have h := run_complete hg
  have hpos := h.pos_iff.mpr hv
  by_contra hle
  exact hv0 (h.number_inj hpos (by rw [h.entry]; omega))

theorem reached_of_dominance (hb : Reached g.Edge 0 b)
    (hab : Dominance g.Edge 0 a b) : Reached g.Edge 0 a := by
  have h := run_complete hg
  have hpos := h.pos_iff.mpr hb
  exact h.pos_iff.mp (h.ancestor_pos (dominance_ancestor h hpos hab) hpos)

theorem eq_of_dominance (hb : Reached g.Edge 0 b) (hab : Dominance g.Edge 0 a b)
    (hba : Dominance g.Edge 0 b a) : a = b := by
  have h := run_complete hg
  have ha := reached_of_dominance hg hb hab
  exact dominance_antisymm h (h.pos_iff.mpr ha) (h.pos_iff.mpr hb) hab hba

theorem immediateDominance_unique {e : Nat} (hv : Reached g.Edge 0 v)
    (ha : ImmediateDominance g.Edge 0 a v) (he : ImmediateDominance g.Edge 0 e v) : a = e :=
  eq_of_dominance hg (reached_of_dominance hg hv he.dominates) (he.closest a ha.ne ha.dominates)
    (ha.closest e he.ne he.dominates)

/-- The parent of a node in the tree is its immediate dominator; the entry and the nodes that are
not reachable have none. -/
theorem ofGraph_idomOf_iff {e : Nat} : (ofGraph g).idomOf v = some e ↔
      Reached g.Edge 0 v ∧ v ≠ 0 ∧ ImmediateDominance g.Edge 0 e v := by
  have h := run_complete hg
  obtain ⟨_, hdone, hnone⟩ := Semidominators.dominators_spec hg h
  constructor
  · intro hv
    rcases Nat.lt_or_ge 1 ((DepthFirst.run g 0).numberOf v) with hlt | hge
    · obtain ⟨e', he', himm⟩ := hdone v hlt
      cases hv.symm.trans he'
      exact ⟨h.pos_iff.mp (by omega), h.ne_zero hlt, himm⟩
    · exact absurd (hv.symm.trans (hnone v hge)) (Option.some_ne_none e)
  · rintro ⟨hv, hv0, himm⟩
    obtain ⟨e', he', himm'⟩ := hdone v (one_lt_number hg hv hv0)
    rwa [immediateDominance_unique hg hv himm himm']

theorem ofGraph_idomOf_exists (hv : Reached g.Edge 0 v)
    (hv0 : v ≠ 0) : ∃ e, (ofGraph g).idomOf v = some e := by
  obtain ⟨_, hdone, _⟩ := Semidominators.dominators_spec hg (run_complete hg)
  obtain ⟨e, he, _⟩ := hdone v (one_lt_number hg hv hv0)
  exact ⟨e, he⟩

theorem number_lt_of_idomOf (h : (ofGraph g).idomOf v = some a) :
    (DepthFirst.run g 0).numberOf a < (DepthFirst.run g 0).numberOf v := by
  have hc := run_complete hg
  obtain ⟨hreach, _, himm⟩ := (ofGraph_idomOf_iff hg).mp h
  have hpos := hc.pos_iff.mpr hreach
  exact hc.ancestor_lt (dominance_ancestor hc hpos himm.dominates) himm.ne hpos

/-- A reached node that another one dominates has a parent, which the other one dominates too. -/
theorem exists_parent (hv : Reached g.Edge 0 v) (hne : a ≠ v) (hdom : Dominance g.Edge 0 a v) :
    ∃ p, (ofGraph g).idomOf v = some p ∧ ImmediateDominance g.Edge 0 p v ∧ Reached g.Edge 0 p ∧
      Dominance g.Edge 0 a p := by
  have hv0 : v ≠ 0 := by
    rintro rfl
    exact hne (by simpa using hdom [0] (.refl 0))
  obtain ⟨p, hp⟩ := ofGraph_idomOf_exists hg hv hv0
  have himm := ((ofGraph_idomOf_iff hg).mp hp).2.2
  exact ⟨p, hp, himm, reached_of_dominance hg hv himm.dominates, himm.closest a hne hdom⟩

end

theorem dominance_of_above (hg : g.WellFormed) (n : Nat) (h : (ofGraph g).above a n v = true) :
    Reached g.Edge 0 v ∧ a ≠ v ∧ Dominance g.Edge 0 a v := by
  induction n generalizing v with
  | zero => simp [above] at h
  | succ n ih =>
    cases hv : (ofGraph g).idomOf v with
    | none => simp [above, hv] at h
    | some p =>
      obtain ⟨hreach, hv0, himm⟩ := (ofGraph_idomOf_iff hg).mp hv
      simp only [above, hv, Bool.or_eq_true, decide_eq_true_eq] at h
      rcases h with rfl | habove
      · exact ⟨hreach, himm.ne, himm.dominates⟩
      · obtain ⟨hp, hap, hdom⟩ := ih habove
        refine ⟨hreach, ?_, hdom.trans himm.dominates⟩
        -- Else `v` and its parent would dominate each other.
        rintro rfl
        exact himm.ne (eq_of_dominance hg hreach himm.dominates hdom)

theorem above_of_dominance (hg : g.WellFormed) (n : Nat)
    (hn : (DepthFirst.run g 0).numberOf v ≤ n) (hv : Reached g.Edge 0 v) (hne : a ≠ v)
    (hdom : Dominance g.Edge 0 a v) : (ofGraph g).above a n v = true := by
  have h := run_complete hg
  induction n generalizing v with
  | zero =>
    have := h.pos_iff.mpr hv
    omega
  | succ n ih =>
    obtain ⟨p, hp, _, hreach, hap⟩ := exists_parent hg hv hne hdom
    have hlt := number_lt_of_idomOf hg hp
    simp only [above, hp, Bool.or_eq_true, decide_eq_true_eq]
    by_cases hpa : p = a
    · exact .inl hpa
    · exact .inr (ih (by omega) hreach (Ne.symm hpa) hap)

/-- The tree answers whether a node dominates another: one that is not reachable is dominated by
itself only. -/
theorem ofGraph_dominates_iff (hg : g.WellFormed) : (ofGraph g).dominates a b = true ↔
      a = b ∨ Reached g.Edge 0 b ∧ Dominance g.Edge 0 a b := by
  have h := run_complete hg
  obtain ⟨hsize, _, _⟩ := Semidominators.dominators_spec hg h
  simp only [dominates, Bool.or_eq_true, decide_eq_true_eq]
  constructor
  · rintro (rfl | habove)
    · exact .inl rfl
    · obtain ⟨hb, _, hdom⟩ := dominance_of_above hg _ habove
      exact .inr ⟨hb, hdom⟩
  · rintro (rfl | ⟨hb, hdom⟩)
    · exact .inl rfl
    · by_cases hab : a = b
      · exact .inl hab
      · refine .inr (above_of_dominance hg _ ?_ hb hab hdom)
        have hnum := (h.number_le b).trans h.order_size_le
        rwa [← hsize] at hnum

end DominatorTree

end SsaIr
