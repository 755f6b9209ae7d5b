import SsaIr.Flow.Frontier
import SsaIr.Proofs.Container.Bitset
import SsaIr.Proofs.Flow.Tree

/-!
# Dominance frontiers are exact

A node is in the frontier of another when an edge leads to it from a node that the other dominates,
and the other does not strictly dominate it. Read `Frontiers.ofTree_contains_iff` first, then
`Frontiers.iterated_contains_iff`: iterated frontiers are what chains of frontiers reach.
-/

namespace SsaIr

open Bitset List

variable {out : Bitset} {x y : Nat}

def InFrontier (g : FlowGraph) (x y : Nat) : Prop :=
  ∃ u, Reached g.Edge 0 u ∧ g.Edge u y ∧ Dominance g.Edge 0 x u ∧
    ¬ (x ≠ y ∧ Dominance g.Edge 0 x y)

namespace Frontiers

open DominatorTree DepthFirst

variable {g : FlowGraph} {t : DominatorTree} {f : Frontiers}

theorem addEscaping_spec (t : DominatorTree) (x : Nat) (set : Bitset) (nodes : List Nat)
    (hroom : ∀ y ∈ nodes, y / 64 < set.words.size) :
    (addEscaping t x set nodes).words.size = set.words.size ∧
      ∀ y, (addEscaping t x set nodes).contains y = true ↔
        set.contains y = true ∨ y ∈ nodes ∧ t.idomOf y ≠ some x := by
  induction nodes generalizing set with
  | nil =>
    refine ⟨rfl, fun y => ?_⟩
    simp [addEscaping]
  | cons z nodes ih =>
    have hz := hroom z (.head _)
    have hrest : ∀ y ∈ nodes, y / 64 < set.words.size :=
      fun y hy => hroom y (.tail _ hy)
    rw [addEscaping, foldl_cons]
    by_cases hidom : t.idomOf z = some x
    · obtain ⟨hsize, hmem⟩ := ih set hrest
      rw [if_pos hidom]
      refine ⟨hsize, fun y => (hmem y).trans ?_⟩
      rw [mem_cons, or_and_right, or_iff_right (a := y = z ∧ _)]
      rintro ⟨rfl, hne⟩
      exact hne hidom
    · obtain ⟨hsize, hmem⟩ := ih (set.insert z) (by rwa [words_insert])
      rw [if_neg hidom]
      refine ⟨hsize.trans (words_insert set z), fun y => (hmem y).trans ?_⟩
      rw [contains_insert set hz, Bool.or_eq_true, beq_iff_eq, mem_cons, or_and_right, or_assoc,
        eq_comm (a := z), and_iff_left_of_imp (a := y = z)]
      rintro rfl
      exact hidom

/-- The sets are as many as the nodes, have room for all of them, and hold nothing else. -/
structure Fits (g : FlowGraph) (f : Frontiers) : Prop where
  size : f.sets.size = g.size
  words : ∀ {v}, v < g.size → (f.of v).words.size = (g.size + 63) / 64
  members : ∀ {v y}, (f.of v).contains y = true → y < g.size

theorem Fits.room (h : Fits g f) {v : Nat} (hv : v < g.size) (hy : y < g.size) :
    y / 64 < (f.of v).words.size := by
  rw [h.words hv]
  omega

theorem addChildren_spec (h : Fits g f) (children : List Nat) (set : Bitset)
    (hset : set.words.size = (g.size + 63) / 64) :
    let all := children.foldl (fun s c => addEscaping t x s (f.of c).toList) set
    all.words.size = (g.size + 63) / 64 ∧ ∀ y, all.contains y = true ↔ set.contains y = true ∨
      ∃ c ∈ children, (f.of c).contains y = true ∧ t.idomOf y ≠ some x := by
  induction children generalizing set with
  | nil =>
    refine ⟨hset, fun y => ?_⟩
    simp
  | cons c children ih =>
    obtain ⟨hsize, hmem⟩ := addEscaping_spec t x set (f.of c).toList fun y hy => by
      have hlt := h.members ((mem_toList _ _).mp hy)
      omega
    obtain ⟨hsize', hmem'⟩ := ih _ (hsize.trans hset)
    refine ⟨hsize', fun y => (hmem' y).trans ?_⟩
    rw [hmem, mem_toList]
    simp only [mem_cons, exists_eq_or_imp, or_assoc]

theorem node_spec (hg : g.WellFormed) (h : Fits g f) (hx : x < g.size) :
    Fits g (node g t f x) ∧ (∀ v, v ≠ x → (node g t f x).of v = f.of v) ∧
      ∀ y, ((node g t f x).of x).contains y = true ↔ (f.of x).contains y = true ∨
        (g.Edge x y ∨ ∃ c ∈ t.childrenOf x, (f.of c).contains y = true) ∧
          t.idomOf y ≠ some x := by
  have hsuccs : ∀ y ∈ g.succsOf x, y / 64 < (f.of x).words.size :=
    fun y hy => h.room hx (hg.target_lt hy)
  obtain ⟨hown, hmem⟩ := addEscaping_spec t x (f.of x) (g.succsOf x) hsuccs
  obtain ⟨hall, hmem'⟩ := addChildren_spec (t := t) (x := x) h (t.childrenOf x)
    (addEscaping t x (f.of x) (g.succsOf x)) (hown.trans (h.words hx))
  have hof : ∀ v, (node g t f x).of v = if x = v then
      (t.childrenOf x).foldl (fun s c => addEscaping t x s (f.of c).toList)
        (addEscaping t x (f.of x) (g.succsOf x)) else f.of v := by
    intro v
    rw [of, node, Array.getD_setIfInBounds, h.size]
    simp only [hx, and_true]
    rfl
  have hcontains : ∀ y, ((node g t f x).of x).contains y = true ↔ (f.of x).contains y = true ∨
      (g.Edge x y ∨ ∃ c ∈ t.childrenOf x, (f.of c).contains y = true) ∧ t.idomOf y ≠ some x := by
    intro y
    rw [hof, if_pos rfl, hmem', hmem, or_assoc]
    simp only [or_and_right, ← and_assoc, exists_and_right]
    rfl
  refine ⟨⟨?_, fun {v} hv => ?_, fun {v y} hy => ?_⟩, fun v hv => ?_, hcontains⟩
  · exact Array.size_setIfInBounds.trans h.size
  · rw [hof]
    split
    · exact hall
    · exact h.words hv
  · by_cases hvx : v = x
    · subst hvx
      rcases (hcontains y).mp hy with hy | ⟨hy | ⟨c, _, hy⟩, _⟩
      · exact h.members hy
      · exact hg.target_lt hy
      · exact h.members hy
    · rw [hof, if_neg (Ne.symm hvx)] at hy
      exact h.members hy
  · rw [hof, if_neg (Ne.symm hv)]

/-! ## One step up the tree -/

theorem dominance_of_edge {d u : Nat} (hne : d ≠ y) (hdom : Dominance g.Edge 0 d y)
    (he : g.Edge u y) : Dominance g.Edge 0 d u := by
  intro p hp
  rcases mem_append.mp (hdom _ (hp.snoc he)) with hd | hd
  · exact hd
  · exact absurd (mem_singleton.mp hd) hne

/-- The frontier of a node holds what escapes from its targets and from the frontiers of its
children. -/
theorem inFrontier_iff (hg : g.WellFormed) (hx : Reached g.Edge 0 x) : InFrontier g x y ↔
      (g.Edge x y ∨ ∃ c ∈ (ofGraph g).childrenOf x, InFrontier g c y) ∧
        (ofGraph g).idomOf y ≠ some x := by
  have hstrict : ∀ {v w : Nat}, (ofGraph g).idomOf w = some v → v ≠ w ∧ Dominance g.Edge 0 v w :=
    fun h => ⟨((ofGraph_idomOf_iff hg).mp h).2.2.ne, ((ofGraph_idomOf_iff hg).mp h).2.2.dominates⟩
  constructor
  · rintro ⟨u, hu, he, hdom, hnot⟩
    refine ⟨?_, fun hidom => hnot (hstrict hidom)⟩
    rcases (below_iff hg).mp ((below_iff_dominance hg hu).mpr hdom) with rfl | ⟨c, hc, hcu⟩
    · exact .inl he
    · refine .inr ⟨c, hc, u, hu, he, (below_iff_dominance hg hu).mp hcu, fun hcy => hnot ?_⟩
      -- What a child strictly dominates, its parent does as well.
      obtain ⟨hne, hxc⟩ := hstrict ((mem_childrenOf_iff hg).mp hc)
      have hxy := hxc.trans hcy.2
      refine ⟨?_, hxy⟩
      rintro rfl
      exact hne (eq_of_dominance hg hx hcy.2 hxc).symm
  · rintro ⟨hfrom, hidom⟩
    have hreach : ∀ {u}, Reached g.Edge 0 u → g.Edge u y → Reached g.Edge 0 y :=
      fun ⟨p, hp⟩ he => ⟨_, hp.snoc he⟩
    rcases hfrom with he | ⟨c, hc, u, hu, he, hcu, hnot⟩
    · refine ⟨x, hx, he, fun p hp => hp.target_mem, fun ⟨hne, hxy⟩ => hidom ?_⟩
      obtain ⟨d, hd, himm, _, hxd⟩ := exists_parent hg (hreach hx he) hne hxy
      rw [hd, eq_of_dominance hg hx (dominance_of_edge himm.ne himm.dominates he) hxd]
    · obtain ⟨hne, hxc⟩ := hstrict ((mem_childrenOf_iff hg).mp hc)
      refine ⟨u, hu, he, hxc.trans hcu, fun ⟨hxy, hdom⟩ => ?_⟩
      have hy := hreach hu he
      obtain ⟨d, hd, himm, hdreach, hxd⟩ := exists_parent hg hy hxy hdom
      have hdu := dominance_of_edge himm.ne himm.dominates he
      -- The parent of `y` lies between `x` and `c`, and is neither.
      rcases below_total ((below_iff_dominance hg hu).mpr hdu)
        ((below_iff_dominance hg hu).mpr hcu) with hdc | hcd
      · have hcreach := reached_of_dominance hg hu hcu
        by_cases hdeq : d = c
        · subst hdeq
          exact hnot ⟨himm.ne, himm.dominates⟩
        · have hdx :=
            ((ofGraph_idomOf_iff hg).mp ((mem_childrenOf_iff hg).mp hc)).2.2.closest d hdeq
            ((below_iff_dominance hg hcreach).mp hdc)
          rw [eq_of_dominance hg hx hdx hxd] at hd
          exact hidom hd
      · have hcd' := (below_iff_dominance hg hdreach).mp hcd
        refine hnot ⟨?_, hcd'.trans himm.dominates⟩
        rintro rfl
        exact himm.ne (eq_of_dominance hg hy himm.dominates hcd')

/-! ## The frontiers of all nodes -/

/-- Computing frontiers along a walk of the tree, backwards. -/
def sweep (g : FlowGraph) (l : List Nat) (f : Frontiers) : Frontiers :=
  l.foldr (fun x f => node g (ofGraph g) f x) f

/-- A sweep gives all nodes met their frontiers. -/
theorem sweep_spec (hg : g.WellFormed) {vs l : List Nat} (hl : Listing (ofGraph g) vs l)
    (hnodup : l.Nodup) (hreach : ∀ v ∈ l, Reached g.Edge 0 v) (h : Fits g f)
    (hempty : ∀ v ∈ l, ∀ y, (f.of v).contains y = false) :
    Fits g (sweep g l f) ∧ (∀ v, v ∉ l → (sweep g l f).of v = f.of v) ∧
      ∀ v ∈ l, ∀ y, ((sweep g l f).of v).contains y = true ↔ InFrontier g v y := by
  induction hl generalizing f with
  | nil => exact ⟨h, fun _ _ => rfl, fun v hv => absurd hv not_mem_nil⟩
  | @cons v rest below beside hbelow hbeside ihbelow ihbeside =>
    obtain ⟨hv, htail⟩ := nodup_cons.mp hnodup
    obtain ⟨hnbelow, hnbeside, hdisjoint⟩ := nodup_append'.mp htail
    rw [mem_append, not_or] at hv
    have hmem : ∀ {w}, w ∈ below ∨ w ∈ beside → w ∈ v :: (below ++ beside) :=
      fun hw => .tail _ (mem_append.mpr hw)
    obtain ⟨hfits₁, hkeep₁, hexact₁⟩ := ihbeside hnbeside (fun w hw => hreach w (hmem (.inr hw)))
      h fun w hw => hempty w (hmem (.inr hw))
    obtain ⟨hfits₂, hkeep₂, hexact₂⟩ := ihbelow hnbelow (fun w hw => hreach w (hmem (.inl hw)))
      hfits₁ fun w hw y => by
        rw [hkeep₁ w fun hbeside => hdisjoint hw hbeside]
        exact hempty w (hmem (.inl hw)) y
    have hvreach := hreach v (.head _)
    have hvlt : v < g.size :=
      (run_complete hg).lt_size ((run_complete hg).pos_iff.mpr hvreach)
    obtain ⟨hfits₃, hkeep₃, hexact₃⟩ := node_spec (t := ofGraph g) hg hfits₂ hvlt
    have hsweep : sweep g (v :: (below ++ beside)) f =
        node g (ofGraph g) (sweep g below (sweep g beside f)) v := by
      rw [sweep, foldr_cons, foldr_append]
      rfl
    rw [hsweep]
    refine ⟨hfits₃, fun w hw => ?_, fun w hw y => ?_⟩
    · rw [mem_cons, mem_append, not_or, not_or] at hw
      rw [hkeep₃ w hw.1, hkeep₂ w hw.2.1, hkeep₁ w hw.2.2]
    · by_cases hwv : w = v
      · subst hwv
        have hnone : ((sweep g below (sweep g beside f)).of w).contains y = false := by
          rw [hkeep₂ w hv.1, hkeep₁ w hv.2]
          exact hempty w (.head _) y
        rw [hexact₃, hnone, inFrontier_iff hg hvreach]
        have hchildren : ∀ c ∈ (ofGraph g).childrenOf w,
            ((sweep g below (sweep g beside f)).of c).contains y = true ↔ InFrontier g c y :=
          fun c hc => hexact₂ c ((hbelow.mem_iff hg).mpr ⟨c, hc, .refl⟩) y
        simp only [Bool.false_eq_true, false_or]
        rw [and_congr_left_iff]
        intro _
        refine or_congr Iff.rfl (exists_congr fun c => and_congr_right fun hc => hchildren c hc)
      · rw [hkeep₃ w hwv]
        rcases mem_append.mp ((mem_cons.mp hw).resolve_left hwv) with hw | hw
        · exact hexact₂ w hw y
        · rw [hkeep₂ w fun hbelow => hdisjoint hbelow hw]
          exact hexact₁ w hw y

theorem fits_empty (g : FlowGraph) : Fits g { sets := Array.replicate g.size (.empty g.size) } ∧
      ∀ v y, (of { sets := Array.replicate g.size (.empty g.size) } v).contains y = false := by
  have hof : ∀ v, v < g.size →
      of { sets := Array.replicate g.size (.empty g.size) } v = .empty g.size := by
    intro v hv
    rw [of, Array.getD_of_lt _ (by rwa [Array.size_replicate]), Array.getElem_replicate]
  have hnone : ∀ v y,
      (of { sets := Array.replicate g.size (.empty g.size) } v).contains y = false := by
    intro v y
    by_cases hv : v < g.size
    · rw [hof v hv]
      exact contains_empty _ _
    · rw [of, Array.getD_of_not_lt _ (by rw [Array.size_replicate]; omega), contains_eq]
      show (0 : UInt64).toNat.testBit _ = false
      rw [UInt64.toNat_zero, Nat.zero_testBit]
  refine ⟨⟨Array.size_replicate, fun {v} hv => ?_, fun {v y} hy => ?_⟩, hnone⟩
  · rw [hof v hv]
    exact Array.size_replicate
  · rw [hnone] at hy
    cases hy

theorem ofTree_spec (hg : g.WellFormed) : Fits g (ofTree g (ofGraph g)) ∧
    ∀ v y, ((ofTree g (ofGraph g)).of v).contains y = true ↔
      Reached g.Edge 0 v ∧ InFrontier g v y := by
  obtain ⟨below, hpre, hbelow, hnodup, hmem⟩ := ofGraph_listing hg
  obtain ⟨hfits, hnone⟩ := fits_empty g
  have hwhole : Listing (ofGraph g) [0] (0 :: (below ++ [])) := .cons hbelow .nil
  rw [append_nil] at hwhole
  obtain ⟨hfits', hkeep, hexact⟩ := sweep_spec hg hwhole hnodup (fun v hv => (hmem v).mp hv) hfits
    fun v _ y => hnone v y
  have heq : ofTree g (ofGraph g) =
      sweep g (0 :: below) { sets := Array.replicate g.size (.empty g.size) } := by
    rw [ofTree, hpre, foldl_reverse, sweep]
  rw [heq]
  refine ⟨hfits', fun v y => ?_⟩
  by_cases hv : v ∈ 0 :: below
  · rw [hexact v hv]
    exact ⟨fun h => ⟨(hmem v).mp hv, h⟩, And.right⟩
  · rw [hkeep v hv, hnone]
    constructor
    · intro h
      cases h
    · intro h
      exact absurd ((hmem v).mpr h.1) hv

/-! ## Iterated frontiers -/

def unmarked (g : FlowGraph) (out : Bitset) : Nat :=
  (List.range g.size).countP fun y => !out.contains y

theorem unmarked_insert {d : Nat} (hd : d < g.size)
    (hroom : d / 64 < out.words.size) (hnew : out.contains d = false) :
    unmarked g (out.insert d) + 1 = unmarked g out := by
  have hperm := perm_cons_erase (mem_range.mpr hd)
  -- The two sets differ in the new member only.
  have hsame : (((List.range g.size).erase d).countP fun y => !(out.insert d).contains y) =
      ((List.range g.size).erase d).countP fun y => !out.contains y := by
    refine countP_congr fun y hy => ?_
    have hne : y ≠ d := (nodup_range.mem_erase_iff.mp hy).1
    rw [contains_insert out hroom, beq_eq_false_iff_ne.mpr hne.symm, Bool.or_false]
  rw [unmarked, unmarked, hperm.countP_eq, hperm.countP_eq, countP_cons, countP_cons, hsame,
    contains_insert out hroom, hnew, beq_self_eq_true]
  rfl

theorem mark_spec (ds : List Nat) (out : Bitset) (work : List Nat)
    (hroom : out.words.size = (g.size + 63) / 64) (hds : ∀ d ∈ ds, d < g.size) :
    let r := mark ds (out, work)
    r.1.words.size = (g.size + 63) / 64 ∧
      r.2.length + unmarked g r.1 = work.length + unmarked g out ∧
      (∀ y, r.1.contains y = true ↔ out.contains y = true ∨ y ∈ ds) ∧
      (∀ y, y ∈ r.2 ↔ y ∈ work ∨ y ∈ ds ∧ out.contains y = false) := by
  induction ds generalizing out work with
  | nil =>
    refine ⟨hroom, rfl, fun y => ?_, fun y => ?_⟩
    · simp [mark]
    · simp [mark]
  | cons d ds ih =>
    have hd := hds d (.head _)
    have hrest : ∀ d ∈ ds, d < g.size := fun y hy => hds y (.tail _ hy)
    have hword : d / 64 < out.words.size := by
      omega
    rw [mark]
    by_cases hold : out.contains d = true
    · rw [if_pos hold]
      obtain ⟨hsize, hcount, hcontains, hwork⟩ := ih out work hroom hrest
      refine ⟨hsize, hcount, fun y => (hcontains y).trans ?_, fun y => (hwork y).trans ?_⟩
      · rw [mem_cons, ← or_assoc, or_iff_left_of_imp (b := y = d)]
        rintro rfl
        exact hold
      · rw [mem_cons, or_and_right, or_iff_right (a := y = d ∧ _)]
        rintro ⟨rfl, hn⟩
        rw [hold] at hn
        cases hn
    · rw [if_neg hold]
      have hnew : out.contains d = false := by simpa using hold
      obtain ⟨hsize, hcount, hcontains, hwork⟩ := ih (out.insert d) (d :: work)
        ((words_insert out d).trans hroom) hrest
      have hless := unmarked_insert hd hword hnew
      refine ⟨hsize, ?_, fun y => (hcontains y).trans ?_, fun y => (hwork y).trans ?_⟩
      · rw [hcount, length_cons]
        omega
      · rw [contains_insert out hword, Bool.or_eq_true, beq_iff_eq, mem_cons, or_assoc,
          eq_comm (a := d)]
      · rw [contains_insert out hword, mem_cons, mem_cons, Bool.or_eq_false_iff,
          beq_eq_false_iff_ne]
        by_cases hyd : y = d
        · simp [hyd, hnew]
        · simp [hyd, Ne.symm hyd]

def Meets (f : Frontiers) (a b : Nat) : Prop := (f.of a).contains b = true

/-- The state of closing some nodes under frontiers: marked are only nodes that chains of frontiers
reach, and nodes whose frontier may not be marked yet are on the work list. -/
structure Closing (g : FlowGraph) (f : Frontiers) (nodes : List Nat) (out : Bitset)
    (work : List Nat) : Prop where
  room : out.words.size = (g.size + 63) / 64
  sound : ∀ {y}, out.contains y = true → ∃ b ∈ nodes, Relation.TransGen f.Meets b y
  listed : ∀ {b}, b ∈ work → b ∈ nodes ∨ out.contains b = true
  closed : ∀ {b}, b ∈ nodes ∨ out.contains b = true →
    b ∈ work ∨ ∀ y, f.Meets b y → out.contains y = true

theorem Closing.step (hf : Fits g f) {nodes work : List Nat} {b : Nat}
    (h : Closing g f nodes out (b :: work)) :
    Closing g f nodes (mark (f.of b).toList (out, work)).1
    (mark (f.of b).toList (out, work)).2 := by
  obtain ⟨hsize, _, hcontains, hwork⟩ := mark_spec (g := g) (f.of b).toList out work
    h.room fun d hd => hf.members ((mem_toList _ _).mp hd)
  have hmeets : ∀ y, y ∈ (f.of b).toList ↔ f.Meets b y := mem_toList (f.of b)
  refine ⟨hsize, fun {y} hy => ?_, fun {y} hy => ?_, fun {y} hy => ?_⟩
  · rcases (hcontains y).mp hy with hy | hy
    · exact h.sound hy
    · have hby := (hmeets y).mp hy
      rcases h.listed (.head _) with hb | hb
      · exact ⟨b, hb, .single hby⟩
      · obtain ⟨a, ha, hab⟩ := h.sound hb
        exact ⟨a, ha, hab.tail hby⟩
  · rcases (hwork y).mp hy with hy | ⟨hy, _⟩
    · exact (h.listed (.tail _ hy)).imp_right fun hy => (hcontains y).mpr (.inl hy)
    · exact .inr ((hcontains y).mpr (.inr hy))
  · have hmarked : (∀ z, f.Meets b z → (mark (f.of b).toList (out, work)).1.contains z = true) :=
      fun z hz => (hcontains z).mpr (.inr ((hmeets z).mpr hz))
    have hkeep : y ∈ nodes ∨ out.contains y = true →
        y ∈ (mark (f.of b).toList (out, work)).2 ∨
          ∀ z, f.Meets y z → (mark (f.of b).toList (out, work)).1.contains z = true := by
      intro hy
      rcases h.closed hy with hlist | hdone
      · rcases mem_cons.mp hlist with rfl | hlist
        · exact .inr hmarked
        · exact .inl ((hwork y).mpr (.inl hlist))
      · exact .inr fun z hz => (hcontains z).mpr (.inl (hdone z hz))
    rcases hy with hy | hy
    · exact hkeep (.inl hy)
    · by_cases hold : out.contains y = true
      · exact hkeep (.inr hold)
      · rcases (hcontains y).mp hy with hy | hy
        · exact absurd hy hold
        · exact .inl ((hwork y).mpr (.inr ⟨hy, by simpa using hold⟩))

theorem close_spec (hf : Fits g f) {nodes : List Nat} (n : Nat) {work : List Nat}
    (h : Closing g f nodes out work) (hn : work.length + unmarked g out < n) (y : Nat) :
    (f.close n out work).contains y = true ↔ ∃ b ∈ nodes, Relation.TransGen f.Meets b y := by
  induction n generalizing out work with
  | zero => omega
  | succ n ih =>
    cases work with
    | nil =>
      clear ih
      refine ⟨h.sound, ?_⟩
      rintro ⟨b, hb, hby⟩
      have hclosed : ∀ {a}, a ∈ nodes ∨ out.contains a = true →
          ∀ z, f.Meets a z → out.contains z = true :=
        fun ha => (h.closed ha).resolve_left not_mem_nil
      induction hby with
      | single hbz => exact hclosed (.inl hb) _ hbz
      | tail _ hstep ih => exact hclosed (.inr ih) _ hstep
    | cons b work =>
      obtain ⟨_, hcount, _, _⟩ := mark_spec (g := g) (f.of b).toList out work
        h.room fun d hd => hf.members ((mem_toList _ _).mp hd)
      rw [length_cons] at hn
      exact ih (h.step hf) (by omega)

theorem iterated_contains_iff (hf : Fits g f) (nodes : List Nat) (y : Nat) :
    (f.iterated nodes).contains y = true ↔ ∃ b ∈ nodes, Relation.TransGen f.Meets b y := by
  refine close_spec hf _ ⟨?_, fun {z} hz => ?_, fun {b} hb => ?_, fun {b} hb => ?_⟩ ?_ y
  · rw [hf.size]
    exact Array.size_replicate
  · rw [contains_empty] at hz
    cases hz
  · exact .inl (mem_reverse.mp hb)
  · rcases hb with hb | hb
    · exact .inl (mem_reverse.mpr hb)
    · rw [contains_empty] at hb
      cases hb
  · have hle : unmarked g (.empty f.sets.size) ≤ g.size := by
      exact countP_le_length.trans length_range.le
    rw [length_reverse, hf.size] at *
    omega

end Frontiers

end SsaIr
