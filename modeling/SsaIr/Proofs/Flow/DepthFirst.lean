import SsaIr.Flow.DepthFirst
import SsaIr.Proofs.Flow.Paths

/-!
# The depth-first numbering

The walk numbers exactly the nodes that the entry reaches. `Preorder g d` collects what holds of the
numbers and the tree of first visits at every moment of the walk, and `Complete g d` adds what holds
once its stack is empty; `run_complete` shows that the walk gets there. The property that later
modules rely on most is `Complete.edge_ancestor`: an edge to a greater number goes to a descendant.
-/

namespace SsaIr.DepthFirst

open DepthFirst

variable {d : DepthFirst} {g : FlowGraph} {rest : List (Nat × List Nat)} {s : Walk} {u : Nat}

def Ancestor (d : DepthFirst) : Nat → Nat → Prop :=
  Relation.ReflTransGen fun a b => d.parentOf b = some a

/-- What holds of the numbers and parents given so far. -/
structure Preorder (g : FlowGraph) (d : DepthFirst) : Prop where
  number_size : d.number.size = g.size
  parent_size : d.parent.size = g.size
  order_iff : ∀ {k v : Nat}, d.order[k]? = some v ↔ d.numberOf v = k + 1
  entry : d.numberOf 0 = 1
  parent_entry : d.parentOf 0 = none
  parent_some : ∀ {v w : Nat}, d.parentOf w = some v →
    0 < d.numberOf v ∧ g.Edge v w ∧ d.numberOf v < d.numberOf w
  parent_exists : ∀ {w : Nat}, 0 < d.numberOf w → w ≠ 0 → ∃ v, d.parentOf w = some v
  interval : ∀ {u x y : Nat}, d.Ancestor u x → 0 < d.numberOf y →
    d.numberOf u ≤ d.numberOf y → d.numberOf y ≤ d.numberOf x → d.Ancestor u y

theorem reached_iff_pos {v : Nat} : d.reached v = true ↔ 0 < d.numberOf v := by
  simp only [reached, bne_iff_ne]
  omega

namespace Preorder

variable {v : Nat}

theorem getElem?_order (h : Preorder g d) (hv : 0 < d.numberOf v) :
    d.order[d.numberOf v - 1]? = some v :=
  h.order_iff.mpr (by omega)

theorem number_inj (h : Preorder g d) {w : Nat} (hv : 0 < d.numberOf v)
    (heq : d.numberOf v = d.numberOf w) : v = w := by
  have hvk := h.getElem?_order hv
  rw [heq, h.getElem?_order (heq ▸ hv)] at hvk
  exact (Option.some.inj hvk).symm

theorem number_le (h : Preorder g d) (v : Nat) : d.numberOf v ≤ d.order.size := by
  by_contra hlt
  have hnone := h.getElem?_order (v := v) (by omega)
  rw [Array.getElem?_eq_none (by omega)] at hnone
  exact Option.some_ne_none v hnone.symm

section

variable (h : Preorder g d)
include h

theorem lt_size (hv : 0 < d.numberOf v) : v < g.size := by
  by_contra hge
  rw [numberOf, Array.getD_of_not_lt _ (by rw [h.number_size]; omega)] at hv
  exact lt_irrefl 0 hv

theorem order_size_le : d.order.size ≤ g.size := by
  have hinj : Set.InjOn (fun k => d.order.getD k 0) (Finset.range d.order.size) := by
    intro i hi j hj hij
    simp only [Finset.coe_range, Set.mem_Iio] at hi hj
    have hi' := h.order_iff.mp (Array.getElem?_eq_getElem hi)
    have hj' := h.order_iff.mp (Array.getElem?_eq_getElem hj)
    simp only [Array.getD_of_lt _ hi, Array.getD_of_lt _ hj] at hij
    rw [hij] at hi'
    omega
  have hmaps : Set.MapsTo (fun k => d.order.getD k 0) (Finset.range d.order.size)
      (Finset.range g.size) := by
    intro k hk
    simp only [Finset.coe_range, Set.mem_Iio] at hk ⊢
    rw [Array.getD_of_lt _ hk]
    exact h.lt_size (by rw [h.order_iff.mp (Array.getElem?_eq_getElem hk)]; omega)
  simpa using Finset.card_le_card_of_injOn _ hmaps hinj

theorem ancestor_le (ha : d.Ancestor u v) : d.numberOf u ≤ d.numberOf v := by
  induction ha with
  | refl => exact le_rfl
  | tail _ hp ih => exact ih.trans (h.parent_some hp).2.2.le

theorem ancestor_lt (ha : d.Ancestor u v) (hne : u ≠ v)
    (hv : 0 < d.numberOf v) : d.numberOf u < d.numberOf v := by
  rcases Nat.lt_or_eq_of_le (h.ancestor_le ha) with hlt | heq
  · exact hlt
  · exact absurd (h.number_inj (heq ▸ hv) heq) hne

theorem ancestor_pos (ha : d.Ancestor u v) (hv : 0 < d.numberOf v) : 0 < d.numberOf u := by
  induction ha with
  | refl => exact hv
  | tail _ hp ih => exact ih (h.parent_some hp).1

end

theorem ancestor_cases (ha : d.Ancestor u v) (hne : u ≠ v) :
    ∃ p, d.parentOf v = some p ∧ d.Ancestor u p := by
  rcases Relation.ReflTransGen.cases_tail ha with rfl | ⟨p, hup, hp⟩
  · exact absurd rfl hne
  · exact ⟨p, hp, hup⟩

theorem ancestor_chain (h : Preorder g d) {x w : Nat} (hu : d.Ancestor u w)
    (hx : d.Ancestor x w) (hw : 0 < d.numberOf w) (hle : d.numberOf u ≤ d.numberOf x) :
    d.Ancestor u x :=
  h.interval hu (h.ancestor_pos hx hw) hle (h.ancestor_le hx)

theorem entry_ancestor (h : Preorder g d) (hv : 0 < d.numberOf v) : d.Ancestor 0 v := by
  induction hn : d.numberOf v using Nat.strong_induction_on generalizing v with
  | _ n ih =>
    by_cases hz : v = 0
    · subst hz
      exact .refl
    · obtain ⟨p, hp⟩ := h.parent_exists hv hz
      obtain ⟨hpos, _, hlt⟩ := h.parent_some hp
      exact (ih _ (hn ▸ hlt) hpos rfl).tail hp

theorem ancestor_edges (h : Preorder g d) (ha : d.Ancestor u v) : Relation.ReflTransGen
      (fun a b => g.Edge a b ∧ d.numberOf u < d.numberOf b ∧ d.numberOf b ≤ d.numberOf v) u v := by
  induction ha with
  | refl => exact .refl
  | @tail p w hup hp ih =>
    obtain ⟨_, hedge, hlt⟩ := h.parent_some hp
    refine .tail (Relation.ReflTransGen.mono ?_ _ _ ih) ⟨hedge, ?_, le_rfl⟩
    · exact fun a b hab => ⟨hab.1, hab.2.1, hab.2.2.trans hlt.le⟩
    · exact (h.ancestor_le hup).trans_lt hlt

theorem reachable (h : Preorder g d) (hv : 0 < d.numberOf v) : Relation.ReflTransGen g.Edge 0 v :=
  Relation.ReflTransGen.mono (fun _ _ hab => hab.1) _ _ (h.ancestor_edges (h.entry_ancestor hv))

end Preorder

/-! ## Giving a node the next number -/

section Visit

variable {p w : Nat} (h : Preorder g d) (hw : w < g.size)
include h hw

theorem numberOf_visit (parent : Option Nat) (v : Nat) :
    (d.visit w parent).numberOf v = if w = v then d.order.size + 1 else d.numberOf v := by
  simp only [visit, numberOf, Array.getD_setIfInBounds, h.number_size, hw, and_true]

theorem parentOf_visit (parent : Option Nat) (v : Nat) :
    (d.visit w parent).parentOf v = if w = v then parent else d.parentOf v := by
  simp only [visit, parentOf, Array.getD_setIfInBounds, h.parent_size, hw, and_true]

variable (hn : d.numberOf w = 0) (hp : 0 < d.numberOf p)
include hn

theorem numberOf_visit_of_pos {parent : Option Nat} {v : Nat} (hv : 0 < d.numberOf v) :
    (d.visit w parent).numberOf v = d.numberOf v := by
  rw [numberOf_visit h hw, if_neg]
  rintro rfl
  omega

include hp

/-- What is above a node after a visit: for the visited node, itself and what is above its
parent. -/
theorem ancestor_visit_iff {v : Nat} :
    (d.visit w (some p)).Ancestor u v ↔ d.Ancestor u v ∨ v = w ∧ d.Ancestor u p := by
  have hpar := parentOf_visit h hw (some p)
  have hmono : ∀ {x}, d.Ancestor u x → (d.visit w (some p)).Ancestor u x := by
    intro x hx
    refine Relation.ReflTransGen.mono (fun a b hab => ?_) _ _ hx
    have hb := (h.parent_some hab).2.2
    rw [hpar, if_neg (by rintro rfl; omega), hab]
  constructor
  · intro ha
    induction ha with
    | refl => exact .inl .refl
    | @tail a b _ hab ih =>
      rw [hpar] at hab
      split at hab
      · -- The last edge leads to the visited node, so its source is the parent `p`.
        cases hab
        exact .inr ⟨.symm ‹w = b›, ih.resolve_right (by rintro ⟨rfl, _⟩; omega)⟩
      · have hpos := (h.parent_some hab).1
        exact .inl ((ih.resolve_right (by rintro ⟨rfl, _⟩; omega)).tail hab)
  · rintro (ha | ⟨rfl, ha⟩)
    · exact hmono ha
    · exact (hmono ha).tail (by rw [hpar, if_pos rfl])

/-- Visiting a node that has no number, from one that has, keeps the properties of the numbering.
The node `p` must be one below which everything with a greater number lies. -/
theorem Preorder.visit (he : g.Edge p w)
    (hcover : ∀ y, d.numberOf p ≤ d.numberOf y → d.Ancestor p y) :
    Preorder g (d.visit w (some p)) := by
  have hnum := numberOf_visit h hw (some p)
  have hpar := parentOf_visit h hw (some p)
  have hold : ∀ {v}, 0 < d.numberOf v → (d.visit w (some p)).numberOf v = d.numberOf v :=
    numberOf_visit_of_pos h hw hn
  have hw0 : w ≠ 0 := by
    rintro rfl
    rw [h.entry] at hn
    exact Nat.one_ne_zero hn
  refine ⟨?_, ?_, ?_, ?_, ?_, ?_, ?_, ?_⟩
  · simp only [DepthFirst.visit, Array.size_setIfInBounds, h.number_size]
  · simp only [DepthFirst.visit, Array.size_setIfInBounds, h.parent_size]
  · intro k v
    rw [hnum]
    simp only [DepthFirst.visit, Array.getElem?_push]
    have hle := h.number_le v
    by_cases hk : k = d.order.size
    · rw [if_pos hk, Option.some.injEq]
      constructor
      · intro hv
        rw [if_pos hv, hk]
      · intro hv
        by_contra hne
        rw [if_neg hne] at hv
        omega
    · rw [if_neg hk, h.order_iff]
      split
      · rename_i hv
        subst hv
        omega
      · rfl
  · rw [hnum, if_neg hw0, h.entry]
  · rw [hpar, if_neg hw0, h.parent_entry]
  · intro v x hx
    rw [hpar] at hx
    split at hx
    · rename_i hxw
      cases hx
      have := h.number_le p
      rw [hold hp, hnum, if_pos hxw]
      exact ⟨hp, hxw ▸ he, by omega⟩
    · have hv := h.parent_some hx
      rwa [hold hv.1, hold (by omega)]
  · intro x hx hx0
    rw [hpar]
    split
    · exact ⟨p, rfl⟩
    · rename_i hxw
      rw [hnum, if_neg hxw] at hx
      exact h.parent_exists hx hx0
  · intro u x y hux hy huy hyx
    rw [ancestor_visit_iff h hw hn hp] at hux ⊢
    by_cases hyw : w = y
    · -- Only the visited node itself has a number that great.
      rw [hnum y, if_pos hyw, hnum] at hyx
      have := h.number_le x
      obtain rfl : w = x := by
        by_contra hne
        rw [if_neg hne] at hyx
        omega
      exact hyw ▸ hux
    · rw [hnum, if_neg hyw] at hy
      rw [hold hy] at huy hyx
      have huw : w ≠ u := by
        rintro rfl
        have := h.number_le y
        rw [hnum, if_pos rfl] at huy
        omega
      rw [hnum, if_neg huw] at huy
      refine .inl ?_
      rcases hux with hux | ⟨rfl, hup⟩
      · have hxw : w ≠ x := by
          rintro rfl
          obtain ⟨q, hq, _⟩ := ancestor_cases hux huw.symm
          have := h.parent_some hq
          omega
        rw [hnum, if_neg hxw] at hyx
        exact h.interval hux hy huy hyx
      · rcases Nat.le_total (d.numberOf y) (d.numberOf p) with hyp | hyp
        · exact h.interval hup hy huy hyp
        · exact hup.trans (hcover y hyp)

end Visit

/-! ## The walk -/

/-- What holds between two steps of the walk: besides the properties of the numbering, the nodes on
the stack have descending numbers and everything numbered after one of them lies below it, and the
targets of a reached node were looked at unless they still stand on the stack. -/
structure Walk.Invariant (g : FlowGraph) (s : Walk) : Prop where
  preorder : Preorder g s.found
  stacked : ∀ {v : Nat} {ws : List Nat}, (v, ws) ∈ s.stack →
    0 < s.found.numberOf v ∧ ∀ w ∈ ws, g.Edge v w
  descending : (s.stack.map Prod.fst).Pairwise fun a b => s.found.numberOf b < s.found.numberOf a
  covered : ∀ {v : Nat} {ws : List Nat}, (v, ws) ∈ s.stack →
    ∀ y, s.found.numberOf v ≤ s.found.numberOf y → s.found.Ancestor v y
  looked : ∀ {v w : Nat}, 0 < s.found.numberOf v → g.Edge v w →
    (∃ ws, (v, ws) ∈ s.stack ∧ w ∈ ws) ∨
      0 < s.found.numberOf w ∧
        (s.found.numberOf v < s.found.numberOf w → s.found.Ancestor v w)

theorem Walk.Invariant.skip {v w : Nat} {ws : List Nat}
    (h : Walk.Invariant g { found := d, stack := (v, w :: ws) :: rest })
    (hw : 0 < d.numberOf w) : Walk.Invariant g { found := d, stack := (v, ws) :: rest } := by
  refine ⟨h.preorder, ?_, ?_, ?_, ?_⟩
  · intro x xs hx
    rcases List.mem_cons.mp hx with hx | hx
    · cases hx
      have htop := h.stacked (.head ..)
      exact ⟨htop.1, fun y hy => htop.2 y (.tail _ hy)⟩
    · exact h.stacked (.tail _ hx)
  · exact h.descending
  · intro x xs hx
    rcases List.mem_cons.mp hx with hx | hx
    · cases hx
      exact h.covered (.head ..)
    · exact h.covered (.tail _ hx)
  · intro x y hx hxy
    rcases h.looked hx hxy with ⟨xs, hmem, hy⟩ | hdone
    · rcases List.mem_cons.mp hmem with hmem | hmem
      · cases hmem
        rcases List.mem_cons.mp hy with rfl | hy
        · -- The target looked at has a greater number only if it lies below the node.
          exact .inr ⟨hw, fun hlt => h.covered (.head ..) _ hlt.le⟩
        · exact .inl ⟨ws, .head .., hy⟩
      · exact .inl ⟨xs, .tail _ hmem, hy⟩
    · exact .inr hdone

theorem Walk.Invariant.leave {v : Nat}
    (h : Walk.Invariant g { found := d, stack := (v, []) :: rest }) :
    Walk.Invariant g { found := d, stack := rest } := by
  refine ⟨h.preorder, ?_, ?_, ?_, ?_⟩
  · exact fun hx => h.stacked (.tail _ hx)
  · exact (List.pairwise_cons.mp h.descending).2
  · exact fun hx => h.covered (.tail _ hx)
  · intro x y hx hxy
    rcases h.looked hx hxy with ⟨xs, hmem, hy⟩ | hdone
    · rcases List.mem_cons.mp hmem with hmem | hmem
      · cases hmem
        exact absurd hy List.not_mem_nil
      · exact .inl ⟨xs, hmem, hy⟩
    · exact .inr hdone

theorem Walk.Invariant.enter (hg : g.WellFormed) {v w : Nat} {ws : List Nat}
    (h : Walk.Invariant g { found := d, stack := (v, w :: ws) :: rest }) (hw : d.numberOf w = 0) :
    Walk.Invariant g
      { found := d.visit w (some v), stack := (w, g.succsOf w) :: (v, ws) :: rest } := by
  obtain ⟨hpre, hstacked, hdesc, hcovered, hlooked⟩ := h
  dsimp only at hpre hstacked hdesc hcovered hlooked
  obtain ⟨hv, hedges⟩ := hstacked (.head ..)
  have hedge : g.Edge v w := hedges w (.head ..)
  have hlt : w < g.size := hg.target_lt hedge
  have hnum := numberOf_visit hpre hlt (some v)
  have hold : ∀ {x}, 0 < d.numberOf x → (d.visit w (some v)).numberOf x = d.numberOf x :=
    numberOf_visit_of_pos hpre hlt hw
  have hanc : ∀ {x y}, (d.visit w (some v)).Ancestor x y ↔ d.Ancestor x y ∨ y = w ∧
    d.Ancestor x v :=
    ancestor_visit_iff hpre hlt hw hv
  have hnew : (d.visit w (some v)).numberOf w = d.order.size + 1 := by rw [hnum, if_pos rfl]
  -- The nodes that stand on the stack are above the one whose target is visited.
  have hup : ∀ {x xs}, (x, xs) ∈ (v, w :: ws) :: rest → d.Ancestor x v := by
    intro x xs hx
    refine hcovered hx v ?_
    rcases List.mem_cons.mp hx with hx | hx
    · cases hx
      exact le_rfl
    · exact ((List.pairwise_cons.mp hdesc).1 x (List.mem_map_of_mem (f := Prod.fst) hx)).le
  have hframe : ∀ {x xs}, (x, xs) ∈ (v, ws) :: rest →
      ∃ ys, (x, ys) ∈ (v, w :: ws) :: rest ∧ xs ⊆ ys := by
    intro x xs hx
    rcases List.mem_cons.mp hx with hx | hx
    · cases hx
      exact ⟨_, .head _, List.subset_cons_self ..⟩
    · exact ⟨xs, .tail _ hx, List.Subset.refl _⟩
  refine ⟨hpre.visit hlt hw hv hedge (hcovered (.head ..)), ?_, ?_, ?_, ?_⟩
  · intro x xs hx
    rcases List.mem_cons.mp hx with hx | hx
    · cases hx
      exact ⟨by rw [hnew]; omega, fun y hy => hy⟩
    · obtain ⟨ys, hys, hsub⟩ := hframe hx
      have hst := hstacked hys
      exact ⟨by rw [hold hst.1]; exact hst.1, fun y hy => hst.2 y (hsub hy)⟩
  · have hpos : ∀ x ∈ ((v, w :: ws) :: rest).map Prod.fst, 0 < d.numberOf x := by
      intro x hx
      obtain ⟨q, hq, rfl⟩ := List.mem_map.mp hx
      exact (hstacked hq).1
    refine List.pairwise_cons.mpr ⟨fun x hx => ?_, hdesc.imp_of_mem fun {a b} ha hb hab => ?_⟩
    · have := hpre.number_le x
      rw [hnew, hold (hpos x hx)]
      omega
    · rwa [hold (hpos a ha), hold (hpos b hb)]
  · intro x xs hx y hy
    rw [hanc]
    rcases List.mem_cons.mp hx with hx | hx
    · cases hx
      -- Nothing else has as great a number as the new node.
      have hyw : w = y := by
        by_contra hne
        have := hpre.number_le y
        rw [hnew, hnum, if_neg hne] at hy
        omega
      subst hyw
      exact .inl .refl
    · obtain ⟨ys, hys, _⟩ := hframe hx
      by_cases hyw : w = y
      · exact .inr ⟨hyw.symm, hup hys⟩
      · rw [hold (hstacked hys).1, hnum, if_neg hyw] at hy
        exact .inl (hcovered hys y hy)
  · intro x y hx hxy
    by_cases hxw : w = x
    · subst hxw
      exact .inl ⟨g.succsOf w, .head .., hxy⟩
    · rw [hnum, if_neg hxw] at hx
      rcases hlooked hx hxy with ⟨xs, hmem, hy⟩ | ⟨hy, hbelow⟩
      · by_cases hyw : w = y
        · subst hyw
          rw [hanc]
          exact .inr ⟨by rw [hnew]; omega, fun _ => .inr ⟨rfl, hup hmem⟩⟩
        · rcases List.mem_cons.mp hmem with hmem | hmem
          · cases hmem
            exact .inl ⟨ws, .tail _ (.head ..), (List.mem_cons.mp hy).resolve_left (Ne.symm hyw)⟩
          · exact .inl ⟨xs, .tail _ (.tail _ hmem), hy⟩
      · rw [hold hx, hold hy, hanc]
        exact .inr ⟨hy, fun h => .inl (hbelow h)⟩

section Step

variable {v w : Nat} {ws : List Nat}

theorem step_of_reached (hw : d.reached w = true) :
    step g { found := d, stack := (v, w :: ws) :: rest } =
      { found := d, stack := (v, ws) :: rest } :=
  if_pos hw

theorem step_of_not_reached (hw : ¬d.reached w = true) :
    step g { found := d, stack := (v, w :: ws) :: rest } =
      { found := d.visit w (some v), stack := (w, g.succsOf w) :: (v, ws) :: rest } :=
  if_neg hw

end Step

theorem Walk.Invariant.step (hg : g.WellFormed) (h : s.Invariant g) : (step g s).Invariant g := by
  obtain ⟨d, stack⟩ := s
  match stack, h with
  | [], h => exact h
  | (_, []) :: _, h => exact h.leave
  | (v, w :: ws) :: rest, h =>
    by_cases hw : d.reached w = true
    · rw [step_of_reached hw]
      exact h.skip (reached_iff_pos.mp hw)
    · rw [step_of_not_reached hw]
      exact h.enter hg (by rw [reached_iff_pos] at hw; omega)

theorem Walk.invariant_start (hg : g.WellFormed) :
    Walk.Invariant g { found := (unvisited g.size).visit 0 none, stack := [(0, g.succsOf 0)] } := by
  have hnum : ∀ v, ((unvisited g.size).visit 0 none).numberOf v = if v = 0 then 1 else 0 := by
    intro v
    simp only [visit, unvisited, numberOf, Array.getD_setIfInBounds,
      Array.size_replicate, hg.pos, and_true, Array.getD_replicate_self, eq_comm (a := 0)]
    rfl
  have hzero : ∀ {v}, 0 < ((unvisited g.size).visit 0 none).numberOf v → v = 0 := by
    intro v hv
    by_contra hne
    rw [hnum, if_neg hne] at hv
    omega
  have hpar : ∀ v, ((unvisited g.size).visit 0 none).parentOf v = none := by
    intro v
    simp only [visit, unvisited, parentOf, Array.getD_setIfInBounds,
      Array.getD_replicate_self, ite_self]
  have hself : ∀ {u v}, ((unvisited g.size).visit 0 none).Ancestor u v → u = v := by
    intro u v ha
    rcases Relation.ReflTransGen.cases_tail ha with rfl | ⟨p, _, hp⟩
    · rfl
    · rw [hpar] at hp
      exact absurd hp (Option.some_ne_none p).symm
  refine ⟨⟨?_, ?_, ?_, ?_, ?_, ?_, ?_, ?_⟩, ?_, ?_, ?_, ?_⟩
  · simp [visit, unvisited]
  · simp [visit, unvisited]
  · intro k v
    rw [hnum]
    simp only [visit, unvisited, List.push_toArray, List.nil_append]
    cases k with
    | zero => by_cases hv : v = 0 <;> simp [hv, eq_comm]
    | succ k => by_cases hv : v = 0 <;> simp [hv]
  · rw [hnum, if_pos rfl]
  · exact hpar 0
  · intro v w hp
    rw [hpar] at hp
    exact absurd hp (Option.some_ne_none v).symm
  · exact fun hw hw0 => absurd (hzero hw) hw0
  · intro u x y hux hy huy hyx
    obtain rfl := hself hux
    rw [hzero hy, hzero (hy.trans_le hyx)]
    exact .refl
  · intro v ws hv
    obtain ⟨rfl, rfl⟩ := Prod.mk.inj (List.mem_singleton.mp hv)
    exact ⟨by rw [hnum, if_pos rfl]; omega, fun w hw => hw⟩
  · simp
  · intro v ws hv y hy
    obtain ⟨rfl, rfl⟩ := Prod.mk.inj (List.mem_singleton.mp hv)
    rw [hnum] at hy
    rw [hzero hy]
    exact .refl
  · intro v w hv hvw
    obtain rfl := hzero hv
    exact .inl ⟨_, List.mem_singleton.mpr rfl, hvw⟩

/-! ## Termination -/

/-- The number of steps that the walk still takes: it looks at every target on the stack and leaves
every node there, and it does the same for every node not reached yet. -/
def Walk.work (g : FlowGraph) (s : Walk) : Nat :=
  (s.stack.map fun p => p.2.length + 1).sum +
    ∑ v ∈ Finset.range g.size, if s.found.numberOf v = 0 then (g.succsOf v).length + 1 else 0

theorem Walk.Invariant.work_step (hg : g.WellFormed) (h : s.Invariant g)
    (hne : s.stack ≠ []) : (DepthFirst.step g s).work g + 1 = s.work g := by
  obtain ⟨d, stack⟩ := s
  match stack, h with
  | [], _ => exact absurd rfl hne
  | (v, []) :: rest, _ =>
    have heq : DepthFirst.step g { found := d, stack := (v, []) :: rest } =
        { found := d, stack := rest } := rfl
    rw [heq]
    simp only [work, List.map_cons, List.sum_cons, List.length_nil]
    omega
  | (v, w :: ws) :: rest, h =>
    by_cases hw : d.reached w = true
    · rw [step_of_reached hw]
      simp only [work, List.map_cons, List.sum_cons, List.length_cons]
      omega
    · have hn : d.numberOf w = 0 := by
        rw [reached_iff_pos] at hw
        omega
      have hedge := (h.stacked (.head ..)).2 w (.head ..)
      have hlt : w < g.size := hg.target_lt hedge
      have hmem : w ∈ Finset.range g.size := Finset.mem_range.mpr hlt
      have hnum := numberOf_visit h.preorder hlt (some v)
      -- The two sums differ in the term of `w` only.
      have hsum : ∑ x ∈ (Finset.range g.size).erase w,
            (if (d.visit w (some v)).numberOf x = 0 then (g.succsOf x).length + 1 else 0) =
          ∑ x ∈ (Finset.range g.size).erase w,
            (if d.numberOf x = 0 then (g.succsOf x).length + 1 else 0) := by
        refine Finset.sum_congr rfl fun x hx => ?_
        rw [hnum, if_neg (Finset.ne_of_mem_erase hx).symm]
      rw [step_of_not_reached hw]
      simp only [work, List.map_cons, List.sum_cons, List.length_cons]
      rw [← Finset.add_sum_erase _ _ hmem, ← Finset.add_sum_erase _ _ hmem, hnum, if_pos rfl,
        if_pos hn,
        if_neg (Nat.succ_ne_zero _)]
      omega

theorem edgeCount_eq_sum (g : FlowGraph) : g.edgeCount = ∑ v ∈ Finset.range g.size,
    (g.succsOf v).length := by
  have hfold : ∀ (lists : List (List Nat)) (n : Nat),
      (lists.map List.length).foldl (· + ·) n =
        n + ∑ v ∈ Finset.range lists.length, (lists.getD v []).length := by
    intro lists
    induction lists with
    | nil => simp
    | cons l rest ih =>
      intro n
      rw [List.map_cons, List.foldl_cons, ih, List.length_cons, Finset.sum_range_succ']
      simp only [List.getD_cons_succ, List.getD_cons_zero]
      omega
  rw [FlowGraph.edgeCount, hfold, Nat.zero_add]
  refine Finset.sum_congr rfl fun v _ => ?_
  rw [FlowGraph.succsOf, Array.getD_eq_getD_getElem?, List.getD_eq_getElem?_getD,
    Array.getElem?_toList]

theorem walk_finishes (hg : g.WellFormed) {n : Nat} (h : s.Invariant g) (hwork : s.work g ≤ n) :
    (walk g n s).Invariant g ∧ (walk g n s).stack = [] := by
  induction n generalizing s with
  | zero =>
    refine ⟨h, ?_⟩
    by_contra hne
    have := h.work_step hg hne
    omega
  | succ n ih =>
    rw [walk]
    split
    · rename_i hempty
      exact ⟨h, List.isEmpty_iff.mp hempty⟩
    · rename_i hempty
      have hne : s.stack ≠ [] := fun heq => hempty (List.isEmpty_iff.mpr heq)
      have := h.work_step hg hne
      exact ih (h.step hg) (by omega)

/-! ## The result -/

/-- A numbering of all nodes that the entry reaches, in depth-first order. -/
structure Complete (g : FlowGraph) (d : DepthFirst) : Prop extends Preorder g d where
  closed : ∀ {v w : Nat}, 0 < d.numberOf v → g.Edge v w → 0 < d.numberOf w
  edge_ancestor : ∀ {v w : Nat}, 0 < d.numberOf v → g.Edge v w →
    d.numberOf v < d.numberOf w → d.Ancestor v w

theorem run_complete (hg : g.WellFormed) : Complete g (run g 0) := by
  have hstart := Walk.invariant_start hg
  have hwork :
      Walk.work g { found := (unvisited g.size).visit 0 none, stack := [(0, g.succsOf 0)] } ≤
        g.size + g.edgeCount + 1 := by
    -- The entry stands on the stack; every other node counts as not reached.
    have hle : ∑ v ∈ Finset.range g.size,
          (if ((unvisited g.size).visit 0 none).numberOf v = 0
            then (g.succsOf v).length + 1 else 0) + ((g.succsOf 0).length + 1) ≤
        ∑ v ∈ Finset.range g.size, ((g.succsOf v).length + 1) := by
      have hmem : 0 ∈ Finset.range g.size := Finset.mem_range.mpr hg.pos
      rw [← Finset.add_sum_erase _ _ hmem,
        ← Finset.add_sum_erase _ (fun v => (g.succsOf v).length + 1) hmem,
        if_neg (by rw [hstart.preorder.entry]; omega), Nat.zero_add, Nat.add_comm]
      refine Nat.add_le_add_left (Finset.sum_le_sum fun v _ => ?_) _
      split <;> omega
    rw [Finset.sum_add_distrib, ← edgeCount_eq_sum, Finset.sum_const, Finset.card_range,
      smul_eq_mul] at hle
    simp only [Walk.work, List.map_cons, List.map_nil, List.sum_cons, List.sum_nil]
    omega
  obtain ⟨hinv, hempty⟩ := walk_finishes hg hstart hwork
  refine { toPreorder := hinv.preorder, closed := ?_, edge_ancestor := ?_ }
  all_goals
    intro v w hv hvw
    have hdone := (hinv.looked hv hvw).resolve_left fun ⟨ws, hmem, _⟩ => by
      rw [hempty] at hmem
      exact List.not_mem_nil hmem
  · exact hdone.1
  · exact hdone.2

namespace Complete

theorem pos_iff (h : Complete g d) {v : Nat} : 0 < d.numberOf v ↔ Reached g.Edge 0 v := by
  rw [reached_iff]
  constructor
  · exact h.reachable
  · intro hpath
    induction hpath with
    | refl => rw [h.entry]; omega
    | tail _ he ih => exact h.closed ih he

theorem ancestor_of_path (h : Complete g d) {x : Nat} (hu : 0 < d.numberOf u)
    (hpath : Relation.ReflTransGen
      (fun y z => g.Edge y z ∧ d.numberOf u ≤ d.numberOf z) u x) : d.Ancestor u x := by
  induction hpath with
  | refl => exact .refl
  | @tail y z _ hyz ih =>
    have hy : 0 < d.numberOf y := hu.trans_le (h.ancestor_le ih)
    rcases Nat.lt_or_ge (d.numberOf y) (d.numberOf z) with hlt | hge
    · exact ih.trans (h.edge_ancestor hy hyz.1 hlt)
    · exact h.interval ih (h.closed hy hyz.1) hyz.2 hge

end Complete

/-- The numbering is a depth-first preorder: the nodes that the entry reaches have the numbers from
1 on, each of them once; a parent leads to its child and was numbered before it; and an edge to a
greater number leads down the tree of parents. -/
theorem run_depth_first (hg : g.WellFormed) :
    (∀ v, (run g 0).reached v = true ↔ Reached g.Edge 0 v) ∧
      Set.BijOn (run g 0).numberOf {v | Reached g.Edge 0 v} (Set.Icc 1 (run g 0).order.size) ∧
      (run g 0).parentOf 0 = none ∧
      (∀ v, Reached g.Edge 0 v → v ≠ 0 → ∃ p, (run g 0).parentOf v = some p ∧
        Reached g.Edge 0 p ∧ g.Edge p v ∧ (run g 0).numberOf p < (run g 0).numberOf v) ∧
      ∀ v w, Reached g.Edge 0 v → g.Edge v w → (run g 0).numberOf v < (run g 0).numberOf w →
        (run g 0).Ancestor v w := by
  have h := run_complete hg
  simp only [← h.pos_iff]
  refine ⟨fun v => reached_iff_pos, ⟨?_, ?_, ?_⟩, h.parent_entry, ?_, fun v w => h.edge_ancestor⟩
  · exact fun v hv => ⟨hv, h.number_le v⟩
  · exact fun v hv w _ heq => h.number_inj hv heq
  · rintro k ⟨hpos, hle⟩
    have hk := h.order_iff.mp
      (Array.getElem?_eq_getElem (show k - 1 < (run g 0).order.size by omega))
    exact ⟨_, (Nat.succ_pos _).trans_eq hk.symm, hk.trans (by omega)⟩
  · intro v hv hv0
    obtain ⟨p, hp⟩ := h.parent_exists hv hv0
    exact ⟨p, hp, h.parent_some hp⟩

/-- A loop that is entered at two of its nodes, and a node that nothing reaches. -/
def twoEntries : FlowGraph := .ofSuccs #[[1, 3], [2], [3], [1], [0]]

theorem run_depth_first_twoEntries : twoEntries.WellFormed ∧
    Set.BijOn (run twoEntries 0).numberOf {v | Reached twoEntries.Edge 0 v} (Set.Icc 1 4) ∧
    (run twoEntries 0).parentOf 3 = some 2 ∧ (run twoEntries 0).Ancestor 0 3 := by
  have hg : twoEntries.WellFormed := FlowGraph.ofSuccs_wellFormed
    (by rintro (_ | _ | _ | _ | _ | v) <;> simp) (by rintro (_ | _ | _ | _ | _ | v) <;> simp)
      (by decide)
  obtain ⟨_, hbij, _, _, hedge⟩ := run_depth_first hg
  exact ⟨hg, hbij, by decide, hedge 0 3 ⟨[0], .refl 0⟩ (.tail _ (.head _)) (by decide)⟩

end SsaIr.DepthFirst
