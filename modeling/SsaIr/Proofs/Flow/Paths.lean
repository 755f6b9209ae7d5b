import SsaIr.Flow.Graph
import SsaIr.Proofs.Arrays

/-!
# Paths and dominance

The relational side of the flow analyses. `FlowPath edge u w p` says that the nodes `p` lead from
`u` to `w` along edges; `Dominance edge entry a b` says that `a` lies on every path from the entry
to `b`. Read `dominance_iff_not_avoiding` first: the other modules show dominance by following the
edges that avoid a node.
-/

namespace SsaIr

/-- `FlowPath edge u w p` says that `p` lists the nodes of a path from `u` to `w`, both included. -/
inductive FlowPath {α : Type} (edge : α → α → Prop) : α → α → List α → Prop where
  | refl (v : α) : FlowPath edge v v [v]
  | step {u v w : α} {p : List α} : edge u v → FlowPath edge v w p → FlowPath edge u w (u :: p)

def Reached {α : Type} (edge : α → α → Prop) (entry b : α) : Prop :=
  ∃ p, FlowPath edge entry b p

/-- The node `a` lies on every path from the entry to `b`. -/
def Dominance {α : Type} (edge : α → α → Prop) (entry a b : α) : Prop :=
  ∀ p, FlowPath edge entry b p → a ∈ p

/-- The node `d` is the closest of the nodes other than `b` that dominate `b`. -/
structure ImmediateDominance {α : Type} (edge : α → α → Prop) (entry d b : α) : Prop where
  ne : d ≠ b
  dominates : Dominance edge entry d b
  closest : ∀ a, a ≠ b → Dominance edge entry a b → Dominance edge entry a d

section Relations

variable {α : Type} {edge : α → α → Prop} {entry : α}

def Avoiding (edge : α → α → Prop) (a : α) (u v : α) : Prop := edge u v ∧ v ≠ a

theorem FlowPath.target_mem {u w : α} {p : List α} (h : FlowPath edge u w p) : w ∈ p := by
  induction h with
  | refl v => simp
  | step _ _ ih => exact .tail _ ih

theorem FlowPath.snoc {u v w : α} {p : List α} (h : FlowPath edge u v p) (he : edge v w) :
    FlowPath edge u w (p ++ [w]) := by
  induction h with
  | refl v => exact .step he (.refl w)
  | step hstep _ ih => exact .step hstep (ih he)

theorem FlowPath.reflTransGen {u w : α} {p : List α} (h : FlowPath edge u w p) :
    Relation.ReflTransGen edge u w := by
  induction h with
  | refl v => exact .refl
  | step he _ ih => exact .head he ih

theorem flowPath_of_reflTransGen {u w : α} (h : Relation.ReflTransGen edge u w) :
    ∃ p, FlowPath edge u w p ∧ ∀ x ∈ p, x = u ∨ ∃ y, edge y x := by
  induction h with
  | refl => exact ⟨[u], .refl u, by simp⟩
  | @tail v w _ he ih =>
    obtain ⟨p, hp, hall⟩ := ih
    refine ⟨p ++ [w], hp.snoc he, ?_⟩
    intro x hx
    rcases List.mem_append.mp hx with hx | hx
    · exact hall x hx
    · exact .inr ⟨v, by rw [List.mem_singleton.mp hx]; exact he⟩

theorem reached_iff {b : α} : Reached edge entry b ↔ Relation.ReflTransGen edge entry b := by
  constructor
  · rintro ⟨p, hp⟩
    exact hp.reflTransGen
  · intro h
    obtain ⟨p, hp, _⟩ := flowPath_of_reflTransGen h
    exact ⟨p, hp⟩

theorem FlowPath.mono {edge' : α → α → Prop} (hle : ∀ u v, edge u v → edge' u v) {u w : α}
    {p : List α} (h : FlowPath edge u w p) : FlowPath edge' u w p := by
  induction h with
  | refl v => exact .refl v
  | step he _ ih => exact .step (hle _ _ he) ih

theorem FlowPath.avoiding {a u w : α} {p : List α} (h : FlowPath edge u w p) (ha : a ∉ p) :
    u ≠ a ∧ Relation.ReflTransGen (Avoiding edge a) u w := by
  induction h with
  | refl v => exact ⟨fun h => ha (by simp [h]), .refl⟩
  | step he _ ih =>
    obtain ⟨hne, hrest⟩ := ih fun h => ha (.tail _ h)
    exact ⟨fun h => ha (by simp [h]), .head ⟨he, hne⟩ hrest⟩

theorem dominance_iff_not_avoiding {a b : α} : Dominance edge entry a b ↔
      ¬ (entry ≠ a ∧ Relation.ReflTransGen (Avoiding edge a) entry b) := by
  constructor
  · rintro hdom ⟨hne, hpath⟩
    obtain ⟨p, hp, hall⟩ := flowPath_of_reflTransGen hpath
    rcases hall a (hdom p (hp.mono fun _ _ h => h.1)) with rfl | ⟨y, hy⟩
    · exact hne rfl
    · exact hy.2 rfl
  · intro hnone p hp
    by_contra ha
    exact hnone (hp.avoiding ha)

theorem dominance_refl (a : α) : Dominance edge entry a a := fun _ hp => hp.target_mem

theorem Dominance.trans {a b d : α} (hab : Dominance edge entry a b)
    (hbd : Dominance edge entry b d) : Dominance edge entry a d := by
  rw [dominance_iff_not_avoiding] at hab ⊢
  rintro ⟨hne, hpath⟩
  obtain ⟨p, hp, hall⟩ := flowPath_of_reflTransGen hpath
  -- The path to `d` passes through `b`, and its part up to `b` already avoids `a`.
  have hb : b ∈ p := hbd p (hp.mono fun _ _ h => h.1)
  have hpart : ∀ {u w : α} {p : List α}, FlowPath (Avoiding edge a) u w p → b ∈ p →
      Relation.ReflTransGen (Avoiding edge a) u b := by
    intro u w p hp hmem
    induction hp with
    | refl v => rw [List.mem_singleton.mp hmem]
    | step he _ ih =>
      rcases List.mem_cons.mp hmem with rfl | hmem
      · exact .refl
      · exact .head he (ih hmem)
  exact hab ⟨hne, hpart hp hb⟩

end Relations

namespace FlowGraph

def Edge (g : FlowGraph) (v w : Nat) : Prop := w ∈ g.succsOf v

/-- A graph with a node whose targets are nodes and whose predecessor lists mirror its successor
lists. -/
structure WellFormed (g : FlowGraph) : Prop where
  pos : 0 < g.size
  target_lt : ∀ {v w : Nat}, g.Edge v w → w < g.size
  mem_preds : ∀ {v w : Nat}, v ∈ g.predsOf w ↔ g.Edge v w

theorem Edge.source_lt {g : FlowGraph} {v w : Nat} (h : g.Edge v w) : v < g.size := by
  by_contra hv
  rw [Edge, succsOf, Array.getD_of_not_lt _ hv] at h
  exact List.not_mem_nil h

/-- A node is put in front of the lists of its targets. -/
theorem getD_enter (i w : Nat) {targets : List Nat} (hnodup : targets.Nodup)
    (lists : Array (List Nat))
    (ht : ∀ j ∈ targets, j < lists.size) :
    (targets.foldl (fun p j => p.modify j (i :: ·)) lists).size = lists.size ∧
      (targets.foldl (fun p j => p.modify j (i :: ·)) lists).getD w [] =
        if w ∈ targets then i :: lists.getD w [] else lists.getD w [] := by
  induction targets generalizing lists with
  | nil => exact ⟨rfl, rfl⟩
  | cons j rest ih =>
    obtain ⟨hj, hrest⟩ := List.nodup_cons.mp hnodup
    obtain ⟨hsize, hget⟩ := ih hrest (lists.modify j (i :: ·)) fun k hk =>
      by simpa using ht k (.tail _ hk)
    rw [List.foldl_cons, hsize, hget, Array.size_modify, Array.getD_modify]
    grind

section Transpose

variable {succs : Array (List Nat)} (ht : ∀ v, ∀ w ∈ succs.getD v [], w < succs.size)
  (hnodup : ∀ v, (succs.getD v []).Nodup)
include ht hnodup

theorem predsOf_ofSuccs (w : Nat) :
    (ofSuccs succs).predsOf w = (List.range succs.size).filter fun v => w ∈ succs.getD v [] := by
  have hfold : ∀ sources : List Nat, ∀ lists, lists = sources.foldr
      (fun i preds => (succs.getD i []).foldl (fun p j => p.modify j (i :: ·)) preds)
      (Array.replicate succs.size []) →
      lists.size = succs.size ∧ lists.getD w [] = sources.filter fun v => w ∈ succs.getD v [] := by
    intro sources
    induction sources with
    | nil =>
      rintro _ rfl
      exact ⟨Array.size_replicate, Array.getD_replicate_self ..⟩
    | cons i rest ih =>
      rintro _ rfl
      obtain ⟨hsize, hget⟩ := ih _ rfl
      obtain ⟨hsize', hget'⟩ := getD_enter i w (hnodup i) _ (by rw [hsize]; exact ht i)
      refine ⟨hsize'.trans hsize, hget'.trans ?_⟩
      rw [hget, List.filter_cons]
      simp
  exact (hfold _ _ rfl).2

theorem ofSuccs_wellFormed (hpos : 0 < succs.size) : (ofSuccs succs).WellFormed where
  pos := hpos
  target_lt h := ht _ _ h
  mem_preds {v w} := by
    rw [predsOf_ofSuccs ht hnodup, List.mem_filter, List.mem_range, decide_eq_true_eq]
    exact and_iff_right_of_imp (Edge.source_lt (g := ofSuccs succs))

end Transpose

end FlowGraph

end SsaIr
