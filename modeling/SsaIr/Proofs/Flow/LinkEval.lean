import SsaIr.Flow.LinkEval
import SsaIr.Proofs.Flow.DepthFirst

/-!
# The link-eval forest

While semidominators are computed, the nodes with numbers above some bound are linked to their
parents. `Represents g d rank lo f` says that `f` is that forest, however much its paths were
shortened: the ancestor of a linked node is some node further up its tree path, and its label is a
node of least rank on the part of the path passed over. Each operation keeps this
(`shorten_represents`, `link_represents`), and `eval_spec` says what is found.
-/

namespace SsaIr.LinkEval

open DepthFirst

variable {g : FlowGraph} {d : DepthFirst} {rank : Nat → Nat} {lo : Nat} {f : LinkEval}

/-- The nodes of the tree path from `v` up to, but without, `a`. -/
def Between (d : DepthFirst) (a v z : Nat) : Prop := d.Ancestor a z ∧ a ≠ z ∧ d.Ancestor z v

/-- The label `l` is a node of least rank between `v` and `a`. -/
def Best (d : DepthFirst) (rank : Nat → Nat) (a v l : Nat) : Prop :=
  Between d a v l ∧ ∀ z, Between d a v z → rank l ≤ rank z

/-- The forest in which the nodes with numbers above `lo` are linked to their parents. -/
structure Represents (g : FlowGraph) (d : DepthFirst) (rank : Nat → Nat) (lo : Nat)
    (f : LinkEval) : Prop where
  ancestor_size : f.ancestor.size = g.size
  label_size : f.label.size = g.size
  root : ∀ {v : Nat}, d.numberOf v ≤ lo → f.ancestorOf v = none ∧ f.labelOf v = v
  linked : ∀ {v : Nat}, lo < d.numberOf v → ∃ a, f.ancestorOf v = some a ∧
    d.Ancestor a v ∧ a ≠ v ∧ (∀ z, Between d a v z → lo < d.numberOf z) ∧
    Best d rank a v (f.labelOf v)

theorem Represents.ancestorOf_eq_none_iff (hf : Represents g d rank lo f) {v : Nat} :
    f.ancestorOf v = none ↔ d.numberOf v ≤ lo := by
  refine ⟨fun hv => ?_, fun hv => (hf.root hv).1⟩
  by_contra hlt
  obtain ⟨a, ha, _⟩ := hf.linked (not_le.mp hlt)
  exact Option.some_ne_none a (ha.symm.trans hv)

theorem Represents.lt_number (hf : Represents g d rank lo f) {v a : Nat}
    (hv : f.ancestorOf v = some a) : lo < d.numberOf v := by
  rw [← not_le, ← hf.ancestorOf_eq_none_iff, hv]
  exact Option.some_ne_none a

theorem between_join (h : Preorder g d) {a b v z : Nat} (hab : d.Ancestor a b) (hne : a ≠ b)
    (hbv : d.Ancestor b v) (hv : 0 < d.numberOf v) :
    Between d a v z ↔ Between d b v z ∨ Between d a b z := by
  constructor
  · rintro ⟨haz, hne', hzv⟩
    rcases Nat.lt_or_ge (d.numberOf b) (d.numberOf z) with hlt | hge
    · refine .inl ⟨h.ancestor_chain hbv hzv hv hlt.le, ?_, hzv⟩
      rintro rfl
      exact lt_irrefl _ hlt
    · exact .inr ⟨haz, hne', h.ancestor_chain hzv hbv hv hge⟩
  · rintro (⟨hbz, hne', hzv⟩ | ⟨haz, hne', hzb⟩)
    · refine ⟨hab.trans hbz, ?_, hzv⟩
      rintro rfl
      have hbpos := h.ancestor_pos hbv hv
      have := h.ancestor_lt hab hne hbpos
      have := h.ancestor_le hbz
      omega
    · exact ⟨haz, hne', hzb.trans hbv⟩

theorem between_parent (h : Preorder g d) {p w z : Nat} (hp : d.parentOf w = some p)
    (hz : Between d p w z) : z = w := by
  obtain ⟨hpz, hne, hzw⟩ := hz
  by_contra hzw'
  obtain ⟨q, hq, hzq⟩ := Preorder.ancestor_cases hzw hzw'
  cases hp.symm.trans hq
  have hppos := (h.parent_some hp).1
  exact hne (h.number_inj hppos
    (Nat.le_antisymm (h.ancestor_le hpz) (h.ancestor_le hzq)))

theorem Represents.congr (hf : Represents g d rank lo f) {rank' : Nat → Nat}
    (hrank : ∀ v, lo < d.numberOf v → rank' v = rank v) : Represents g d rank' lo f := by
  refine ⟨hf.ancestor_size, hf.label_size, hf.root, fun hv => ?_⟩
  obtain ⟨a, ha, hav, hne, hlinked, hbest⟩ := hf.linked hv
  refine ⟨a, ha, hav, hne, hlinked, hbest.1, fun z hz => ?_⟩
  rw [hrank _ (hlinked _ hbest.1), hrank z (hlinked z hz)]
  exact hbest.2 z hz

theorem new_represents (hlo : ∀ v, d.numberOf v ≤ lo) : Represents g d rank lo (.new g.size) := by
  refine ⟨by simp [new], by simp [new], fun {v} _ => ⟨?_, ?_⟩, fun {v} hv => ?_⟩
  · rw [ancestorOf, new, Array.getD_replicate_self]
  · rw [labelOf, new, Array.getD_eq_getD_getElem?, Array.getElem?_range]
    split <;> rfl
  · exact absurd (hlo v) (Nat.not_le_of_lt hv)

theorem link_represents (h : Preorder g d) {p w : Nat}
    (hf : Represents g d rank (lo + 1) f) (hw : d.numberOf w = lo + 1)
    (hp : d.parentOf w = some p) : Represents g d rank lo (f.link p w) := by
  have hwpos : 0 < d.numberOf w := by omega
  have hwlt : w < f.ancestor.size := by
    rw [hf.ancestor_size]
    exact h.lt_size hwpos
  have hanc : ∀ v, (f.link p w).ancestorOf v = if w = v then some p else f.ancestorOf v := by
    intro v
    simp only [link, ancestorOf, Array.getD_setIfInBounds, hwlt, and_true]
  have hpw := h.parent_some hp
  refine ⟨by simp [link, hf.ancestor_size], hf.label_size, ?_, ?_⟩
  · intro v hv
    have hne : w ≠ v := by
      rintro rfl
      omega
    rw [hanc, if_neg hne]
    exact hf.root (by omega)
  · intro v hv
    rw [hanc]
    by_cases hvw : w = v
    · subst hvw
      rw [if_pos rfl]
      have hpne : p ≠ w := by
        rintro rfl
        omega
      have hself : Between d p w w := ⟨.single hp, hpne, .refl⟩
      refine ⟨p, rfl, .single hp, hpne, fun z hz => ?_, ?_⟩
      · rwa [between_parent h hp hz]
      · have hlabel : (f.link p w).labelOf w = w := (hf.root (by omega)).2
        rw [hlabel]
        exact ⟨hself, fun z hz => by rw [between_parent h hp hz]⟩
    · rw [if_neg hvw]
      have hgt : lo + 1 < d.numberOf v := by
        by_contra hle
        exact hvw (h.number_inj hwpos (by omega))
      obtain ⟨a, ha, hav, hne, hlinked, hbest⟩ := hf.linked hgt
      exact ⟨a, ha, hav, hne, fun z hz => by have := hlinked z hz; omega, hbest⟩

variable (h : Preorder g d) (hf : Represents g d rank lo f)
include h hf

theorem shorten_represents {u a : Nat}
    (hu : lo < d.numberOf u) (hua : f.ancestorOf u = some a) (ha : lo < d.numberOf a) :
    Represents g d rank lo (shorten rank u f) ∧
      (∀ v, (shorten rank u f).ancestorOf v =
        if u = v then f.ancestorOf a else f.ancestorOf v) := by
  have hupos : 0 < d.numberOf u := by omega
  have hult : u < g.size := h.lt_size hupos
  obtain ⟨a', ha', hau, hane, hlinked, hbest⟩ := hf.linked hu
  cases hua.symm.trans ha'
  obtain ⟨b, hb, hba, hbne, hlinked', hbest'⟩ := hf.linked ha
  have heq : shorten rank u f =
      { ancestor := f.ancestor.setIfInBounds u (f.ancestorOf a)
        label := f.label.setIfInBounds u
          (if rank (f.labelOf a) < rank (f.labelOf u) then f.labelOf a else f.labelOf u) } := by
    rw [shorten, hua]
  have hanc : ∀ v, (shorten rank u f).ancestorOf v =
      if u = v then f.ancestorOf a else f.ancestorOf v := by
    intro v
    rw [heq]
    simp only [ancestorOf, Array.getD_setIfInBounds, hf.ancestor_size, hult, and_true]
  have hlab : ∀ v, (shorten rank u f).labelOf v =
      if u = v then
        (if rank (f.labelOf a) < rank (f.labelOf u) then f.labelOf a else f.labelOf u)
      else f.labelOf v := by
    intro v
    rw [heq]
    simp only [labelOf, Array.getD_setIfInBounds, hf.label_size, hult, and_true]
  refine ⟨⟨?_, ?_, ?_, ?_⟩, hanc⟩
  · rw [heq]
    simp [hf.ancestor_size]
  · rw [heq]
    simp [hf.label_size]
  · intro v hv
    have hne : u ≠ v := by
      rintro rfl
      omega
    rw [hanc, hlab, if_neg hne, if_neg hne]
    exact hf.root hv
  · intro v hv
    rw [hanc, hlab]
    by_cases huv : u = v
    · subst huv
      rw [if_pos rfl, if_pos rfl]
      have hjoin : ∀ z, Between d b u z ↔ Between d a u z ∨ Between d b a z :=
        fun z => between_join h hba hbne hau hupos
      refine ⟨b, hb, hba.trans hau, ?_, fun z hz => ?_, ?_⟩
      · rintro rfl
        have := h.ancestor_lt hba hbne (by omega)
        have := h.ancestor_le hau
        omega
      · rcases (hjoin z).mp hz with hz | hz
        · exact hlinked z hz
        · exact hlinked' z hz
      · -- The better of the two labels is the best on the joined path.
        by_cases hlt : rank (f.labelOf a) < rank (f.labelOf u)
        · rw [if_pos hlt]
          refine ⟨(hjoin _).mpr (.inr hbest'.1), fun z hz => ?_⟩
          rcases (hjoin z).mp hz with hz | hz
          · exact hlt.le.trans (hbest.2 z hz)
          · exact hbest'.2 z hz
        · rw [if_neg hlt]
          refine ⟨(hjoin _).mpr (.inl hbest.1), fun z hz => ?_⟩
          rcases (hjoin z).mp hz with hz | hz
          · exact hbest.2 z hz
          · exact (not_lt.mp hlt).trans (hbest'.2 z hz)
    · rw [if_neg huv, if_neg huv]
      exact hf.linked hv

omit h in
theorem ancestor_of_mem_path {n v z : Nat} (hz : z ∈ f.path n v) : d.Ancestor z v := by
  induction n generalizing v with
  | zero => exact absurd hz List.not_mem_nil
  | succ n ih =>
    rw [path] at hz
    cases hv : f.ancestorOf v with
    | none =>
      rw [hv] at hz
      exact absurd hz List.not_mem_nil
    | some a =>
      simp only [hv] at hz
      split at hz
      · rcases List.mem_cons.mp hz with rfl | hz
        · exact .refl
        · obtain ⟨a', ha', hav, _⟩ := hf.linked (hf.lt_number hv)
          cases hv.symm.trans ha'
          exact (ih hz).trans hav
      · exact absurd hz List.not_mem_nil

theorem compress_represents {n v : Nat} (hv : lo < d.numberOf v) (hn : d.numberOf v ≤ lo + n) :
    Represents g d rank lo ((f.path n v).foldr (shorten rank) f) ∧
      (∃ r, ((f.path n v).foldr (shorten rank) f).ancestorOf v = some r ∧ d.numberOf r ≤ lo) ∧
      ∀ z, z ∉ f.path n v →
        ((f.path n v).foldr (shorten rank) f).ancestorOf z = f.ancestorOf z := by
  induction n generalizing v with
  | zero => omega
  | succ n ih =>
    obtain ⟨a, ha, hav, hne, _, _⟩ := hf.linked hv
    have hlt := h.ancestor_lt hav hne (by omega)
    by_cases halo : lo < d.numberOf a
    · have hsome : (f.ancestorOf a).isSome = true := by
        obtain ⟨b, hb, _⟩ := hf.linked halo
        rw [hb]
        rfl
      have hpath : f.path (n + 1) v = v :: f.path n a := by
        rw [path, ha]
        simp only [hsome, if_true]
      obtain ⟨hrep, ⟨r, hr, hrlo⟩, hframe⟩ := ih halo (by omega)
      have hvnot : v ∉ f.path n a := by
        intro hmem
        have := h.ancestor_le (ancestor_of_mem_path hf hmem)
        omega
      have hva := (hframe v hvnot).trans ha
      obtain ⟨hrep', hanc⟩ := shorten_represents h hrep hv hva halo
      rw [hpath, List.foldr_cons]
      refine ⟨hrep', ⟨r, by rw [hanc, if_pos rfl, hr], hrlo⟩, fun z hz => ?_⟩
      rw [hanc, if_neg (fun heq => hz (by simp [heq]))]
      exact hframe z fun hmem => hz (.tail _ hmem)
    · have hroot := (hf.root (not_lt.mp halo)).1
      have hpath : f.path (n + 1) v = [] := by
        rw [path, ha]
        simp [hroot]
      rw [hpath]
      exact ⟨hf, ⟨a, ha, not_lt.mp halo⟩, fun _ _ => rfl⟩

/-- Asking for an unlinked node gives the node; asking for a linked one gives a node of least rank
among the linked ones above it. The forest stays the same up to shortening. -/
theorem eval_spec (v : Nat) :
    Represents g d rank lo (f.eval rank v).2 ∧
      (d.numberOf v ≤ lo → (f.eval rank v).1 = v) ∧
      (lo < d.numberOf v →
        d.Ancestor (f.eval rank v).1 v ∧ lo < d.numberOf (f.eval rank v).1 ∧
          ∀ z, d.Ancestor z v → lo < d.numberOf z → rank (f.eval rank v).1 ≤ rank z) := by
  rcases Nat.lt_or_ge lo (d.numberOf v) with hv | hv
  · obtain ⟨a, ha, _⟩ := hf.linked hv
    have hn : d.numberOf v ≤ lo + f.ancestor.size := by
      rw [hf.ancestor_size]
      have := h.number_le v
      have := h.order_size_le
      omega
    obtain ⟨hrep, ⟨r, hr, hrlo⟩, _⟩ := compress_represents h hf hv hn
    have heval : f.eval rank v =
        ((f.compress rank v).labelOf v, f.compress rank v) := by
      rw [eval, ha]
    rw [heval]
    refine ⟨hrep, fun hle => by omega, fun _ => ?_⟩
    obtain ⟨r', hr', hrv, _, hlinked, hbest⟩ := hrep.linked hv
    cases hr.symm.trans hr'
    refine ⟨hbest.1.2.2, hlinked _ hbest.1, fun z hzv hz => hbest.2 z ⟨?_, ?_, hzv⟩⟩
    · exact h.ancestor_chain hrv hzv (by omega) (by omega)
    · rintro rfl
      omega
  · have heval : f.eval rank v = (v, f) := by rw [eval, (hf.root hv).1]
    rw [heval]
    exact ⟨hf, fun _ => rfl, fun hlt => by omega⟩

end SsaIr.LinkEval
