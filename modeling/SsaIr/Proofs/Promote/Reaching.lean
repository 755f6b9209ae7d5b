import SsaIr.Proofs.Promote.Walk

/-!
# The values that reach a point

In a block that control reaches, renaming puts for each load the value that the cell holds there,
and that value is at hand there. Read `Plan.Solved` first: it says so for a block as an equation
between the replacements, in which the order of the visits does not show any more. `walk_solved`
proves it of every reachable block.
-/

namespace SsaIr

open DominatorTree List

namespace Promote

namespace Plan

variable {p : Plan} {a : FlowAnalysis} {f : FuncId} {i : InstId} {v : Nat} {vs : List Nat}
  {s : Renaming × (Nat → Env)}

def loads (p : Plan) (i : InstId) : Bool :=
  (p.program.inst i).op = .load && (p.cellOf ((p.program.inst i).operand 0)).isSome

/-- The value is no load from a cell, so that no replacement changes it. -/
def Settled (p : Plan) (w : Value) : Prop := ∀ i, w = .inst i → p.loads i = false

/-- What an instruction does to the current values, under replacements. -/
def transfer (p : Plan) (σ : List (InstId × Value)) (env : Env) (i : InstId) : Env :=
  (p.visitInst ({ subst := σ }, env) i).2

/-- The value is at hand at a point of a node's block: it is no instruction, or one before the
point, or one of a block that dominates the node. -/
def Available (p : Plan) (a : FlowAnalysis) (v : Nat) (before : List InstId) (w : Value) : Prop :=
  ∀ d, w = .inst d → d ∈ before ∨
    ∃ u, u ≠ v ∧ Dominance a.flow.graph.Edge 0 u v ∧
      d ∈ (p.program.block (a.flow.blockAt u)).insts

/-- The instructions before a point of a node's block, started with some current values: the loads
among them are replaced by what their cells hold, and what cells hold is at hand. -/
structure Solved (p : Plan) (a : FlowAnalysis) (σ : List (InstId × Value)) (v : Nat) (start : Env)
    (before : List InstId) : Prop where
  load : ∀ {pre post : List InstId} {i : InstId} {n : Nat}, before = pre ++ i :: post →
    (p.program.inst i).op = .load → p.cellOf ((p.program.inst i).operand 0) = some n →
      resolve σ (.inst i) = pre.foldl (p.transfer σ) start n
  stored : ∀ {i : InstId} {n : Nat} {x : Value}, i ∈ before → (p.program.inst i).op = .store →
    p.cellOf ((p.program.inst i).operand 1) = some n → (p.program.inst i).operand 0 = some x →
      p.Settled (resolve σ x)
  held : ∀ {pre post : List InstId}, before = pre ++ post → ∀ n < p.cells.length,
    p.Settled (pre.foldl (p.transfer σ) start n) ∧
      p.Available a v pre (pre.foldl (p.transfer σ) start n)

/-! ## Loads and replacements -/

theorem loads_iff : p.loads i = true ↔ (p.program.inst i).op = .load ∧
    ∃ n, p.cellOf ((p.program.inst i).operand 0) = some n := by
  rw [loads, Bool.and_eq_true, decide_eq_true_eq, Option.isSome_iff_exists]

theorem settled_of_ne {w : Value} (h : ∀ i, w ≠ .inst i) : p.Settled w :=
  fun i hi => absurd hi (h i)

theorem Settled.resolve_eq {σ : List (InstId × Value)} {w : Value} (h : p.Settled w)
    (hσ : ∀ x ∈ σ, p.loads x.1 = true) : resolve σ w = w := by
  refine resolve_of_not_mem fun x hx heq => ?_
  have hload := hσ x hx
  rw [h x.1 heq] at hload
  cases hload

section

variable (r : Renaming) (env : Env)

theorem visitInst_env (i : InstId) : (p.visitInst (r, env) i).2 = p.transfer r.subst env i := by
  unfold transfer visitInst
  dsimp only
  split
  · split <;> rfl
  · split <;> rfl
  · split <;> rfl
  · rfl

theorem visitInst_subst_of_load {n : Nat}
    (hop : (p.program.inst i).op = .load) (hn : p.cellOf ((p.program.inst i).operand 0) = some n) :
    (p.visitInst (r, env) i).1.subst = (i, env n) :: r.subst := by
  simp only [visitInst, hop, hn]
  rfl

theorem visitInst_subst_of_not (h : p.loads i = false) :
    (p.visitInst (r, env) i).1.subst = r.subst := by
  have hvisit := visitInst_visit p (r, env) i
  generalize p.visitInst (r, env) i = t at hvisit ⊢
  cases hvisit with
  | phi _ _ _ => rfl
  | load hop hn _ =>
    rw [loads_iff.mpr ⟨hop, _, hn⟩] at h
    cases h
  | store _ _ _ _ => rfl
  | other _ _ => rfl

end

theorem transfer_cases (σ : List (InstId × Value)) (env : Env) (i : InstId) (n : Nat) :
    p.transfer σ env i n = env n ∨
      (p.phiOf i = some n ∧ (p.program.inst i).op = .phi ∧ p.transfer σ env i n = .inst i) ∨
      ∃ x, p.Stores i n x ∧ p.transfer σ env i n = resolve σ x := by
  unfold transfer
  have hvisit := visitInst_visit p ({ subst := σ }, env) i
  generalize p.visitInst ({ subst := σ }, env) i = t at hvisit ⊢
  cases hvisit with
  | @phi m hop hm _ =>
    by_cases hmn : n = m
    · subst hmn
      exact .inr (.inl ⟨hm, hop, Function.update_self _ _ _⟩)
    · exact .inl (Function.update_of_ne hmn _ _)
  | load _ _ _ => exact .inl rfl
  | @store m x hop hm hx _ =>
    by_cases hmn : n = m
    · subst hmn
      exact .inr (.inr ⟨x, ⟨hop, hm, hx⟩, Function.update_self _ _ _⟩)
    · exact .inl (Function.update_of_ne hmn _ _)
  | other _ _ => exact .inl rfl

theorem transfer_congr {σ τ : List (InstId × Value)} (env : Env)
    (h : ∀ {n x}, p.Stores i n x → resolve τ x = resolve σ x) :
    p.transfer τ env i = p.transfer σ env i := by
  unfold transfer visitInst
  dsimp only
  split
  · split <;> rfl
  · split <;> rfl
  · rename_i hop
    split
    · rename_i n x hn hx
      rw [h ⟨hop, hn, hx⟩]
    · rfl
  · rfl

/-! ## Values at hand -/

namespace Available

variable {before : List InstId} {w : Value}

theorem of_ne (h : ∀ i, w ≠ .inst i) : p.Available a v before w := fun d hd => absurd hd (h d)

theorem mono (h : p.Available a v before w) {later : List InstId} (hsub : before ⊆ later) :
    p.Available a v later w := by
  intro d hd
  rcases h d hd with hmem | hdom
  · exact .inl (hsub hmem)
  · exact .inr hdom

theorem of_dominance (ha : a.flow.graph.WellFormed) {u : Nat} (h : p.Available a u before w)
    (hbefore : ∀ i ∈ before, i ∈ (p.program.block (a.flow.blockAt u)).insts)
    (hv : Reached a.flow.graph.Edge 0 v) (hne : u ≠ v)
    (hdom : Dominance a.flow.graph.Edge 0 u v) (later : List InstId) :
    p.Available a v later w := by
  intro d hd
  rcases h d hd with hmem | ⟨t, htu, htdom, hmem⟩
  · exact .inr ⟨u, hne, hdom, hbefore d hmem⟩
  · refine .inr ⟨t, fun htv => hne ?_, htdom.trans hdom, hmem⟩
    -- Two nodes that dominate each other are one.
    subst htv
    exact eq_of_dominance ha hv hdom htdom

end Available

/-! ## Blocks that are solved -/

namespace Solved

variable {σ τ : List (InstId × Value)} {start : Env} {before : List InstId}

section

variable (h : p.Solved a σ v start before) (hτ : ∀ x ∈ τ, p.loads x.1 = true)
include h hτ

theorem foldl_transfer {l : List InstId} (hl : l ⊆ before) (env : Env) :
    l.foldl (p.transfer (τ ++ σ)) env = l.foldl (p.transfer σ) env := by
  induction l generalizing env with
  | nil => rfl
  | cons i l ih =>
    have hi : p.transfer (τ ++ σ) env i = p.transfer σ env i := by
      refine transfer_congr env fun hx => ?_
      rw [resolve_append]
      exact (h.stored (hl (.head _)) hx.op hx.cell hx.value).resolve_eq hτ
    rw [foldl_cons, hi]
    exact ih (fun j hj => hl (.tail _ hj)) _

theorem append :
    p.Solved a (τ ++ σ) v start before where
  load {pre post i n} hsplit hop hn := by
    have hpre : pre ⊆ before := hsplit ▸ subset_append_left _ _
    have hheld := (h.held hsplit n (cellOf_lt hn)).1
    rw [resolve_append, h.load hsplit hop hn, h.foldl_transfer hτ hpre]
    exact hheld.resolve_eq hτ
  stored {i n x} hi hop hn hx := by
    have hsettled := h.stored hi hop hn hx
    rwa [resolve_append, hsettled.resolve_eq hτ]
  held {pre post} hsplit n hn := by
    have hpre : pre ⊆ before := hsplit ▸ subset_append_left _ _
    rw [h.foldl_transfer hτ hpre]
    exact h.held hsplit n hn

end

theorem take (h : p.Solved a σ v start before) {pre post : List InstId}
    (hsplit : before = pre ++ post) : p.Solved a σ v start pre where
  load {l r i n} hpre hop hn := by
    have hwhole : before = l ++ i :: (r ++ post) := by
      rw [hsplit, hpre, append_assoc, cons_append]
    exact h.load hwhole hop hn
  stored {i n x} hi hop hn hx :=
    h.stored (hsplit ▸ mem_append_left _ hi) hop hn hx
  held {l r} hpre n hn := by
    have hwhole : before = l ++ (r ++ post) := by
      rw [hsplit, hpre, append_assoc]
    exact h.held hwhole n hn

theorem nil (h : ∀ n < p.cells.length, p.Settled (start n) ∧ p.Available a v [] (start n)) :
    p.Solved a σ v start [] where
  load {pre post i n} hsplit := by simp at hsplit
  stored hi := absurd hi not_mem_nil
  held {pre post} hsplit n hn := by
    have hpre : pre = [] := (append_eq_nil_iff.mp hsplit.symm).1
    subst hpre
    exact h n hn

/-- One more instruction: a load is replaced by what its cell holds, and what is stored is settled
and at hand. -/
theorem snoc (h : p.Solved a σ v start before) {i : InstId}
    (hload : ∀ {n}, (p.program.inst i).op = .load →
      p.cellOf ((p.program.inst i).operand 0) = some n →
        resolve σ (.inst i) = before.foldl (p.transfer σ) start n)
    (hstored : ∀ {n x}, p.Stores i n x →
      p.Settled (resolve σ x) ∧ p.Available a v before (resolve σ x)) :
    p.Solved a σ v start (before ++ [i]) where
  load {pre post j n} hsplit hop hn := by
    rcases eq_nil_or_concat' post with rfl | ⟨post, k, rfl⟩
    · obtain ⟨rfl, hij⟩ := append_inj' hsplit rfl
      cases hij
      exact hload hop hn
    · rw [← cons_append, ← append_assoc] at hsplit
      obtain ⟨rfl, _⟩ := append_inj' hsplit rfl
      exact h.load rfl hop hn
  stored {j n x} hj hop hn hx := by
    rcases mem_append.mp hj with hj | hj
    · exact h.stored hj hop hn hx
    · obtain rfl := mem_singleton.mp hj
      exact (hstored ⟨hop, hn, hx⟩).1
  held {pre post} hsplit n hn := by
    have hold := h.held (append_nil before).symm n hn
    rcases eq_nil_or_concat' post with rfl | ⟨post, k, rfl⟩
    · rw [append_nil] at hsplit
      subst hsplit
      have hsub : before ⊆ before ++ [i] := subset_append_left _ _
      rw [foldl_append, foldl_cons, foldl_nil]
      rcases transfer_cases (p := p) σ (before.foldl (p.transfer σ) start) i n with
        heq | ⟨_, hop, heq⟩ | ⟨x, hx, heq⟩
      · rw [heq]
        exact ⟨hold.1, hold.2.mono hsub⟩
      · rw [heq]
        refine ⟨fun j hj => ?_, fun d hd => .inl ?_⟩
        · cases hj
          rw [loads, hop]
          rfl
        · cases hd
          exact mem_append_right _ (.head _)
      · rw [heq]
        exact ⟨(hstored hx).1, (hstored hx).2.mono hsub⟩
    · rw [← append_assoc] at hsplit
      obtain ⟨rfl, _⟩ := append_inj' hsplit rfl
      exact h.held rfl n hn

theorem available_resolve (h : p.Solved a σ v start before) (ha : a.flow.graph.WellFormed)
    (hσ : ∀ x ∈ σ, p.loads x.1 = true) (hv : Reached a.flow.graph.Edge 0 v)
    (habove : ∀ u, u ≠ v → Dominance a.flow.graph.Edge 0 u v → ∃ env,
      p.Solved a σ u env (p.program.block (a.flow.blockAt u)).insts.toList)
    {x : Value} (hx : p.Available a v before x) : p.Available a v before (resolve σ x) := by
  have hplain : p.Settled x → p.Available a v before (resolve σ x) := fun hs =>
    (hs.resolve_eq hσ).symm ▸ hx
  by_cases hs : p.Settled x
  · exact hplain hs
  · simp only [Settled, not_forall, Bool.not_eq_false] at hs
    obtain ⟨d, rfl, hd⟩ := hs
    obtain ⟨hop, n, hn⟩ := loads_iff.mp hd
    rcases hx d rfl with hmem | ⟨u, hne, hdom, hmem⟩
    · obtain ⟨pre, post, hsplit⟩ := append_of_mem hmem
      rw [h.load hsplit hop hn]
      exact (h.held hsplit n (cellOf_lt hn)).2.mono (hsplit ▸ subset_append_left _ _)
    · obtain ⟨env, hu⟩ := habove u hne hdom
      obtain ⟨pre, post, hsplit⟩ := append_of_mem hmem.val
      rw [hu.load hsplit hop hn]
      refine (hu.held hsplit n (cellOf_lt hn)).2.of_dominance ha (fun i hi => ?_) hv hne hdom _
      rw [← Array.mem_toList_iff, hsplit]
      exact mem_append_left _ hi

end Solved

/-! ## Later replacements -/

/-- Some replacements come from others by further ones, of loads from cells. -/
def Extends (p : Plan) (σ σ' : List (InstId × Value)) : Prop :=
  ∃ τ, σ' = τ ++ σ ∧ ∀ x ∈ τ, p.loads x.1 = true

namespace Extends

variable {σ σ' σ'' : List (InstId × Value)}

theorem refl (σ : List (InstId × Value)) : p.Extends σ σ :=
  ⟨[], rfl, fun _ hx => absurd hx not_mem_nil⟩

theorem trans (h : p.Extends σ σ') (h' : p.Extends σ' σ'') : p.Extends σ σ'' := by
  obtain ⟨τ, rfl, hτ⟩ := h
  obtain ⟨τ', rfl, hτ'⟩ := h'
  refine ⟨τ' ++ τ, (append_assoc _ _ _).symm, fun x hx => ?_⟩
  rcases mem_append.mp hx with hx | hx
  · exact hτ' x hx
  · exact hτ x hx

theorem solved (h : p.Extends σ σ') {v : Nat} {start : Env} {before : List InstId}
    (hs : p.Solved a σ v start before) : p.Solved a σ' v start before ∧
      before.foldl (p.transfer σ') start = before.foldl (p.transfer σ) start := by
  obtain ⟨τ, rfl, hτ⟩ := h
  exact ⟨hs.append hτ, hs.foldl_transfer hτ (fun _ hi => hi) start⟩

end Extends

theorem visitInst_extends (s : Renaming × Env) (i : InstId) :
    p.Extends s.1.subst (p.visitInst s i).1.subst := by
  cases hi : p.loads i with
  | false => exact visitInst_subst_of_not _ _ hi ▸ .refl _
  | true =>
    obtain ⟨hop, n, hn⟩ := loads_iff.mp hi
    refine ⟨[(i, s.2 n)], visitInst_subst_of_load _ _ hop hn, fun x hx => ?_⟩
    rwa [mem_singleton.mp hx]

theorem visitInsts_extends (l : List InstId) (s : Renaming × Env) :
    p.Extends s.1.subst (l.foldl p.visitInst s).1.subst := by
  induction l generalizing s with
  | nil => exact .refl _
  | cons i l ih => exact (visitInst_extends s i).trans (ih _)

theorem fillPhis_subst (env : Env) (b : BlockId) (l : List InstId) (r : Renaming) :
    (l.foldl (p.fillPhi env b) r).subst = r.subst := by
  induction l generalizing r with
  | nil => rfl
  | cons i l ih =>
    rw [foldl_cons, ih]
    unfold fillPhi
    split <;> rfl

theorem visitNode_subst (s : Renaming × (Nat → Env)) (v : Nat) :
    (p.visitNode a s v).1.subst = ((p.program.block (a.flow.blockAt v)).insts.toList.foldl
      p.visitInst (s.1, p.startOf a s.2 v)).1.subst :=
  fillPhis_subst _ _ _ _

theorem visitNodes_extends (vs : List Nat) (s : Renaming × (Nat → Env)) :
    p.Extends s.1.subst (p.visitNodes a s vs).1.subst := by
  induction vs generalizing s with
  | nil => exact .refl _
  | cons v vs ih =>
    refine .trans ?_ (ih (p.visitNode a s v))
    rw [visitNode_subst]
    exact visitInsts_extends _ _

/-! ## Visiting reachable blocks -/

/-- In reachable blocks, the operands of instructions other than phis are at hand. -/
def Ordered (p : Plan) (a : FlowAnalysis) : Prop :=
  ∀ {v : Nat} {pre post : List InstId} {i : InstId} {x : Value},
    Reached a.flow.graph.Edge 0 v →
    (p.program.block (a.flow.blockAt v)).insts.toList = pre ++ i :: post →
    (p.program.inst i).op ≠ .phi → some x ∈ (p.program.inst i).operands → p.Available a v pre x

/-- After some instructions were visited, the replaced ones are loads among them, and whatever was
visited becomes a settled value. -/
structure Progress (p : Plan) (done : List InstId) (σ : List (InstId × Value)) : Prop where
  keys : ∀ x ∈ σ, p.loads x.1 = true ∧ x.1 ∈ done
  settled : ∀ x ∈ σ, p.Settled x.2
  visited : ∀ i ∈ done, p.Settled (resolve σ (.inst i))

namespace Progress

variable {done : List InstId} {σ : List (InstId × Value)}

section

variable (h : p.Progress done σ)
include h

theorem resolve_eq (hi : i ∉ done) : resolve σ (.inst i) = .inst i := by
  refine resolve_of_not_mem fun x hx heq => hi ?_
  cases heq
  exact (h.keys x hx).2

theorem snoc (hi : p.loads i = false) : p.Progress (done ++ [i]) σ where
  keys x hx := ⟨(h.keys x hx).1, mem_append_left _ (h.keys x hx).2⟩
  settled := h.settled
  visited j hj := by
    rcases mem_append.mp hj with hj | hj
    · exact h.visited j hj
    · obtain rfl := mem_singleton.mp hj
      have hsettled : p.Settled (.inst j) := fun k hk => by cases hk; exact hi
      rwa [hsettled.resolve_eq fun x hx => (h.keys x hx).1]

theorem replace (hi : p.loads i = true) {w : Value} (hw : p.Settled w) :
    p.Progress (done ++ [i]) ((i, w) :: σ) where
  keys x hx := by
    rcases mem_cons.mp hx with rfl | hx
    · exact ⟨hi, mem_append_right _ (.head _)⟩
    · exact ⟨(h.keys x hx).1, mem_append_left _ (h.keys x hx).2⟩
  settled x hx := by
    rcases mem_cons.mp hx with rfl | hx
    · exact hw
    · exact h.settled x hx
  visited j hj := by
    rw [resolve, substValue]
    split
    · exact hw
    · rename_i hne
      rcases mem_append.mp hj with hj | hj
      · exact h.visited j hj
      · -- The load itself was replaced by something settled before, if it did not stay.
        obtain rfl := mem_singleton.mp hj
        rcases resolve_cases σ (.inst j) with heq | ⟨x, hx, heq⟩
        · exact absurd heq hne
        · exact heq ▸ h.settled x hx

theorem settled_of_visited {x : Value} (hx : ∀ l, x = .inst l → p.loads l = true → l ∈ done) :
    p.Settled (resolve σ x) := by
  by_cases hinst : ∃ l, x = .inst l
  · obtain ⟨l, rfl⟩ := hinst
    by_cases hl : l ∈ done
    · exact h.visited l hl
    · rw [h.resolve_eq hl]
      rintro j ⟨⟩
      exact Bool.eq_false_iff.mpr fun hload => hl (hx l rfl hload)
  · have hne : ∀ l, x ≠ .inst l := fun l hl => hinst ⟨l, hl⟩
    rw [resolve_of_not_mem fun y _ => hne y.1]
    exact settled_of_ne hne

theorem settled_resolve {v : Nat} {before : List InstId} (hbefore : before ⊆ done)
    (habove : ∀ u, u ≠ v → Dominance a.flow.graph.Edge 0 u v →
      ∀ j ∈ (p.program.block (a.flow.blockAt u)).insts, j ∈ done)
    {x : Value} (hx : p.Available a v before x) : p.Settled (resolve σ x) := by
  refine h.settled_of_visited fun d hd _ => ?_
  rcases hx d hd with hmem | ⟨u, hne, hdom, hmem⟩
  · exact hbefore hmem
  · exact habove u hne hdom d hmem

end

end Progress

/-- The walk within a reachable block, when some instructions were visited in blocks before it and
some in it: the blocks above are visited and solved, and so is this one up to here. -/
structure Within (p : Plan) (a : FlowAnalysis) (v : Nat) (start : Env) (done before : List InstId)
    (σ : List (InstId × Value)) (env : Env) : Prop where
  progress : p.Progress (done ++ before) σ
  above : ∀ u, u ≠ v → Dominance a.flow.graph.Edge 0 u v →
    (∀ j ∈ (p.program.block (a.flow.blockAt u)).insts, j ∈ done) ∧
      ∃ e, p.Solved a σ u e (p.program.block (a.flow.blockAt u)).insts.toList
  solved : p.Solved a σ v start before
  env_eq : env = before.foldl (p.transfer σ) start

theorem Within.visitInst {start env : Env} {done before post : List InstId} {r : Renaming}
    (h : p.Within a v start done before r.subst env) (ha : a.flow.graph.WellFormed)
    (hord : p.Ordered a) (hv : Reached a.flow.graph.Edge 0 v)
    (hblock : (p.program.block (a.flow.blockAt v)).insts.toList = before ++ i :: post)
    (hi : i ∉ done ++ before) : p.Within a v start done (before ++ [i])
      (p.visitInst (r, env) i).1.subst (p.visitInst (r, env) i).2 := by
  have hext := visitInst_extends (p := p) (r, env) i
  obtain ⟨hsolved, hfold⟩ := hext.solved h.solved
  have habove : ∀ u, u ≠ v → Dominance a.flow.graph.Edge 0 u v →
      (∀ j ∈ (p.program.block (a.flow.blockAt u)).insts, j ∈ done) ∧
        ∃ e, p.Solved a (p.visitInst (r, env) i).1.subst u e
          (p.program.block (a.flow.blockAt u)).insts.toList := by
    intro u hne hdom
    obtain ⟨hdone, e, hu⟩ := h.above u hne hdom
    exact ⟨hdone, e, (hext.solved hu).1⟩
  have hassoc : done ++ (before ++ [i]) = done ++ before ++ [i] := (append_assoc _ _ _).symm
  cases hload : p.loads i with
  | true =>
    obtain ⟨hop, n, hn⟩ := loads_iff.mp hload
    have hheld := h.solved.held (append_nil before).symm n (cellOf_lt hn)
    rw [← h.env_eq] at hheld
    have hsubst := visitInst_subst_of_load r env hop hn
    have hstore : (p.program.inst i).op ≠ .store := by
      rw [hop]
      decide
    have hsnoc : p.Solved a (p.visitInst (r, env) i).1.subst v start (before ++ [i]) := by
      refine hsolved.snoc (fun {m} _ hm => ?_) fun hx => absurd hx.op hstore
      cases hn.symm.trans hm
      rw [hfold, ← h.env_eq, hsubst, resolve, h.progress.resolve_eq hi, substValue, if_pos rfl]
    refine ⟨?_, habove, hsnoc, ?_⟩
    · rw [hassoc, hsubst]
      exact h.progress.replace hload hheld.1
    · rw [visitInst_env, foldl_append, hfold, ← h.env_eq]
      exact (transfer_congr env fun hx => absurd hx.op hstore).symm
  | false =>
    have hsubst := visitInst_subst_of_not r env hload
    refine ⟨?_, hsubst ▸ habove, ?_, ?_⟩
    · rw [hassoc, hsubst]
      exact h.progress.snoc hload
    · rw [hsubst]
      refine h.solved.snoc (fun hop hn => ?_) fun hx => ?_
      · rw [loads_iff.mpr ⟨hop, _, hn⟩] at hload
        cases hload
      · have hphi : (p.program.inst i).op ≠ .phi := by
          rw [hx.op]
          decide
        have hx' := hord hv hblock hphi (Instruction.mem_operands_iff.mpr ⟨0, hx.value⟩)
        exact ⟨h.progress.settled_resolve (subset_append_right _ _)
            (fun u hne hdom j hj => mem_append_left _ ((h.above u hne hdom).1 j hj)) hx',
          h.solved.available_resolve ha (fun y hy => (h.progress.keys y hy).1) hv
            (fun u hne hdom => (h.above u hne hdom).2) hx'⟩
    · rw [visitInst_env, hsubst, foldl_append, ← h.env_eq, foldl_cons, foldl_nil]

theorem Within.visitInsts {start env : Env} {done before : List InstId} {r : Renaming}
    (l : List InstId) (h : p.Within a v start done before r.subst env)
    (ha : a.flow.graph.WellFormed)
    (hord : p.Ordered a) (hv : Reached a.flow.graph.Edge 0 v)
    (hblock : (p.program.block (a.flow.blockAt v)).insts.toList = before ++ l)
    (hnodup : (done ++ before ++ l).Nodup) : p.Within a v start done (before ++ l)
      (l.foldl p.visitInst (r, env)).1.subst (l.foldl p.visitInst (r, env)).2 := by
  induction l generalizing before r env with
  | nil =>
    rwa [append_nil]
  | cons i l ih =>
    have hi : i ∉ done ++ before := fun hmem =>
      (nodup_append.mp hnodup).2.2 i hmem i (.head _) rfl
    have hrest := ih (h.visitInst ha hord hv hblock hi) (by rw [hblock]; simp)
      (by simpa using hnodup)
    rwa [append_assoc] at hrest

/-- Some nodes were visited from the entry down: their blocks are solved. -/
structure Visited (p : Plan) (a : FlowAnalysis) (vs : List Nat) (s : Renaming × (Nat → Env)) :
    Prop where
  progress : p.Progress (p.instsOf a vs) s.1.subst
  solved : ∀ v ∈ vs, p.Solved a s.1.subst v (p.startOf a s.2 v)
    (p.program.block (a.flow.blockAt v)).insts.toList
  out_eq : ∀ v ∈ vs, s.2 v = (p.program.block (a.flow.blockAt v)).insts.toList.foldl
    (p.transfer s.1.subst) (p.startOf a s.2 v)

/-- The current values at the start of a reachable node are at hand, once its dominators were
visited. -/
theorem Visited.start (h : p.Visited a vs s) (ha : a.flow.graph.WellFormed)
    (htree : a.tree = ofGraph a.flow.graph) (hv : Reached a.flow.graph.Edge 0 v)
    (hparent : ∀ d, a.tree.idomOf v = some d → d ∈ vs) :
    ∀ n < p.cells.length, p.Settled (p.startOf a s.2 v n) ∧
      p.Available a v [] (p.startOf a s.2 v n) := by
  intro n hn
  unfold startOf
  cases hd : a.tree.idomOf v with
  | none =>
    have hne : ∀ i, p.undefs n ≠ .inst i := fun i hi => by cases hi
    exact ⟨settled_of_ne hne, .of_ne hne⟩
  | some d =>
    have hdvs := hparent d hd
    rw [htree] at hd
    obtain ⟨_, _, himm⟩ := (ofGraph_idomOf_iff ha).mp hd
    have hheld := (h.solved d hdvs).held (append_nil _).symm n hn
    dsimp only
    rw [h.out_eq d hdvs]
    refine ⟨hheld.1, hheld.2.of_dominance ha (fun i hi => ?_) hv himm.ne himm.dominates _⟩
    exact ⟨hi⟩

/-- What is current at the start of a node does not depend on what is at the ends of nodes other
than its parent. -/
theorem startOf_congr {out out' : Nat → Env}
    (h : ∀ d, a.tree.idomOf v = some d → out' d = out d) :
    p.startOf a out' v = p.startOf a out v := by
  unfold startOf
  cases hd : a.tree.idomOf v with
  | none => rfl
  | some d => exact h d hd

theorem Visited.visitNode (h : p.Visited a vs s) (ha : a.flow.graph.WellFormed)
    (htree : a.tree = ofGraph a.flow.graph) (hord : p.Ordered a)
    (hv : Reached a.flow.graph.Edge 0 v) (hvs : v ∉ vs)
    (habove : ∀ u, u ≠ v → Dominance a.flow.graph.Edge 0 u v → u ∈ vs)
    (hparents : ∀ u ∈ vs ++ [v], ∀ d, a.tree.idomOf u = some d → d ∈ vs)
    (hnodup : (p.instsOf a (vs ++ [v])).Nodup) : p.Visited a (vs ++ [v]) (p.visitNode a s v) := by
  have hinsts : p.instsOf a (vs ++ [v]) =
      p.instsOf a vs ++ (p.program.block (a.flow.blockAt v)).insts.toList := by
    simp [instsOf]
  rw [hinsts] at hnodup
  have hwithin : p.Within a v (p.startOf a s.2 v) (p.instsOf a vs) [] s.1.subst
      (p.startOf a s.2 v) := by
    refine ⟨?_, fun u hne hdom => ?_, .nil ?_, rfl⟩
    · rw [append_nil]
      exact h.progress
    · have hu := habove u hne hdom
      refine ⟨fun j hj => ?_, _, h.solved u hu⟩
      exact mem_flatMap.mpr ⟨u, hu, Array.mem_toList_iff.mpr hj⟩
    · exact h.start ha htree hv (hparents v (mem_append_right _ (.head _)))
  have hend := hwithin.visitInsts (p.program.block (a.flow.blockAt v)).insts.toList ha hord hv rfl
    (by rwa [append_nil])
  rw [nil_append] at hend
  have hsubst := visitNode_subst (p := p) (a := a) s v
  rw [← hsubst] at hend
  have hext : p.Extends s.1.subst (p.visitNode a s v).1.subst :=
    visitNodes_extends (a := a) [v] s
  have hout : ∀ u ∈ vs, (p.visitNode a s v).2 u = s.2 u := by
    intro u hu
    have hne : u ≠ v := fun heq => hvs (heq ▸ hu)
    exact Function.update_of_ne hne _ _
  have hstart : ∀ u ∈ vs ++ [v], p.startOf a (p.visitNode a s v).2 u = p.startOf a s.2 u :=
    fun u hu => startOf_congr fun d hd => hout d (hparents u hu d hd)
  refine ⟨?_, fun u hu => ?_, fun u hu => ?_⟩
  · rw [hinsts]
    exact hend.progress
  · rw [hstart u hu]
    rcases mem_append.mp hu with hu | hu
    · exact (hext.solved (h.solved u hu)).1
    · rw [mem_singleton.mp hu]
      exact hend.solved
  · rw [hstart u hu]
    rcases mem_append.mp hu with hu | hu
    · rw [hout u hu, (hext.solved (h.solved u hu)).2]
      exact h.out_eq u hu
    · rw [mem_singleton.mp hu, ← hend.env_eq]
      exact Function.update_self _ _ _

theorem Visited.visitNodes {c : Context} (ws : List Nat) (h : p.Visited a vs s)
    (ha : Analyses a c f)
    (hord : p.Ordered a)
    (hpre : a.tree.preorder = vs ++ ws) (hnodup : (p.instsOf a a.tree.preorder).Nodup) :
    p.Visited a (vs ++ ws) (p.visitNodes a s ws) := by
  induction ws generalizing vs s with
  | nil =>
    rwa [append_nil]
  | cons v ws ih =>
    have hv : Reached a.flow.graph.Edge 0 v :=
      ha.mem_preorder.mp (hpre ▸ mem_append_right _ (.head _))
    have hvs : v ∉ vs := by
      have hnodes := ha.preorder_nodup
      rw [hpre] at hnodes
      exact fun hin => (nodup_append.mp hnodes).2.2 v hin v (.head _) rfl
    have hsplit : ∀ u ∈ vs ++ [v], ∃ pre post,
        (ofGraph a.flow.graph).preorder = pre ++ u :: post ∧ pre ⊆ vs := by
      intro u hu
      rcases mem_append.mp hu with hu | hu
      · obtain ⟨pre, post, rfl⟩ := append_of_mem hu
        refine ⟨pre, post ++ v :: ws, ?_, subset_append_left _ _⟩
        rw [← ha.tree, hpre, append_assoc, cons_append]
      · rw [mem_singleton.mp hu]
        exact ⟨vs, ws, ha.tree ▸ hpre, fun _ hx => hx⟩
    have hstep :=
      h.visitNode ha.wellFormed ha.tree hord hv hvs (fun u hne hdom => ?_) (fun u hu d hd => ?_) ?_
    · have hrest := ih hstep (by rw [hpre, append_assoc]; rfl)
      rwa [append_assoc] at hrest
    · exact dominators_before ha.wellFormed (ha.tree ▸ hpre)
        ((below_iff_dominance ha.wellFormed hv).mpr hdom) hne
    · obtain ⟨pre, post, hl, hsub⟩ := hsplit u hu
      exact hsub (idomOf_mem_preorder ha.wellFormed hl (ha.tree ▸ hd))
    · rw [hpre] at hnodup
      refine hnodup.sublist ?_
      have hsub : (vs ++ [v]).Sublist (vs ++ v :: ws) :=
        (List.Sublist.refl vs).append ((nil_sublist ws).cons_cons v)
      exact hsub.flatMap _

/-- After the whole walk, the reachable blocks are solved: at the end of each, the cells hold what
the block makes of what they hold at its start, and what was visited became settled. -/
theorem walk_solved {c : Context} (ha : Analyses a c f) (hord : p.Ordered a)
    (hnodup : (p.instsOf a (order a)).Nodup) (hv : Reached a.flow.graph.Edge 0 v) :
    p.Solved a (p.walk a).1.subst v (p.startOf a (p.walk a).2 v)
        (p.program.block (a.flow.blockAt v)).insts.toList ∧
      (p.walk a).2 v = (p.program.block (a.flow.blockAt v)).insts.toList.foldl
        (p.transfer (p.walk a).1.subst) (p.startOf a (p.walk a).2 v) ∧
      ∀ i ∈ (p.program.block (a.flow.blockAt v)).insts,
        p.Settled (resolve (p.walk a).1.subst (.inst i)) := by
  let s := p.visitNodes a ({}, fun _ => p.undefs) a.tree.preorder
  let ws := (List.range a.flow.size).filter fun v => !a.tree.reachable v
  have hwalk : p.walk a = p.visitNodes a s ws := foldl_append
  have hfirst : p.Visited a [] ({}, fun _ => p.undefs) := by
    refine ⟨⟨?_, ?_, ?_⟩, ?_, ?_⟩ <;> exact fun _ h => absurd h not_mem_nil
  have hsub : (p.instsOf a a.tree.preorder).Sublist (p.instsOf a (order a)) :=
    (sublist_append_left _ _).flatMap _
  have htree := hfirst.visitNodes a.tree.preorder ha hord rfl (hnodup.sublist hsub)
  -- The nodes that are not reachable come later, and change nothing of this.
  have hout : ∀ u, Reached a.flow.graph.Edge 0 u → (p.walk a).2 u = s.2 u := by
    intro u hu
    rw [hwalk]
    refine visitNodes_out fun hmem => ?_
    have hnot := (mem_filter.mp hmem).2
    rw [ha.tree_reachable.mpr hu] at hnot
    cases hnot
  have hstart : p.startOf a (p.walk a).2 v = p.startOf a s.2 v := by
    refine startOf_congr fun d hd => hout d ?_
    rw [ha.tree] at hd
    obtain ⟨_, _, himm⟩ := (ofGraph_idomOf_iff ha.wellFormed).mp hd
    exact reached_of_dominance ha.wellFormed hv himm.dominates
  have hext : p.Extends s.1.subst (p.walk a).1.subst := by
    rw [hwalk]
    exact visitNodes_extends ws s
  have hvmem := ha.mem_preorder.mpr hv
  obtain ⟨hsolved, hfold⟩ := hext.solved (htree.solved v hvmem)
  rw [hstart]
  refine ⟨hsolved, ?_, fun i hi => ?_⟩
  · rw [hout v hv, hfold]
    exact htree.out_eq v hvmem
  · have hsettled := htree.progress.visited i
      (mem_flatMap.mpr ⟨v, hvmem, Array.mem_toList_iff.mpr hi⟩)
    obtain ⟨τ, hτ, hloads⟩ := hext
    rwa [hτ, resolve_append, hsettled.resolve_eq hloads]

theorem walk_loads (p : Plan) (a : FlowAnalysis) :
    ∀ x ∈ (p.walk a).1.subst, p.loads x.1 = true := by
  obtain ⟨τ, hτ, hloads⟩ := visitNodes_extends (p := p) (a := a) (order a) ({}, fun _ => p.undefs)
  rwa [walk, hτ, append_nil]

end Plan

end Promote

end SsaIr
