import SsaIr.Proofs.Flow.Control
import SsaIr.Proofs.Flow.Frontier

/-!
# Frontiers of the blocks of a function

What the frontiers of an analysed function say about its blocks. Read `ofFunction_frontier_exact`
first: the frontier of a block holds the blocks where its dominance ends, as the paths of control
from the entry tell. `iteratedFrontier_least` says that the work list ends, and that what it leaves
is the least set of nodes that is closed under frontiers.
-/

namespace SsaIr

namespace Bitset

theorem size_insert (b : Bitset) (i : Nat) : (b.insert i).size = b.size := rfl

end Bitset

namespace Frontiers

variable {g : FlowGraph} {f : Frontiers}

/-- Working off a list of nodes ends with a set: the frontier of the first node is marked, and nodes
that were not marked before join the list, until none is left. -/
inductive WorkedOff (f : Frontiers) : Bitset → List Nat → Bitset → Prop where
  | done (out : Bitset) : WorkedOff f out [] out
  | next {out result : Bitset} {b : Nat} {work : List Nat}
      (h : WorkedOff f (mark (f.of b).toList (out, work)).1
        (mark (f.of b).toList (out, work)).2 result) :
      WorkedOff f out (b :: work) result

theorem mark_size (ds : List Nat) (out : Bitset) (work : List Nat) :
    (mark ds (out, work)).1.size = out.size := by
  induction ds generalizing out work with
  | nil => rfl
  | cons d ds ih =>
    rw [mark]
    split
    · exact ih out work
    · exact (ih _ _).trans (out.size_insert d)

theorem close_workedOff (hf : Fits g f) (n : Nat) {out : Bitset} {work : List Nat}
    (hroom : out.words.size = (g.size + 63) / 64) (hn : work.length + unmarked g out < n) :
    f.WorkedOff out work (f.close n out work) ∧ (f.close n out work).size = out.size ∧
      (f.close n out work).words.size = (g.size + 63) / 64 := by
  induction n generalizing out work with
  | zero => omega
  | succ n ih =>
    cases work with
    | nil => exact ⟨.done out, rfl, hroom⟩
    | cons b work =>
      obtain ⟨hsize, hcount, _, _⟩ := mark_spec (g := g) (f.of b).toList out work
        hroom fun d hd => hf.members ((Bitset.mem_toList _ _).mp hd)
      rw [List.length_cons] at hn
      have hless : (mark (f.of b).toList (out, work)).2.length +
          unmarked g (mark (f.of b).toList (out, work)).1 < n := by
        omega
      obtain ⟨hends, hkeep, hwords⟩ := ih hsize hless
      exact ⟨.next hends, hkeep.trans (mark_size _ _ _), hwords⟩

theorem iterated_workedOff (hf : Fits g f) (nodes : List Nat) :
    f.WorkedOff (.empty g.size) nodes.reverse (f.iterated nodes) ∧
      (f.iterated nodes).size = g.size ∧ (f.iterated nodes).words.size = (g.size + 63) / 64 := by
  have hle : unmarked g (.empty g.size) ≤ g.size :=
    List.countP_le_length.trans List.length_range.le
  rw [iterated, hf.size]
  exact close_workedOff hf _ Array.size_replicate (by rw [List.length_reverse]; omega)

theorem iterated_congr (hf : Fits g f) {nodes nodes' : List Nat} (h : ∀ b, b ∈ nodes ↔ b ∈ nodes') :
    f.iterated nodes = f.iterated nodes' := by
  obtain ⟨_, hsize, hwords⟩ := iterated_workedOff hf nodes
  obtain ⟨_, hsize', hwords'⟩ := iterated_workedOff hf nodes'
  refine Bitset.eq_of_contains (hsize.trans hsize'.symm) (hwords.trans hwords'.symm) fun y => ?_
  rw [Bool.eq_iff_iff, iterated_contains_iff hf, iterated_contains_iff hf]
  simp only [h]

end Frontiers

namespace FlowAnalysis

variable {c : Context} {f : FuncId} {a : FlowAnalysis}

theorem ofFunction_frontiers (h : ofFunction c f = .ok a) : a.frontiers.Fits a.flow.graph ∧
    ∀ v y, (a.frontiers.of v).contains y = true ↔
      Reached a.flow.graph.Edge 0 v ∧ InFrontier a.flow.graph v y := by
  have hfrontiers : a.frontiers = .ofTree a.flow.graph (.ofGraph a.flow.graph) :=
    congrArg frontiers (ofFunction_spec h).2
  rw [hfrontiers]
  exact Frontiers.ofTree_spec (ofFunction_spec h).1.wellFormed

/-- A node is in the frontier of another when its block is where the dominance of the other's
ends. -/
theorem inFrontier_iff_blocks (h : ofFunction c f = .ok a) {entry x y : BlockId} {u v : Nat}
    (hentry : c.entry f = some entry) (hx : a.flow.nodeOf x = some u)
    (hy : a.flow.nodeOf y = some v) :
    InFrontier a.flow.graph u v ↔ ∃ p, Reached (c.Passes f) entry p ∧ c.Passes f p y ∧
      Dominance (c.Passes f) entry x p ∧ ¬ (x ≠ y ∧ Dominance (c.Passes f) entry x y) := by
  have hd := (ofFunction_spec h).1
  have hne : u ≠ v ↔ x ≠ y := by
    rw [not_iff_not]
    constructor
    · rintro rfl
      rw [← hd.blockAt_of_nodeOf hx, hd.blockAt_of_nodeOf hy]
    · rintro rfl
      exact Option.some.inj (hx.symm.trans hy)
  unfold InFrontier
  rw [hne, hd.dominance_iff hentry hx hy]
  constructor
  · rintro ⟨w, hw, he, hdom, hnot⟩
    obtain ⟨path, hpath⟩ := hw
    have hnode : a.flow.nodeOf (a.flow.blockAt w) = some w := by
      rcases hpath.mem_target hpath.target_mem with rfl | ⟨z, hz⟩
      · rw [hd.blockAt_of_nodeOf (hd.nodeOf_entry hentry)]
        exact hd.nodeOf_entry hentry
      · exact (hd.passes_of_edge hz).2
    have hpass := (hd.passes_of_edge he).1
    rw [hd.blockAt_of_nodeOf hy] at hpass
    exact ⟨_, (hd.reached_iff hentry hnode).mp ⟨path, hpath⟩, hpass,
      (hd.dominance_iff hentry hx hnode).mp hdom, hnot⟩
  · rintro ⟨p, hp, hpass, hdom, hnot⟩
    obtain ⟨i, j, hi, hj, he⟩ := hd.passes_target hpass
    cases hy.symm.trans hj
    exact ⟨i, (hd.reached_iff hentry hi).mpr hp, he, (hd.dominance_iff hentry hx hi).mpr hdom, hnot⟩

/-- For every function that has a flow graph, the frontier of a block that control does not reach is
empty, and that of a block that it reaches holds the reached blocks to which control passes from a
reached block that it dominates, and which it does not strictly dominate itself: dominance as all
paths from the entry tell. -/
theorem ofFunction_frontier_exact (h : ofFunction c f = .ok a) :
    ∃ entry ∈ (c.func f).blocks, c.entry f = some entry ∧ ∀ x ∈ (c.func f).blocks,
      ∃ set, a.frontier? (some x) = some set ∧
        (¬ Reached (c.Passes f) entry x → set.toList = []) ∧
        (Reached (c.Passes f) entry x → ∀ y, y ∈ a.flow.blocksAt set.toList ↔
          Reached (c.Passes f) entry y ∧
            (∃ p, Reached (c.Passes f) entry p ∧ c.Passes f p y ∧
              Dominance (c.Passes f) entry x p) ∧
            ¬ (x ≠ y ∧ Dominance (c.Passes f) entry x y)) := by
  have hd := (ofFunction_spec h).1
  obtain ⟨hfits, hmem⟩ := ofFunction_frontiers h
  obtain ⟨entry, hentry⟩ := hd.entry_exists
  refine ⟨entry, Array.mem_of_getElem? hentry, hentry, fun x hx => ?_⟩
  obtain ⟨u, hu⟩ := hd.nodeOf_exists hx
  refine ⟨a.frontiers.of u, by simp [frontier?, node?, hu], fun hr => ?_, fun hr y => ?_⟩
  · rw [List.eq_nil_iff_forall_not_mem]
    intro v hv
    rw [Bitset.mem_toList, hmem] at hv
    exact hr ((hd.reached_iff hentry hu).mp hv.1)
  · have hu' := (hd.reached_iff hentry hu).mpr hr
    simp only [ControlFlow.blocksAt, List.mem_map, Bitset.mem_toList]
    constructor
    · rintro ⟨v, hv, rfl⟩
      have hin := ((hmem u v).mp hv).2
      obtain ⟨w, he⟩ : ∃ w, a.flow.graph.Edge w v := hin.imp fun _ h => h.2.1
      obtain ⟨p, hp, hpass, hdom, hnot⟩ :=
        (inFrontier_iff_blocks h hentry hu (hd.passes_of_edge he).2).mp hin
      obtain ⟨path, hpath⟩ := hp
      exact ⟨⟨_, hpath.snoc hpass⟩, ⟨p, ⟨path, hpath⟩, hpass, hdom⟩, hnot⟩
    · rintro ⟨hy, ⟨p, hp, hpass, hdom⟩, hnot⟩
      obtain ⟨v, hv⟩ := hd.nodeOf_of_reached hentry hy
      exact ⟨v, (hmem u v).mpr ⟨hu', (inFrontier_iff_blocks h hentry hu hv).mpr
        ⟨p, hp, hpass, hdom, hnot⟩⟩, hd.blockAt_of_nodeOf hv⟩

/-- A function whose second block branches to itself and back to the entry, and a fourth block that
nothing branches to. -/
def circling : Context :=
  { types := []
    constants := #[]
    functions := #[{ name := "f", parent := ⟨0⟩, ret := .void, blocks := #[⟨0⟩, ⟨1⟩, ⟨2⟩, ⟨3⟩] }]
    blocks := #[
      { name := "entry", parent := ⟨0⟩, linked := true, insts := #[⟨0⟩] },
      { name := "loop", parent := ⟨0⟩, linked := true, insts := #[⟨1⟩] },
      { name := "exit", parent := ⟨0⟩, linked := true, insts := #[⟨2⟩] },
      { name := "dead", parent := ⟨0⟩, linked := true, insts := #[⟨3⟩] }]
    insts := #[
      { op := .condBr, name := "", type := .void, parent := some ⟨0⟩
        operands := #[some (.arg ⟨0⟩), some (.block ⟨1⟩), some (.block ⟨2⟩)] },
      { op := .condBr, name := "", type := .void, parent := some ⟨1⟩
        operands := #[some (.arg ⟨0⟩), some (.block ⟨1⟩), some (.block ⟨0⟩)] },
      { op := .ret, name := "", type := .void, parent := some ⟨2⟩ },
      { op := .br, name := "", type := .void, parent := some ⟨3⟩
        operands := #[some (.block ⟨1⟩)] }] }

/-- The dominance of the second block ends at itself and at the entry, and that of the entry at
itself. The block that control does not reach has an empty frontier, although it branches. -/
theorem frontier_exact_circling : ∃ a, ofFunction circling ⟨0⟩ = .ok a ∧
    (a.frontier? (some ⟨1⟩)).map Bitset.toList = some [0, 1] ∧
    (a.frontier? (some ⟨0⟩)).map Bitset.toList = some [0] ∧
    (a.frontier? (some ⟨3⟩)).map Bitset.toList = some [] ∧
    ∃ set, a.frontier? (some ⟨1⟩) = some set ∧ ∀ y, y ∈ a.flow.blocksAt set.toList ↔
      Reached (circling.Passes ⟨0⟩) ⟨0⟩ y ∧
        (∃ p, Reached (circling.Passes ⟨0⟩) ⟨0⟩ p ∧ circling.Passes ⟨0⟩ p y ∧
          Dominance (circling.Passes ⟨0⟩) ⟨0⟩ ⟨1⟩ p) ∧
        ¬ ((⟨1⟩ : BlockId) ≠ y ∧ Dominance (circling.Passes ⟨0⟩) ⟨0⟩ ⟨1⟩ y) := by
  have hrun : (ofFunction circling ⟨0⟩).toOption.map (fun a =>
      [(a.frontier? (some ⟨1⟩)).map Bitset.toList, (a.frontier? (some ⟨0⟩)).map Bitset.toList,
        (a.frontier? (some ⟨3⟩)).map Bitset.toList]) = some [some [0, 1], some [0], some []] := by
    decide +kernel
  cases ha : ofFunction circling ⟨0⟩ with
  | error e => simp [ha, Except.toOption] at hrun
  | ok a =>
    simp only [ha, Except.toOption, Option.map_some, Option.some.injEq, List.cons.injEq, and_true]
      at hrun
    obtain ⟨hloop, hfirst, hdead⟩ := hrun
    obtain ⟨entry, _, hentry, hall⟩ := ofFunction_frontier_exact ha
    cases hentry
    obtain ⟨set, hset, _, hexact⟩ := hall ⟨1⟩ (by decide +kernel)
    have hpass : circling.Passes ⟨0⟩ ⟨0⟩ ⟨1⟩ :=
      ⟨by decide +kernel, [⟨1⟩, ⟨2⟩], by decide +kernel, by decide⟩
    exact ⟨a, rfl, hloop, hfirst, hdead, set, hset, hexact ⟨_, .step hpass (.refl _)⟩⟩

/-- A set of nodes holds the frontiers of its nodes and of blocks, those outside the function left
out. -/
structure ClosedUnderFrontiers (a : FlowAnalysis) (blocks : List (Option BlockId))
    (nodes : Set Nat) :
    Prop where
  lt_size : ∀ v ∈ nodes, v < a.flow.size
  starts : ∀ b ∈ blocks, ∀ set, a.frontier? b = some set → ∀ y ∈ set.toList, y ∈ nodes
  grows : ∀ v ∈ nodes, ∀ y ∈ (a.frontiers.of v).toList, y ∈ nodes

/-- For every function that has a flow graph and every list of blocks, in which blocks may be
missing, foreign or repeated, the work list of the iterated frontier runs empty, what it leaves is
the least set of nodes that holds the frontiers of the listed blocks and of its own nodes, and any
other list with the same blocks of the function leaves the same. -/
theorem iteratedFrontier_least (h : ofFunction c f = .ok a) (blocks : List (Option BlockId)) :
    a.frontiers.WorkedOff (.empty a.flow.size) (blocks.filterMap a.node?).reverse
        (a.iteratedFrontier blocks) ∧
      IsLeast {nodes | a.ClosedUnderFrontiers blocks nodes}
        {v | v ∈ (a.iteratedFrontier blocks).toList} ∧
      ∀ others : List (Option BlockId),
        (∀ b ∈ (c.func f).blocks, some b ∈ blocks ↔ some b ∈ others) →
        a.iteratedFrontier others = a.iteratedFrontier blocks := by
  have hd := (ofFunction_spec h).1
  obtain ⟨hfits, _⟩ := ofFunction_frontiers h
  have hstart : ∀ {v : Nat} {l : List (Option BlockId)}, v ∈ l.filterMap a.node? ↔
      ∃ b ∈ (c.func f).blocks, some b ∈ l ∧ a.flow.nodeOf b = some v := by
    intro v l
    rw [List.mem_filterMap]
    constructor
    · rintro ⟨b, hb, hv⟩
      obtain ⟨x, rfl, hx⟩ := Option.bind_eq_some_iff.mp hv
      exact ⟨x, hd.mem_of_nodeOf hx, hb, hx⟩
    · rintro ⟨b, _, hb, hv⟩
      exact ⟨some b, hb, hv⟩
  have hmem : ∀ y, y ∈ (a.iteratedFrontier blocks).toList ↔
      ∃ b ∈ blocks.filterMap a.node?, Relation.TransGen a.frontiers.Meets b y := by
    intro y
    rw [Bitset.mem_toList, iteratedFrontier, Frontiers.iterated_contains_iff hfits]
  have hsize : a.flow.graph.size = a.flow.size := hd.size
  refine ⟨?_, ⟨⟨fun v hv => ?_, fun b hb set hset y hy => ?_, fun v hv y hy => ?_⟩,
    fun nodes hclosed y hy => ?_⟩, fun others hothers => ?_⟩
  · rw [← hsize]
    exact (Frontiers.iterated_workedOff hfits _).1
  · obtain ⟨b, _, hbv⟩ := (hmem v).mp hv
    obtain ⟨z, _, hz⟩ := Relation.TransGen.tail'_iff.mp hbv
    rw [← hsize]
    exact hfits.members hz
  · obtain ⟨u, hu, rfl⟩ := Option.map_eq_some_iff.mp hset
    exact (hmem y).mpr ⟨u, List.mem_filterMap.mpr ⟨b, hb, hu⟩,
      .single ((Bitset.mem_toList _ _).mp hy)⟩
  · obtain ⟨b, hb, hbv⟩ := (hmem v).mp hv
    exact (hmem y).mpr ⟨b, hb, hbv.tail ((Bitset.mem_toList _ _).mp hy)⟩
  · obtain ⟨v, hv, hvy⟩ := (hmem y).mp hy
    obtain ⟨b, hb, hbv⟩ := List.mem_filterMap.mp hv
    -- Along the chain of frontiers every node is in the closed set.
    induction hvy with
    | single hstep =>
      exact hclosed.starts b hb _ (Option.map_eq_some_iff.mpr ⟨v, hbv, rfl⟩) _
        ((Bitset.mem_toList _ _).mpr hstep)
    | tail hchain hstep ih =>
      exact hclosed.grows _ (ih ((hmem _).mpr ⟨v, hv, hchain⟩)) _
        ((Bitset.mem_toList _ _).mpr hstep)
  · refine Frontiers.iterated_congr hfits fun v => ?_
    rw [hstart, hstart]
    refine exists_congr fun b => and_congr_right fun hb => and_congr_left fun _ => ?_
    exact (hothers b hb).symm

/-- Missing, foreign and repeated blocks do not count. -/
theorem iteratedFrontier_least_circling : ∃ a, ofFunction circling ⟨0⟩ = .ok a ∧
    (a.iteratedFrontier [some ⟨1⟩, none, some ⟨7⟩, some ⟨1⟩]).toList = [0, 1] ∧
    IsLeast {nodes | a.ClosedUnderFrontiers [some ⟨1⟩, none, some ⟨7⟩, some ⟨1⟩] nodes}
      {v | v ∈ (a.iteratedFrontier [some ⟨1⟩, none, some ⟨7⟩, some ⟨1⟩]).toList} ∧
    a.iteratedFrontier [some ⟨1⟩] = a.iteratedFrontier [some ⟨1⟩, none, some ⟨7⟩, some ⟨1⟩] := by
  have hrun : (ofFunction circling ⟨0⟩).toOption.map
      (fun a => (a.iteratedFrontier [some ⟨1⟩, none, some ⟨7⟩, some ⟨1⟩]).toList) =
        some [0, 1] := by
    decide +kernel
  cases ha : ofFunction circling ⟨0⟩ with
  | error e => simp [ha, Except.toOption] at hrun
  | ok a =>
    simp only [ha, Except.toOption, Option.map_some, Option.some.injEq] at hrun
    obtain ⟨_, hleast, hsame⟩ := iteratedFrontier_least ha [some ⟨1⟩, none, some ⟨7⟩, some ⟨1⟩]
    exact ⟨a, rfl, hrun, hleast, hsame [some ⟨1⟩] (by decide +kernel)⟩

end FlowAnalysis

end SsaIr
