import SsaIr.Proofs.Flow.Joins
import SsaIr.Proofs.Promote.Preserved

/-!
# What promotion changes, and nothing else

Promotion takes out the allocations that are only loaded from and stored to, with these loads and
stores, and puts in a phi for each of them wherever stored values meet. Read `Context.Removed` and
`Context.Joins` first, which speak of the program alone, then `Context.PromotedTo`.
-/

namespace SsaIr

open FlowAnalysis List

namespace Context

variable {c d : Context} {f : FuncId}

/-- An allocation of a primitive type in the entry block, all of whose uses are loads from it and
stores to it. -/
structure Promotable (c : Context) (f : FuncId) (i : InstId) : Prop where
  entry : ∃ b, c.entry f = some b ∧ i ∈ (c.block b).insts
  op : ∃ t : Ty, (c.inst i).op = .alloca t ∧ t.isPrimitive = true
  uses : ∀ j n, (c.inst j).operand n = some (.inst i) →
    (c.inst j).op = .load ∨ (c.inst j).op = .store ∧ n = 1

/-- The instruction is such an allocation, or one of its loads and stores. -/
def Removed (c : Context) (f : FuncId) (i : InstId) : Prop :=
  c.Promotable f i ∨ ∃ x n, c.Promotable f x ∧ (c.inst i).operand n = some (.inst x)

def FrontierOf (c : Context) (f : FuncId) (x y : BlockId) : Prop :=
  ∃ entry, c.entry f = some entry ∧ Reached (c.Passes f) entry x ∧
    ∃ p, Reached (c.Passes f) entry p ∧ c.Passes f p y ∧ Dominance (c.Passes f) entry x p ∧
      ¬(x ≠ y ∧ Dominance (c.Passes f) entry x y)

/-- The block is in the iterated dominance frontier of the blocks that store to an allocation. -/
def Joins (c : Context) (f : FuncId) (x : InstId) (b : BlockId) : Prop :=
  ∃ s ∈ (c.func f).blocks, (∃ j ∈ (c.block s).insts, (c.inst j).op = .store ∧
    (c.inst j).operand 1 = some (.inst x)) ∧ Relation.TransGen (c.FrontierOf f) s b

open Classical in
/-- The second program is the first without what is removed, and with new phis after the phis of its
blocks: one for each promoted allocation and each block where its stored values meet. All other
instructions are as they were, except that other values take the place of removed loads. -/
structure PromotedTo (c : Context) (f : FuncId) (d : Context) (phis : BlockId → List InstId)
    (cell : InstId → InstId) : Prop where
  blocks : ∀ g, (d.func g).blocks = (c.func g).blocks
  insts : ∀ b, (d.block b).insts.toList = c.phis b ++ phis b ++ (c.body b).filter (¬c.Removed f ·)
  nodup : ∀ b, (phis b).Nodup
  phi : ∀ b, ∀ i ∈ phis b, c.insts.size ≤ i.index ∧ (d.inst i).op = .phi ∧ c.Promotable f (cell i) ∧
    c.Joins f (cell i) b ∧ (c.inst (cell i)).op = .alloca (d.inst i).type
  exactly_one : ∀ b x, c.Promotable f x → c.Joins f x b → ∃! i, i ∈ phis b ∧ cell i = x
  kept : ∀ i, i.index < c.insts.size → ¬c.Removed f i →
    (d.inst i).op = (c.inst i).op ∧ (d.inst i).name = (c.inst i).name ∧
      (d.inst i).type = (c.inst i).type ∧ (d.inst i).operands.size = (c.inst i).operands.size ∧
      ∀ n, (d.inst i).operand n = (c.inst i).operand n ∨
        ∃ l, (c.inst i).operand n = some (.inst l) ∧ (c.inst l).op = .load ∧ c.Removed f l
  unread : ∀ i j, ¬c.Removed f i → some (.inst j) ∈ (d.inst i).operands → ¬c.Removed f j

end Context

namespace Context.Checked

open Promote

variable {c d : Context} {f : FuncId} {a : FlowAnalysis} {b : BlockId} {i : InstId} {x : Cell}

/-! ## Cells and the blocks where they meet -/

section

variable (h : c.Checked f a)
include h

theorem promotable_iff : c.Promotable f i ↔ ∃ x ∈ cellsOf c a.flow, x.alloca = i := by
  constructor
  · rintro ⟨⟨b, hb, hi⟩, ⟨t, hop, hprim⟩, huses⟩
    cases h.entry.symm.trans hb
    have hall : isPromotable c i = true := by
      refine all_eq_true.mpr fun u hu => ?_
      have hslot := (h.sound.linked.mem_users (v := .inst i) trivial u).mp hu
      rcases huses u.user u.index hslot with hload | ⟨hstore, hindex⟩
      · rw [hload]
      · rw [hstore]
        exact decide_eq_true hindex
    have hcell : cell? c a.flow i =
        some ⟨i, t, storeBlocks c a.flow i, [some (.const (.undef t))]⟩ := by
      rw [cell?, hop]
      exact if_pos (by rw [hprim, hall]; rfl)
    exact ⟨_, mem_filterMap.mpr ⟨i, Array.mem_toList_iff.mpr hi, hcell⟩, rfl⟩
  · rintro ⟨x, hx, rfl⟩
    have hcell := isCell_of_mem hx
    exact ⟨⟨_, h.entry, hcell.mem⟩, ⟨x.type, hcell.op, hcell.primitive⟩,
      fun j n hread => IsCell.slot (u := ⟨j, n⟩) h.sound hcell hread⟩

theorem mem_stores (hx : IsCell c a x) : b ∈ x.stores ↔
    b ∈ (c.func f).blocks ∧ ∃ j ∈ (c.block b).insts, (c.inst j).op = .store ∧
      (c.inst j).operand 1 = some (.inst x.alloca) := by
  have hd := (ofFunction_spec h.analysis).1
  have husers := h.sound.linked.mem_users (v := .inst x.alloca) trivial
  rw [hx.stores, storeBlocks, mem_eraseDups, mem_filterMap]
  constructor
  · rintro ⟨u, hu, hstore⟩
    have hslot := (husers u).mp hu
    split at hstore
    · next b' hop hparent =>
        obtain ⟨hnode, rfl⟩ : (a.flow.nodeOf b').isSome = true ∧ b' = b := by simpa using hstore
        obtain ⟨v, hv⟩ := Option.isSome_iff_exists.mp hnode
        refine ⟨hd.mem_of_nodeOf hv, u.user, h.sound.inst_mem hparent, hop, ?_⟩
        rcases IsCell.slot h.sound hx hslot with hload | ⟨-, hindex⟩
        · cases hop.symm.trans hload
        · exact hindex ▸ hslot
    · cases hstore
  · rintro ⟨hb, j, hj, hop, hptr⟩
    obtain ⟨v, hv⟩ := hd.nodeOf_exists hb
    refine ⟨⟨j, 1⟩, (husers ⟨j, 1⟩).mpr hptr, ?_⟩
    simp [hop, h.sound.mem_parent hj, hv]

theorem frontierOf_iff {x y : BlockId} {u : Nat} (hx : a.flow.nodeOf x = some u) :
    c.FrontierOf f x y ↔ ∃ v, a.flow.nodeOf y = some v ∧ a.frontiers.Meets u v := by
  have hd := (ofFunction_spec h.analysis).1
  have hmeets := (ofFunction_frontiers h.analysis).2 u
  constructor
  · rintro ⟨entry, hentry, hr, p, hp⟩
    obtain ⟨-, v, -, hv, -⟩ := hd.passes_target hp.2.1
    exact ⟨v, hv, (hmeets v).mpr ⟨(hd.reached_iff hentry hx).mpr hr,
      (inFrontier_iff_blocks h.analysis hentry hx hv).mpr ⟨p, hp⟩⟩⟩
  · rintro ⟨v, hv, hmeet⟩
    obtain ⟨hr, hin⟩ := (hmeets v).mp hmeet
    exact ⟨_, h.entry, (hd.reached_iff h.entry hx).mp hr,
      (inFrontier_iff_blocks h.analysis h.entry hx hv).mp hin⟩

theorem nodeOf_of_chain {u v : Nat}
    (hchain : Relation.TransGen a.frontiers.Meets u v) :
    a.flow.nodeOf (a.flow.blockAt v) = some v := by
  obtain ⟨z, -, hz⟩ := Relation.TransGen.tail'_iff.mp hchain
  obtain ⟨-, p, -, hedge, -⟩ := ((ofFunction_frontiers h.analysis).2 z v).mp hz
  exact ((ofFunction_spec h.analysis).1.passes_of_edge hedge).2

theorem transGen_frontierOf_iff {x y : BlockId} {u : Nat}
    (hx : a.flow.nodeOf x = some u) : Relation.TransGen (c.FrontierOf f) x y ↔
      ∃ v, a.flow.nodeOf y = some v ∧ Relation.TransGen a.frontiers.Meets u v := by
  constructor
  · intro hchain
    induction hchain with
    | single hstep =>
      obtain ⟨v, hv, hmeet⟩ := (h.frontierOf_iff hx).mp hstep
      exact ⟨v, hv, .single hmeet⟩
    | tail _ hstep ih =>
      obtain ⟨w, hw, hchain⟩ := ih
      obtain ⟨v, hv, hmeet⟩ := (h.frontierOf_iff hw).mp hstep
      exact ⟨v, hv, hchain.tail hmeet⟩
  · rintro ⟨v, hv, hchain⟩
    induction hchain generalizing y with
    | single hstep => exact .single ((h.frontierOf_iff hx).mpr ⟨_, hv, hstep⟩)
    | tail hchain hstep ih =>
      have hw := h.nodeOf_of_chain hchain
      exact (ih hw).tail ((h.frontierOf_iff hw).mpr ⟨_, hv, hstep⟩)

theorem mem_frontierOf (hx : IsCell c a x) : b ∈ frontierOf a x ↔ c.Joins f x.alloca b := by
  have hd := (ofFunction_spec h.analysis).1
  have hfits := (ofFunction_frontiers h.analysis).1
  have hmem (v : Nat) : v ∈ (a.iteratedFrontier (x.stores.map some)).toList ↔
      ∃ s ∈ x.stores, ∃ u, a.flow.nodeOf s = some u ∧ Relation.TransGen a.frontiers.Meets u v := by
    rw [Bitset.mem_toList, iteratedFrontier, Frontiers.iterated_contains_iff hfits]
    simp only [filterMap_map, mem_filterMap]
    constructor
    · rintro ⟨u, ⟨s, hs, hu⟩, hchain⟩
      exact ⟨s, hs, u, hu, hchain⟩
    · rintro ⟨s, hs, u, hu, hchain⟩
      exact ⟨u, ⟨s, hs, hu⟩, hchain⟩
  simp only [frontierOf, ControlFlow.blocksAt, mem_map, hmem]
  constructor
  · rintro ⟨v, ⟨s, hs, u, hu, hchain⟩, rfl⟩
    obtain ⟨hblock, hstore⟩ := (h.mem_stores hx).mp hs
    exact ⟨s, hblock, hstore,
      (h.transGen_frontierOf_iff hu).mpr ⟨v, h.nodeOf_of_chain hchain, hchain⟩⟩
  · rintro ⟨s, hblock, hstore, hchain⟩
    obtain ⟨u, hu⟩ := hd.nodeOf_exists hblock
    obtain ⟨v, hv, hchain⟩ := (h.transGen_frontierOf_iff hu).mp hchain
    exact ⟨v, ⟨s, (h.mem_stores hx).mpr ⟨hblock, hstore⟩, u, hu, hchain⟩, hd.blockAt_of_nodeOf hv⟩

end

/-! ## What is retired -/

theorem removed_of_loads (h : c.Checked f a) (hi : (planOf c a).loads i = true) :
    (c.inst i).op = .load ∧ c.Removed f i := by
  obtain ⟨hop, n, hn⟩ := Plan.loads_iff.mp hi
  obtain ⟨x, hx, hread⟩ := Plan.cellOf_eq_some hn
  have hold := (program_inst_of_read (Instruction.mem_operands_iff.mpr ⟨0, hread⟩)).2
  rw [hold] at hop hread
  exact ⟨hop, .inr ⟨_, 0, h.promotable_iff.mpr ⟨x, mem_of_getElem? hx, rfl⟩, hread⟩⟩

theorem retired_iff (h : c.Checked f a) (hd : Promoted c a d) :
    i ∈ retired c a ↔ c.Removed f i := by
  have hcell {x : Cell} (hx : x ∈ cellsOf c a.flow) : c.Promotable f x.alloca :=
    h.promotable_iff.mpr ⟨x, hx, rfl⟩
  constructor
  · intro hi
    rcases mem_append.mp hi with hi | hi
    · obtain ⟨hmem, hretires⟩ := mem_filter.mp hi
      obtain ⟨b, -, hmem⟩ := h.mem_instsOf.mp hmem
      unfold Plan.retires at hretires
      dsimp only at hretires
      split at hretires
      · next hop => exact (h.removed_of_loads (by rw [Plan.loads, hop, hretires]; rfl)).2
      · next hop =>
          obtain ⟨-, hold⟩ := h.program_inst_old hmem (by rw [hop]; decide)
          rw [hold, Bool.and_eq_true] at hretires
          obtain ⟨n, hn⟩ := Option.isSome_iff_exists.mp hretires.1
          obtain ⟨x, hx, hread⟩ := Plan.cellOf_eq_some hn
          exact .inr ⟨_, 1, hcell (mem_of_getElem? hx), hread⟩
      · cases hretires
    · obtain ⟨x, hx, rfl⟩ := mem_map.mp hi
      exact .inl (hcell hx)
  · have halloca {j : InstId} (hj : c.Promotable f j) : j ∈ retired c a := by
      obtain ⟨x, hx, rfl⟩ := h.promotable_iff.mp hj
      exact mem_append_right _ (mem_map_of_mem hx)
    rintro (hi | ⟨j, n, hj, hread⟩)
    · exact halloca hi
    · -- What stays reads no retired instruction, and renaming keeps the addresses of cells.
      by_contra hstays
      have hmem : some (.inst j) ∈ (c.inst i).operands :=
        Instruction.mem_operands_iff.mpr ⟨n, hread⟩
      have hlt : i.index < c.insts.size :=
        Array.lt_size_of_getD (p := fun x => some (.inst j) ∈ x.operands) hmem
          (Array.not_mem_empty _)
      have hkeeps : resolve ((planOf c a).walk a).1.subst (.inst j) = .inst j := by
        refine resolve_of_not_mem fun y hy heq => ?_
        obtain ⟨t, hop, -⟩ := hj.op
        have hload := (h.removed_of_loads (Plan.walk_loads _ _ y hy)).1
        cases heq
        cases hop.symm.trans hload
      refine hd.unread hstays ?_ (halloca hj)
      rw [Promoted.operands_old h hd hlt hstays]
      exact Array.mem_map.mpr ⟨_, hmem, congrArg some hkeeps⟩

/-! ## New phis -/

theorem newPhis_nodup (h : c.Checked f a) :
    ((newPhis c a).map fun q => (q.cell, q.block)).Nodup := by
  have hnodup (x : Cell) : (frontierOf a x).Nodup := by
    refine List.Nodup.map_on (fun u hu v hv heq => ?_) ((Bitset.toList_sorted _).imp Nat.ne_of_lt)
    obtain ⟨s, hs⟩ := h.iteratedFrontier_edge hu
    obtain ⟨t, ht⟩ := h.iteratedFrontier_edge hv
    exact h.analyses.blockAt_inj (h.analyses.target_lt hs) (h.analyses.target_lt ht) heq
  have hlots (index : Nat) (names : List String) (xs : List Cell) :
      ((phisOf c a index names xs).map fun q => (q.cell, q.block)).Nodup := by
    induction xs generalizing index names with
    | nil => exact .nil
    | cons x xs ih =>
      obtain ⟨hblocks, hall, -⟩ :=
        phisIn_spec c index x.type (c.inst x.alloca).name names (frontierOf a x)
      rw [phisOf, map_append]
      refine List.Nodup.append (.of_map Prod.snd ?_) (ih _ _) fun y hy hy' => ?_
      · rw [map_map]
        exact (congrArg List.Nodup hblocks).mpr (hnodup x)
      · obtain ⟨q, hq, rfl⟩ := mem_map.mp hy
        obtain ⟨r, hr, heq⟩ := mem_map.mp hy'
        obtain ⟨k, -, -, hcell, -⟩ := (phisOf_spec c a (index + 1) _ xs).1 r hr
        have hsame := (hall q hq).1
        have := congrArg Prod.fst heq
        omega
  exact hlots 0 _ _

def phiCell (c : Context) (a : FlowAnalysis) (i : InstId) : InstId :=
  match (newPhis c a)[i.index - c.insts.size]? with
  | some q => (((cellsOf c a.flow)[q.cell]?).map (·.alloca)).getD default
  | none => default

theorem phiCell_new {k : Nat} {q : NewPhi} (hk : (newPhis c a)[k]? = some q)
    (hx : (cellsOf c a.flow)[q.cell]? = some x) : phiCell c a ⟨c.insts.size + k⟩ = x.alloca := by
  rw [phiCell, Nat.add_sub_cancel_left, hk]
  show (((cellsOf c a.flow)[q.cell]?).map (·.alloca)).getD default = _
  rw [hx]
  rfl

theorem promotedTo (h : c.Checked f a) (hd : Promoted c a d) :
    c.PromotedTo f d (fun b => newIn b c.insts.size (newPhis c a)) (phiCell c a) where
  blocks g := (Function.of_code (hd.func g)).1
  insts b := by
    rw [hd.insts_split h b]
    exact congrArg _ (filter_congr fun i _ =>
      decide_eq_decide.mpr (not_congr (h.retired_iff hd)))
  nodup b := by
    have hnodup := hd.sound.insts_nodup b
    rw [hd.insts_split h b] at hnodup
    exact (nodup_append.mp (nodup_append.mp hnodup).1).2.1
  phi b i hi := by
    obtain ⟨k, q, hk, rfl, rfl⟩ := mem_newIn.mp hi
    obtain ⟨x, hx, htype, hblock⟩ := newPhis_cases (mem_of_getElem? hk)
    have hmem := mem_of_getElem? hx
    have hinst := hd.inst ⟨c.insts.size + k⟩
    rw [new_inst hk] at hinst
    rw [phiCell_new hk hx, hinst.2.2, htype]
    exact ⟨Nat.le_add_right _ _, hinst.1, h.promotable_iff.mpr ⟨x, hmem, rfl⟩,
      (h.mem_frontierOf (isCell_of_mem hmem)).mp hblock, (isCell_of_mem hmem).op⟩
  exactly_one b i hi hjoin := by
    obtain ⟨x, hmem, rfl⟩ := h.promotable_iff.mp hi
    obtain ⟨n, hx⟩ := mem_iff_getElem?.mp hmem
    obtain ⟨q, hq, hcell, hblock⟩ := (phisOf_spec c a 0 (namesOf c a.flow.func)
      (cellsOf c a.flow)).2.1 n x b hx ((h.mem_frontierOf (isCell_of_mem hmem)).mpr hjoin)
    rw [Nat.zero_add] at hcell
    obtain ⟨k, hk⟩ := mem_iff_getElem?.mp hq
    refine ⟨⟨c.insts.size + k⟩, ⟨mem_newIn.mpr ⟨k, q, hk, rfl, hblock⟩,
      phiCell_new hk (hcell ▸ hx)⟩, ?_⟩
    rintro _ ⟨hj, hsame⟩
    obtain ⟨k', q', hk', rfl, hblock'⟩ := mem_newIn.mp hj
    obtain ⟨y, -, hy, -⟩ := h.newPhis_spec (mem_of_getElem? hk')
    rw [phiCell_new hk' hy] at hsame
    have hcells := index_eq_of_key (allocas_nodup h.sound.toPlaced) hy hx hsame
    rw [index_eq_of_key h.newPhis_nodup hk' hk (by rw [hcells, hcell, hblock, hblock'])]
  kept i hlt hi := by
    have hstays := mt (h.retired_iff hd).mp hi
    obtain ⟨hop, hname, htype⟩ := hd.old_inst hlt
    have hoperands := Promoted.operands_old h hd hlt hstays
    refine ⟨hop, hname, htype, by rw [hoperands, Array.size_map], fun n => ?_⟩
    have hoperand : (d.inst i).operand n =
        ((c.inst i).operand n).map (resolve ((planOf c a).walk a).1.subst) := by
      rw [Instruction.operand, hoperands]
      exact Array.getD_map _ _ n none
    rw [hoperand]
    cases hv : (c.inst i).operand n with
    | none => exact .inl rfl
    | some v =>
      by_cases hkey : ∃ y ∈ ((planOf c a).walk a).1.subst, v = .inst y.1
      · obtain ⟨y, hy, rfl⟩ := hkey
        exact .inr ⟨y.1, rfl, h.removed_of_loads (Plan.walk_loads _ _ y hy)⟩
      · push Not at hkey
        exact .inl (congrArg some (resolve_of_not_mem hkey))
  unread i j hi hread := by
    rw [← h.retired_iff hd] at hi ⊢
    exact hd.unread hi hread

end Context.Checked

/-- Promotion of the cells of a verified function changes what it has to and nothing else: it says
whether there was an allocation to promote, and without one, or if a block branches to the entry
block, it leaves all as it is. -/
theorem promoteCells_changes_exactly {c : Context} {f : FuncId} {a : FlowAnalysis}
    (ha : FlowAnalysis.ofFunction c f = .ok a) :
    (a.flow.graph.predsOf 0 ≠ [] → promoteCells a c = (.ok false, c)) ∧
    ∀ changed d, c.Sound → (verifyFunction c f).1 = .ok () → promoteCells a c = (.ok changed, d) →
      (changed = true ↔ ∃ i, c.Promotable f i) ∧ (changed = false → d = c) ∧
      (changed = true → ∃ phis cell, c.PromotedTo f d phis cell) := by
  refine ⟨fun hpreds => ?_, fun changed d hs hv hp => ?_⟩
  · unfold promoteCells
    rw [if_pos (by simpa using hpreds)]
  · obtain ⟨entry, hentry⟩ := (FlowAnalysis.ofFunction_spec ha).1.entry_exists
    have hbody : (c.func f).blocks.isEmpty = false := by
      rw [Array.isEmpty_eq_false_iff_exists_mem]
      exact ⟨entry, Array.mem_of_getElem? hentry⟩
    obtain ⟨a', ha', hblocks⟩ := (verifyFunction_iff.mp hv).body hbody
    obtain rfl : a = a' := Except.ok.inj (ha.symm.trans ha')
    have h : c.Checked f a := hs.checked ha hblocks
    by_cases hcells : Promote.cellsOf c a.flow = []
    · obtain ⟨hchanged, rfl⟩ := Prod.mk.inj (hp.symm.trans (Promote.promoteCells_of_nil h hcells))
      cases hchanged
      refine ⟨⟨nofun, fun ⟨i, hi⟩ => ?_⟩, fun _ => rfl, nofun⟩
      obtain ⟨x, hx, -⟩ := h.promotable_iff.mp hi
      rw [hcells] at hx
      cases hx
    · obtain ⟨m, hm, hok, herror⟩ := h.promoteCells_spec hcells
      by_cases hunread : Promote.UnreadInOrder m (Promote.retired c a)
      · obtain ⟨d', hd', herased⟩ := hok hunread
        obtain ⟨hchanged, rfl⟩ := Prod.mk.inj (hp.symm.trans hd')
        cases hchanged
        obtain ⟨x, hx⟩ := exists_mem_of_ne_nil _ hcells
        exact ⟨⟨fun _ => ⟨x.alloca, h.promotable_iff.mpr ⟨x, hx, rfl⟩⟩, fun _ => rfl⟩, nofun,
          fun _ => ⟨_, _, h.promotedTo (hm.promoted hunread herased)⟩⟩
      · obtain ⟨text, n, d', hfail⟩ := herror hunread
        cases (Prod.mk.inj (hp.symm.trans hfail)).1

/-- The cell of the function is promoted, and the block where the ways meet gets its phi. -/
theorem promoteCells_changes_exactly_branches :
    ∃ a d, FlowAnalysis.ofFunction branches ⟨0⟩ = .ok a ∧
    promoteCells a branches = (.ok true, d) ∧ (d.block ⟨4⟩).insts = #[⟨8⟩, ⟨7⟩] ∧
    (∃ i, branches.Promotable ⟨0⟩ i) ∧ ∃ phis cell, branches.PromotedTo ⟨0⟩ d phis cell := by
  have hs : branches.Sound := Workshop.sound_run (by decide +kernel)
  have hv : (verifyFunction branches ⟨0⟩).1.toOption = some () := by decide +kernel
  have hrun : (FlowAnalysis.ofFunction branches ⟨0⟩).toOption.map (fun a =>
      ((promoteCells a branches).1.toOption, ((promoteCells a branches).2.block ⟨4⟩).insts)) =
        some (some true, #[⟨8⟩, ⟨7⟩]) := by
    decide +kernel
  cases ha : FlowAnalysis.ofFunction branches ⟨0⟩ with
  | error e => simp [ha, Except.toOption] at hrun
  | ok a =>
    simp only [ha, Except.toOption, Option.map_some, Option.some.injEq, Prod.mk.injEq] at hrun
    have hp : promoteCells a branches = (.ok true, (promoteCells a branches).2) :=
      Prod.ext (Except.eq_ok_of_toOption hrun.1) rfl
    obtain ⟨hchanged, -, hto⟩ := (promoteCells_changes_exactly ha).2 _ _ hs
      (Except.eq_ok_of_toOption hv) hp
    exact ⟨a, _, rfl, hp, hrun.2, hchanged.mp rfl, hto rfl⟩

end SsaIr
