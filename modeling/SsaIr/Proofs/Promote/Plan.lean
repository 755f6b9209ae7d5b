import SsaIr.Proofs.Flow.Joins
import SsaIr.Proofs.Promote.Walk
import SsaIr.Proofs.Verify.Function

/-!
# The plan of a well-formed function

A function that was verified has a plan that fits: its cells are allocations that are loaded from
and stored to with their types only, and its phis go to blocks that have predecessors. Read
`Context.Vetted` and `Context.Checked` first, then `Checked.fits`.
-/

namespace SsaIr

open FlowAnalysis

variable {n : Nat} {v : Value} {x : Cell}

/-- A function with a body was verified in a context where instructions stand in their blocks, and
this is the analysis of its body. -/
structure Context.Vetted (c : Context) (f : FuncId) (a : FlowAnalysis) : Prop where
  standing : c.Standing
  analysis : FlowAnalysis.ofFunction c f = .ok a
  blocks : ∀ b ∈ (c.func f).blocks, Verify.BlockWell ⟨c, f, a, b⟩

/-- A function was verified in a sound context. -/
structure Context.Checked (c : Context) (f : FuncId) (a : FlowAnalysis) : Prop
    extends c.Vetted f a where
  sound : c.Sound

theorem Context.Sound.checked {c : Context} {f : FuncId} {a : FlowAnalysis} (h : c.Sound)
    (ha : FlowAnalysis.ofFunction c f = .ok a)
    (hblocks : ∀ b ∈ (c.func f).blocks, Verify.BlockWell ⟨c, f, a, b⟩) : c.Checked f a :=
  ⟨⟨h.toStanding, ha, hblocks⟩, h⟩

namespace Context.Vetted

open Promote

variable {c : Context} {f : FuncId} {a : FlowAnalysis} {b : BlockId} {i : InstId}

section

variable (h : c.Vetted f a)
include h

theorem analyses : Analyses a c f := by
  obtain ⟨hd, _⟩ := ofFunction_spec h.analysis
  refine ⟨hd.blocks, ?_, hd.size, hd.wellFormed, hd.succsOf_nodup,
    ofFunction_tree h.analysis⟩
  rw [hd.blocks]
  exact h.standing.blocks_nodup f

theorem well (hb : b ∈ (c.func f).blocks) (hi : i ∈ (c.block b).insts) :
    ∃ k, (c.block b).insts.toList[k]? = some i ∧
      Verify.InstructionWell ⟨c, f, a, b⟩ true 0 (c.block b).insts.toList k i := by
  obtain ⟨k, hk⟩ := List.mem_iff_getElem?.mp hi.val
  exact ⟨k, hk, (h.blocks b hb).instructions k i hk⟩

theorem operation (hb : b ∈ (c.func f).blocks) (hi : i ∈ (c.block b).insts) :
    Site.OperationWell ⟨c, f, a, b⟩ (c.inst i) := by
  obtain ⟨k, _, hwell⟩ := h.well hb hi
  exact hwell.well.operation

theorem live_of_mem (hb : b ∈ (c.func f).blocks) (hi : i ∈ (c.block b).insts) {v : Option Value}
    (hv : v ∈ (c.inst i).operands) : ∃ w, v = some w ∧ Site.Live ⟨c, f, a, b⟩ w := by
  obtain ⟨k, _, hwell⟩ := h.well hb hi
  exact hwell.well.live v hv

theorem live (hb : b ∈ (c.func f).blocks) (hi : i ∈ (c.block b).insts)
    (hn : n < (c.inst i).operands.size) :
    ∃ v, (c.inst i).operand n = some v ∧ Site.Live ⟨c, f, a, b⟩ v := by
  obtain ⟨v, hv, hlive⟩ := h.live_of_mem hb hi (Array.getElem_mem hn)
  refine ⟨v, ?_, hlive⟩
  rwa [Instruction.operand, Array.getD_of_lt _ hn]

omit h in
theorem tracks_of_live (hlive : Site.Live ⟨c, f, a, b⟩ v)
    (hlocal : v.IsLocal) : c.Tracks v := by
  cases v with
  | arg x => exact Array.lt_size_of_getD (p := fun y => y.type.isSome = true) hlive.1 nofun
  | inst d =>
    obtain ⟨home, hhome, _⟩ := hlive
    exact inst_lt_of_parent hhome
  | const | block | func | global => exact hlocal.elim

theorem entry : c.entry f = some (a.flow.blockAt 0) := by
  obtain ⟨hd, _⟩ := ofFunction_spec h.analysis
  obtain ⟨entry, hentry⟩ := hd.entry_exists
  rw [hentry, hd.blockAt_of_nodeOf (hd.nodeOf_entry hentry)]

theorem entry_mem : a.flow.blockAt 0 ∈ (c.func f).blocks :=
  Array.mem_of_getElem? h.entry

theorem preds_entry : a.flow.graph.predsOf 0 = [] := by
  have hnone := (h.blocks _ h.entry_mem).entry h.entry
  have hpos : 0 < a.flow.size := by
    rw [ControlFlow.size, ← h.analyses.size]
    exact h.analyses.wellFormed.pos
  simp only [predecessors, node?, Option.bind_some,
    h.analyses.nodeOf_blockAt hpos, ControlFlow.blocksAt, List.map_eq_nil_iff] at hnone
  exact hnone

theorem block_of_live {d : InstId} (hlive : Site.Live ⟨c, f, a, b⟩ (.inst d)) :
    ∃ t ∈ (c.func f).blocks, (c.inst d).parent = some t := by
  obtain ⟨t, hparent, hfunc, hlinked⟩ := hlive
  have hmem := h.standing.block_mem hlinked
  have hfunc : (c.block t).parent = f := hfunc
  rw [hfunc] at hmem
  exact ⟨t, hmem, hparent⟩

end

end Context.Vetted

/-! ## Cells -/

namespace Context.Checked

open Promote

variable {c : Context} {f : FuncId} {a : FlowAnalysis} {b : BlockId} {i : InstId}

/-- What is known of a cell before renaming starts. -/
structure IsCell (c : Context) (a : FlowAnalysis) (x : Cell) : Prop where
  mem : x.alloca ∈ (c.block (a.flow.blockAt 0)).insts
  op : (c.inst x.alloca).op = .alloca x.type
  primitive : x.type.isPrimitive = true
  promotable : isPromotable c x.alloca = true
  stores : x.stores = storeBlocks c a.flow x.alloca
  stack : x.stack = [some (.const (.undef x.type))]

theorem isCell_of_cell? (hcell : cell? c a.flow i = some x) :
    x.alloca = i ∧ (i ∈ (c.block (a.flow.blockAt 0)).insts → IsCell c a x) := by
  unfold cell? at hcell
  split at hcell
  · rename_i t hop
    split at hcell
    · rename_i hprop
      rw [Bool.and_eq_true] at hprop
      cases hcell
      exact ⟨rfl, fun hi => ⟨hi, hop, hprop.1, hprop.2, rfl, rfl⟩⟩
    · cases hcell
  · cases hcell

theorem isCell_of_mem (hx : x ∈ cellsOf c a.flow) : IsCell c a x := by
  obtain ⟨i, hi, hcell⟩ := List.mem_filterMap.mp hx
  exact (isCell_of_cell? hcell).2 (Array.mem_toList_iff.mp hi)

theorem allocas_nodup (h : c.Placed) : ((cellsOf c a.flow).map (·.alloca)).Nodup := by
  rw [cellsOf, List.map_filterMap]
  refine (h.insts_nodup _).filterMap fun i j d hi hj => ?_
  obtain ⟨x, hx, rfl⟩ := Option.map_eq_some_iff.mp hi
  obtain ⟨y, hy, hyx⟩ := Option.map_eq_some_iff.mp hj
  rw [← (isCell_of_cell? hx).1, ← (isCell_of_cell? hy).1, hyx]

theorem alloca_type (h : c.Checked f a) (hx : IsCell c a x) :
    (c.inst x.alloca).type = .pointer x.type := by
  have hop := h.operation h.entry_mem hx.mem
  rw [Site.OperationWell, hx.op] at hop
  exact hop.2.2.1

theorem sized_of_primitive {t : Ty} (h : t.isPrimitive = true) : t.isSized = true := by
  cases t <;> first | rfl | cases h

theorem IsCell.slot (h : c.Sound) (hx : IsCell c a x) {u : Use}
    (hu : c.slot u = some (.inst x.alloca)) :
    (c.inst u.user).op = .load ∨ (c.inst u.user).op = .store ∧ u.index = 1 := by
  have hmem : u ∈ (c.inst x.alloca).users :=
    (h.linked.mem_users (v := .inst x.alloca) trivial u).mpr hu
  have hall := List.all_eq_true.mp hx.promotable u hmem
  split at hall
  · rename_i hop
    exact .inl hop
  · rename_i hop
    exact .inr ⟨hop, of_decide_eq_true hall⟩
  · cases hall

end Context.Checked

namespace Promote

def newPhis (c : Context) (a : FlowAnalysis) : List NewPhi :=
  phisOf c a 0 (namesOf c a.flow.func) (cellsOf c a.flow)

def planOf (c : Context) (a : FlowAnalysis) : Plan where
  program := addPhis c (newPhis c a)
  cells := cellsOf c a.flow
  phis := (phiIds c.insts.size (newPhis c a)).reverse

end Promote

namespace Context.Checked

open Promote

variable {c : Context} {f : FuncId} {a : FlowAnalysis} {b : BlockId} {i : InstId}

section

variable (h : c.Checked f a)
include h

theorem iteratedFrontier_edge {bs : List (Option BlockId)} {v : Nat}
    (hv : v ∈ (a.iteratedFrontier bs).toList) : ∃ u, a.flow.graph.Edge u v := by
  obtain ⟨hfits, hexact⟩ := ofFunction_frontiers h.analysis
  rw [Bitset.mem_toList, iteratedFrontier,
    Frontiers.iterated_contains_iff hfits] at hv
  obtain ⟨w, _, hchain⟩ := hv
  obtain ⟨x, _, hx⟩ := Relation.TransGen.tail'_iff.mp hchain
  obtain ⟨_, u, _, hedge, _⟩ := (hexact x v).mp hx
  exact ⟨u, hedge⟩

omit h in
theorem newPhis_cases {p : NewPhi} (hp : p ∈ newPhis c a) :
    ∃ x, (cellsOf c a.flow)[p.cell]? = some x ∧ p.type = x.type ∧ p.block ∈ frontierOf a x := by
  obtain ⟨k, x, hx, hcell, hrest⟩ :=
    (phisOf_spec c a 0 (namesOf c a.flow.func) (cellsOf c a.flow)).1 p hp
  rw [Nat.zero_add] at hcell
  exact ⟨x, hcell ▸ hx, hrest⟩

/-- A new phi stands for a cell of the function, has its type, and goes to the block of a node that
has a predecessor. -/
theorem newPhis_spec {p : NewPhi} (hp : p ∈ newPhis c a) :
    ∃ x v, (cellsOf c a.flow)[p.cell]? = some x ∧ p.type = x.type ∧ v < a.flow.size ∧
      p.block = a.flow.blockAt v ∧ ∃ u, a.flow.graph.Edge u v := by
  obtain ⟨x, hx, htype, hblock⟩ := newPhis_cases hp
  obtain ⟨v, hv, hvb⟩ := List.mem_map.mp hblock
  obtain ⟨u, hu⟩ := h.iteratedFrontier_edge hv
  exact ⟨x, v, hx, htype, h.analyses.target_lt hu, hvb.symm, u, hu⟩

theorem newPhis_block_lt {p : NewPhi} (hp : p ∈ newPhis c a) : p.block.index < c.blocks.size := by
  obtain ⟨x, v, _, _, hv, hblock, _⟩ := h.newPhis_spec hp
  rw [hblock]
  exact h.sound.block_lt (h.analyses.blockAt_mem hv)

theorem program_sound : (planOf c a).program.Sound :=
  (addPhis_spec h.sound fun _ hp => h.newPhis_block_lt hp).1

theorem program_block (b : BlockId) :
    (planOf c a).program.phis b = c.phis b ++ newIn b c.insts.size (newPhis c a) ∧
      (planOf c a).program.body b = c.body b :=
  (addPhis_spec h.sound fun _ hp => h.newPhis_block_lt hp).2 b

theorem program_mem : i ∈ ((planOf c a).program.block b).insts ↔
      i ∈ (c.block b).insts ∨ ∃ k p, (newPhis c a)[k]? = some p ∧ i = ⟨c.insts.size + k⟩ ∧
        p.block = b := by
  obtain ⟨hphis, hbody⟩ := h.program_block b
  rw [← Array.mem_toList_iff, ← Context.phis_append_body, hphis, hbody, List.mem_append,
    List.mem_append, mem_newIn, ← Array.mem_toList_iff, ← Context.phis_append_body c b,
    List.mem_append]
  exact or_right_comm

end

theorem addPhis_frame (c : Context) (ps : List NewPhi) : (addPhis c ps).functions = c.functions ∧
    (addPhis c ps).args = c.args ∧ (addPhis c ps).globals = c.globals := by
  induction ps generalizing c with
  | nil => exact ⟨rfl, rfl, rfl⟩
  | cons p ps ih => exact ih (addPhi c p)

theorem program_func (g : FuncId) : (planOf c a).program.func g = c.func g := by
  rw [func, func, planOf, (addPhis_frame c _).1]

theorem program_arg (x : ArgId) : (planOf c a).program.arg x = c.arg x := by
  rw [arg, arg, planOf, (addPhis_frame c _).2.1]

theorem program_global (g : GlobalId) : (planOf c a).program.global g = c.global g := by
  rw [global, global, planOf, (addPhis_frame c _).2.2]

theorem program_typeOf (hv : v.IsLocal → c.Tracks v) :
    (planOf c a).program.typeOf v = c.typeOf v := by
  cases v with
  | const k => rfl
  | arg x => rw [typeOf, typeOf, program_arg]
  | inst d => rw [typeOf, typeOf, planOf, inst_addPhis_old (hv trivial)]
  | block b => rfl
  | func g => rw [typeOf, typeOf, program_func]
  | global g => rw [typeOf, typeOf, program_global]

theorem program_tracks (hlocal : v.IsLocal) (hv : c.Tracks v) : (planOf c a).program.Tracks v := by
  cases v with
  | inst d =>
    show d.index < (addPhis c (newPhis c a)).insts.size
    rw [addPhis_size]
    exact hv.trans_le (Nat.le_add_right _ _)
  | arg x =>
    show x.index < (addPhis c (newPhis c a)).args.size
    rwa [(addPhis_frame c _).2.1]
  | const | block | func | global => exact hlocal.elim

theorem planOf_inst_old (hi : i.index < c.insts.size) : (planOf c a).program.inst i = c.inst i :=
  inst_addPhis_old hi

theorem new_inst {k : Nat} {q : NewPhi} (hk : (newPhis c a)[k]? = some q) :
    (planOf c a).program.inst ⟨c.insts.size + k⟩ =
      { op := .phi, name := q.name, type := q.type, parent := some q.block } :=
  inst_addPhis_new hk

theorem program_inst_of_read (hv : some v ∈ ((planOf c a).program.inst i).operands) :
    i.index < c.insts.size ∧ (planOf c a).program.inst i = c.inst i := by
  rcases inst_addPhis_cases c (newPhis c a) i with hi | ⟨k, q, hk, rfl⟩ | hi
  · exact ⟨hi, inst_addPhis_old hi⟩
  · rw [new_inst hk] at hv
    cases Array.not_mem_empty _ hv
  · have hnone : (planOf c a).program.inst i = default := Array.getD_of_not_lt _ hi.not_gt _
    rw [hnone] at hv
    cases Array.not_mem_empty _ hv

theorem program_inst_old (h : c.Checked f a) (hi : i ∈ ((planOf c a).program.block b).insts)
    (hop : ((planOf c a).program.inst i).op ≠ .phi) :
    i ∈ (c.block b).insts ∧ (planOf c a).program.inst i = c.inst i := by
  rcases h.program_mem.mp hi with hi | ⟨k, p, hp, rfl, _⟩
  · exact ⟨hi, inst_addPhis_old (h.sound.inst_lt hi)⟩
  · refine absurd ?_ hop
    rw [new_inst hp]

theorem planOf_typeAt (hx : (cellsOf c a.flow)[n]? = some x) :
    (planOf c a).typeAt n = x.type := by
  show (((cellsOf c a.flow)[n]?).map (·.type)).getD .void = x.type
  rw [hx]
  rfl

theorem typeOf_cell (h : c.Checked f a) {v : Option Value} (hn : (planOf c a).cellOf v = some n) :
    ∃ x, (cellsOf c a.flow)[n]? = some x ∧ v = some (.inst x.alloca) ∧ IsCell c a x ∧
      c.typeOf? v = some (.pointer ((planOf c a).typeAt n)) := by
  obtain ⟨x, hx, rfl⟩ := Plan.cellOf_eq_some hn
  have hcell := isCell_of_mem (List.mem_of_getElem? hx)
  refine ⟨x, hx, rfl, hcell, ?_⟩
  rw [planOf_typeAt hx, ← h.alloca_type hcell]
  rfl

theorem holds_stored (h : c.Checked f a) (hb : b ∈ (c.func f).blocks)
    (hi : i ∈ (c.block b).insts) (hop : (c.inst i).op = .store)
    (hn : (planOf c a).cellOf ((c.inst i).operand 1) = some n) :
    ∃ v, (c.inst i).operand 0 = some v ∧ (planOf c a).Holds n v := by
  have hwell := h.operation hb hi
  rw [Site.OperationWell, hop] at hwell
  obtain ⟨hsize, _, htype, _⟩ := hwell
  obtain ⟨v, hv, hlive⟩ := h.live hb hi (n := 0) (by omega)
  obtain ⟨x, hx, _, hcell, hptr⟩ := h.typeOf_cell hn
  have htracks : v.IsLocal → c.Tracks v := Vetted.tracks_of_live hlive
  have hpointee : c.typeOf? ((c.inst i).operand 0) = some ((planOf c a).typeAt n) := by
    have hload : c.typeOf? ((c.inst i).operand 0) =
        (c.typeOf? ((c.inst i).operand 1)).bind Ty.pointee? := htype
    rw [hload, hptr]
    rfl
  rw [hv] at hpointee
  refine ⟨v, hv, (program_typeOf htracks).trans hpointee,
    fun hlocal => program_tracks hlocal (htracks hlocal), ?_⟩
  -- A store of a cell's address would make the cell not promotable.
  cases hplain : (planOf c a).cellOf (some v) with
  | none => rfl
  | some m =>
    obtain ⟨y, _, hy, hycell, _⟩ := h.typeOf_cell hplain
    cases hy
    have hslot : c.slot ⟨i, 0⟩ = some (.inst y.alloca) := hv
    rcases IsCell.slot h.sound hycell hslot with hload | ⟨_, hindex⟩
    · rw [hop] at hload
      cases hload
    · cases hindex

theorem planOf_phiOf : (planOf c a).phiOf i = some n ↔
    ∃ k p, (newPhis c a)[k]? = some p ∧ i = ⟨c.insts.size + k⟩ ∧ p.cell = n :=
  lookup_phiIds

theorem fits (h : c.Checked f a) : (planOf c a).Fits f where
  linked := h.program_sound.linked
  alloca {x} hx := by
    have hcell := isCell_of_mem hx
    rw [planOf_inst_old (h.sound.inst_lt hcell.mem), hcell.op]
  load {b i n} hb hi hop hn := by
    obtain ⟨hi', heq⟩ := h.program_inst_old hi (by rw [hop]; decide)
    rw [heq] at hop hn ⊢
    have hwell := h.operation (program_func f ▸ hb) hi'
    rw [Site.OperationWell, hop] at hwell
    obtain ⟨_, _, _, _, hptr⟩ := h.typeOf_cell hn
    have htype : some (c.inst i).type = (c.typeOf? ((c.inst i).operand 0)).bind Ty.pointee? :=
      hwell.2.2
    rw [hptr] at htype
    exact Option.some.inj htype
  store {b i n} hb hi hop hn := by
    obtain ⟨hi', heq⟩ := h.program_inst_old hi (by rw [hop]; decide)
    rw [heq] at hop hn ⊢
    exact h.holds_stored (program_func f ▸ hb) hi' hop hn
  phi {i n} hn := by
    obtain ⟨k, p, hp, rfl, rfl⟩ := planOf_phiOf.mp hn
    obtain ⟨x, v, hx, htype, _⟩ := h.newPhis_spec (List.mem_of_getElem? hp)
    have hinst := new_inst hp
    refine ⟨(List.getElem?_eq_some_iff.mp hx).1, ?_, ?_, ?_⟩
    · rw [hinst]
    · rwa [hinst, planOf_typeAt hx]
    · show c.insts.size + k < (addPhis c (newPhis c a)).insts.size
      rw [addPhis_size]
      have hlt := (List.getElem?_eq_some_iff.mp hp).1
      omega

end Context.Checked

end SsaIr
