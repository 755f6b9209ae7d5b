import SsaIr.Proofs.Promote.WellFormed
import SsaIr.Proofs.Verify.Upkeep

/-!
# Promotion keeps what verification is for

What the verifier accepts is in SSA form: read `Context.Ssa`, which says it in terms of the paths
through the function. `promoteFunction_verified` says that promotion keeps it, that the phis it
inserts have one incoming pair for each predecessor, and that different results keep different
names.
-/

namespace SsaIr

open FlowAnalysis List

namespace Context

/-- Operands are instructions of the function, and definitions dominate their uses: an operand is
defined before in the same block or in another one that every path passes, and what comes into a phi
from a block is defined on every path to the end of that block. -/
structure Ssa (c : Context) (f : FuncId) : Prop where
  live : ∀ {b i j}, b ∈ (c.func f).blocks → i ∈ (c.block b).insts →
    some (.inst j) ∈ (c.inst i).operands → ∃ t ∈ (c.func f).blocks, j ∈ (c.block t).insts
  uses : ∀ {entry b i j pre post}, c.entry f = some entry → Reached (c.Passes f) entry b →
    (c.block b).insts.toList = pre ++ i :: post → (c.inst i).op ≠ .phi →
    some (.inst j) ∈ (c.inst i).operands →
      j ∈ pre ∨ ∃ t, t ≠ b ∧ j ∈ (c.block t).insts ∧ Dominance (c.Passes f) entry t b
  incoming : ∀ {entry b i j t}, c.entry f = some entry → b ∈ (c.func f).blocks →
    i ∈ (c.block b).insts → (c.inst i).op = .phi →
    (some (.inst j), some (.block t)) ∈ (c.inst i).incoming → Reached (c.Passes f) entry t →
      ∃ home, j ∈ (c.block home).insts ∧ Dominance (c.Passes f) entry home t

/-- The incoming pairs of a phi in a block are one for each predecessor of the block. -/
def FilledFrom (c : Context) (f : FuncId) (i : InstId) (b : BlockId) : Prop :=
  ∃ sources : List BlockId, (c.inst i).incoming.map Prod.snd = sources.map (some ∘ .block) ∧
    sources.Nodup ∧ ∀ t, t ∈ sources ↔ c.Passes f t b

namespace Checked

variable {c : Context} {f : FuncId} {a : FlowAnalysis} {b : BlockId} {i : InstId}

theorem ssa (h : c.Checked f a) : c.Ssa f where
  live {b i j} hb hi hj := by
    obtain ⟨w, hw, hlive⟩ := h.live_of_mem hb hi hj
    cases hw
    obtain ⟨t, ht, hparent⟩ := h.block_of_live hlive
    exact ⟨t, ht, h.sound.inst_mem hparent⟩
  uses {entry b i j pre post} hentry hr hsplit hop hj := by
    obtain ⟨v, hv⟩ := (ofFunction_spec h.analysis).1.nodeOf_of_reached hentry hr
    have hb := (ofFunction_spec h.analysis).1.mem_of_nodeOf hv
    have hk : (c.block b).insts.toList[pre.length]? = some i := by
      rw [hsplit, getElem?_append_right le_rfl, Nat.sub_self]
      rfl
    obtain ⟨t, ht, hparent, hdefined⟩ :=
      h.defined_before hb hk hop ((reachable_iff h.analysis hentry hb).mpr hr) hj
    rcases hdefined with ⟨rfl, htake⟩ | ⟨hne, hdom⟩
    · rw [hsplit, take_left] at htake
      exact .inl htake
    · refine .inr ⟨t, hne, h.sound.inst_mem hparent, ?_⟩
      exact (((dominatesBlock_iff h.analysis hentry ht hb).mp hdom).resolve_left
        hne).2
  incoming {entry b i j t} hentry hb hi hop hp hr := by
    obtain ⟨w, hw, hlive⟩ := h.live_of_mem hb hi
      (Array.mem_toList_iff.mp (Site.mem_of_mem_pairs hp).1)
    cases hw
    obtain ⟨home, hhome, hparent⟩ := h.block_of_live hlive
    have hwell := h.operation hb hi
    rw [Site.OperationWell, hop] at hwell
    obtain ⟨bs, hincoming, _⟩ := hwell.incoming
    obtain ⟨v, hv⟩ := (ofFunction_spec h.analysis).1.nodeOf_of_reached hentry hr
    have ht := (ofFunction_spec h.analysis).1.mem_of_nodeOf hv
    have hdom := hincoming.available _ hp t rfl j rfl home hparent
      ((reachable_iff h.analysis hentry ht).mpr hr)
    refine ⟨home, h.sound.inst_mem hparent, ?_⟩
    rcases (dominatesBlock_iff h.analysis hentry hhome ht).mp hdom with rfl | hdom
    · exact dominance_refl home
    · exact hdom.2

theorem filledFrom (h : c.Checked f a) (hb : b ∈ (c.func f).blocks) (hi : i ∈ (c.block b).insts)
    (hop : (c.inst i).op = .phi) : c.FilledFrom f i b := by
  have hwell := h.operation hb hi
  rw [Site.OperationWell, hop] at hwell
  obtain ⟨bs, hincoming, hbs⟩ := hwell.incoming
  refine ⟨bs, hincoming.sources, hincoming.nodup, fun t => (hbs t).trans ?_⟩
  exact mem_predecessors_iff h.analysis hb

end Checked

end Context

namespace Promote.Promoted

variable {c d : Context} {f : FuncId} {a : FlowAnalysis} {b : BlockId} {i : InstId}

section

variable (h : c.Checked f a)
include h

theorem fresh : FreshNames (namesOf c f) (newPhis c a) := by
  have hfunc := (ofFunction_spec h.analysis).1.func
  rw [← hfunc]
  exact (phisOf_spec c a 0 (namesOf c a.flow.func) (cellsOf c a.flow)).2.2

theorem result_cases (hd : Promoted c a d)
    (hi : i ∈ (((d.func f).blocks.toList.flatMap fun b => (d.block b).insts.toList).filter
      fun i => !(d.inst i).type.isVoid)) :
    (i ∈ (((c.func f).blocks.toList.flatMap fun b => (c.block b).insts.toList).filter
        fun i => !(c.inst i).type.isVoid) ∧ (d.inst i).name = (c.inst i).name) ∨
      ∃ k q, (newPhis c a)[k]? = some q ∧ i = ⟨c.insts.size + k⟩ ∧ (d.inst i).name = q.name := by
  obtain ⟨⟨b, hb, hmem⟩, hvoid⟩ := Context.mem_results_iff.mp hi
  rw [(Function.of_code (hd.func f)).1] at hb
  rcases h.program_mem.mp (hd.mem_insts.mp hmem).1 with hold | ⟨k, q, hq, rfl, _⟩
  · obtain ⟨_, hname, htype⟩ := hd.old_inst (h.sound.inst_lt hold)
    exact .inl ⟨Context.mem_results_iff.mpr ⟨⟨b, hb, hold⟩, htype ▸ hvoid⟩, hname⟩
  · refine .inr ⟨k, q, hq, rfl, ?_⟩
    rw [(hd.inst _).2.1, Context.Checked.new_inst hq]

theorem new_name_ne {q : NewPhi} (hq : q ∈ newPhis c a) : q.name ∉ c.resultNames f := by
  intro hmem
  rcases mem_append.mp hmem with hmem | hmem
  · exact (fresh h).fresh q hq (mem_append_left _ hmem)
  · obtain ⟨i, hi, hname⟩ := mem_map.mp hmem
    obtain ⟨⟨b, hb, hi⟩, _⟩ := Context.mem_results_iff.mp hi
    refine (fresh h).fresh q hq (mem_append_right _ (mem_flatMap.mpr
      ⟨b, Array.mem_toList_iff.mpr hb, mem_filter.mpr ⟨mem_map.mpr
        ⟨i, Array.mem_toList_iff.mpr hi, hname⟩, ?_⟩⟩))
    exact decide_eq_true ((fresh h).nonempty q hq)

theorem resultNames_nodup (hd : Promoted c a d)
    (hnames : (c.resultNames f).Nodup) : (d.resultNames f).Nodup := by
  have hargs : (d.func f).args.toList.map (fun x => (d.arg x).name) =
      (c.func f).args.toList.map fun x => (c.arg x).name := by
    rw [(Function.of_code (hd.func f)).2.1]
    refine map_congr_left fun x _ => ?_
    exact (Argument.of_code (hd.arg x)).1
  obtain ⟨hnodup, hinsts, hdisjoint⟩ := nodup_append.mp hnames
  have hinj := inj_on_of_nodup_map hinsts
  unfold Context.resultNames
  rw [hargs]
  refine nodup_append.mpr ⟨hnodup, List.Nodup.map_on (fun i hi j hj heq => ?_)
    ((hd.sound.toPlaced.flatMap_insts_nodup f).filter _), fun name hname name' hname' heq => ?_⟩
  · rcases hd.result_cases h hi with ⟨hi, hin⟩ | ⟨k, q, hq, rfl, hin⟩
    · rcases hd.result_cases h hj with ⟨hj, hjn⟩ | ⟨k, q, hq, rfl, hjn⟩
      · exact hinj hi hj (hin.symm.trans (heq.trans hjn))
      · refine absurd ?_ (new_name_ne h (mem_of_getElem? hq))
        rw [← hjn, ← heq, hin]
        exact mem_append_right _ (mem_map_of_mem hi)
    · rcases hd.result_cases h hj with ⟨hj, hjn⟩ | ⟨k', q', hq', rfl, hjn⟩
      · refine absurd ?_ (new_name_ne h (mem_of_getElem? hq))
        rw [← hin, heq, hjn]
        exact mem_append_right _ (mem_map_of_mem hj)
      · -- Two inserted phis with one name have one place among them.
        rw [index_eq_of_key (fresh h).nodup hq hq' (hin.symm.trans (heq.trans hjn))]
  · obtain ⟨i, hi, rfl⟩ := mem_map.mp hname'
    rcases hd.result_cases h hi with ⟨hi, hin⟩ | ⟨k, q, hq, rfl, hin⟩
    · exact hdisjoint name hname _ (mem_map_of_mem hi) (heq.trans hin)
    · refine new_name_ne h (mem_of_getElem? hq) ?_
      rw [← hin, ← heq]
      exact mem_append_left _ hname

end

end Promote.Promoted

/-- A verified function that promotion accepts is verified afterwards. What was inserted are phis
with one incoming pair for each predecessor of their blocks, reachable or not; operands are
instructions of the function, and definitions dominate their uses; and names of arguments and
results that differed still do. -/
theorem promoteFunction_verified {c d : Context} {f : FuncId} {changed : Bool} (hs : c.Sound)
    (hv : (verifyFunction c f).1 = .ok ()) (hp : promoteFunction c f = (.ok changed, d)) :
    (verifyFunction d f).1 = .ok () ∧
      (∀ b ∈ (d.func f).blocks, ∀ i ∈ (d.block b).insts, i ∉ (c.block b).insts →
        (d.inst i).op = .phi ∧ d.FilledFrom f i b) ∧
      d.Ssa f ∧ ((c.resultNames f).Nodup → (d.resultNames f).Nodup) := by
  have hw := verifyFunction_iff.mp hv
  rcases Promote.promoteFunction_cases hs hw with hsame | ⟨a, h, ⟨d', hd', hpromoted⟩ | hfail⟩
  · obtain ⟨_, rfl⟩ := Prod.mk.inj (hp.symm.trans hsame)
    refine ⟨hv, fun b hb i hi hnot => absurd hi hnot, ?_, id⟩
    cases hempty : (d.func f).blocks.isEmpty with
    | false =>
      obtain ⟨a, ha, hblocks⟩ := hw.body hempty
      exact (hs.checked ha hblocks).ssa
    | true =>
      -- A declaration has no blocks.
      have hnone : ∀ b, b ∉ (d.func f).blocks := by
        rw [Array.isEmpty_iff] at hempty
        rw [hempty]
        exact fun b hb => absurd hb (Array.not_mem_empty b)
      have hentry : ∀ entry, d.entry f ≠ some entry := fun entry heq =>
        hnone entry (Array.mem_of_getElem? heq)
      exact ⟨fun hb => absurd hb (hnone _), fun heq => absurd heq (hentry _),
        fun heq => absurd heq (hentry _)⟩
  · obtain ⟨_, rfl⟩ := Prod.mk.inj (hp.symm.trans hd')
    have hchecked := hpromoted.checked h
    refine ⟨verifyFunction_iff.mpr (hpromoted.wellFormed h hw), fun b hb i hi hnot => ?_,
      hchecked.ssa, hpromoted.resultNames_nodup h⟩
    rcases h.program_mem.mp (hpromoted.mem_insts.mp hi).1 with hold | ⟨k, q, hq, rfl, _⟩
    · exact absurd hold hnot
    · have hop : (d.inst ⟨c.insts.size + k⟩).op = .phi := by
        rw [(hpromoted.inst _).1, Context.Checked.new_inst hq]
      exact ⟨hop, hchecked.filledFrom hb hi hop⟩
  · obtain ⟨text, n, d', hfail⟩ := hfail
    cases (Prod.mk.inj (hp.symm.trans hfail)).1

/-- A function that stores to a cell on one of two ways to a block that loads from it, and a block
that nothing branches to and that branches there too. -/
def branches : Context :=
  (Workshop.run ([.newModule "m", .newFunction ⟨0⟩ "f" (some (.int .w32)) true,
      .addArgument ⟨0⟩ (some .i1) "c", .finalizeSignature ⟨0⟩ false,
        .constInt (some (.int .w32)) 1] ++
    ["entry", "left", "right", "dead", "join"].map (.newBlock ⟨0⟩ · true) ++
    Edit.fill ⟨0⟩ [.alloca (some (.int .w32)) "p",
      .condBr (some (.arg ⟨0⟩)) (some ⟨1⟩) (some ⟨2⟩)] ++
    Edit.fill ⟨1⟩ [.store (some (.const (.ofInt .w32 1))) (some (.inst ⟨0⟩)), .br (some ⟨4⟩)] ++
    Edit.fill ⟨2⟩ [.br (some ⟨4⟩)] ++ Edit.fill ⟨3⟩ [.br (some ⟨4⟩)] ++
    Edit.fill ⟨4⟩ [.load (some (.inst ⟨0⟩)) "v", .ret (some (.inst ⟨6⟩))])).context

/-- The block where the ways meet gets a phi with a pair for each of its three predecessors. -/
theorem promoteFunction_verified_branches : ∃ d,
    promoteFunction branches ⟨0⟩ = (.ok true, d) ∧ (verifyFunction d ⟨0⟩).1 = .ok () ∧
      (d.block ⟨4⟩).insts = #[⟨8⟩, ⟨7⟩] ∧ d.FilledFrom ⟨0⟩ ⟨8⟩ ⟨4⟩ ∧ (d.resultNames ⟨0⟩).Nodup := by
  have hs : branches.Sound := Workshop.sound_run (by decide +kernel)
  have hv : (verifyFunction branches ⟨0⟩).1.toOption = some () := by decide +kernel
  have hp : (promoteFunction branches ⟨0⟩).1.toOption = some true := by decide +kernel
  have hd : ((promoteFunction branches ⟨0⟩).2.block ⟨4⟩).insts = #[⟨8⟩, ⟨7⟩] := by decide +kernel
  have hpromote : promoteFunction branches ⟨0⟩ = (.ok true, (promoteFunction branches ⟨0⟩).2) :=
    Prod.ext (Except.eq_ok_of_toOption hp) rfl
  obtain ⟨hverified, hinserted, _, hnames⟩ :=
    promoteFunction_verified hs (Except.eq_ok_of_toOption hv) hpromote
  refine ⟨_, hpromote, hverified, hd, ?_, hnames (by decide +kernel)⟩
  exact (hinserted ⟨4⟩ (by decide +kernel) ⟨8⟩ (by rw [hd]; simp) (by decide +kernel)).2

end SsaIr
