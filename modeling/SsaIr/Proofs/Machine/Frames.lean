import SsaIr.Machine.Step
import SsaIr.Proofs.Graph.Regular
import SsaIr.Proofs.Machine.Access
import SsaIr.Proofs.Promote.Order
import SsaIr.Proofs.Verify.Replacing

/-!
# Frames of verified functions

A frame of a verified function is steady: it stands in a block that control reaches, past the phis,
its arguments are bound, so is the result of every instruction that is defined at its position, and
whatever is bound fits its type. Read `Frame.Steady` first; `run_meets` says what an instruction
does to a steady frame and `enter_meets` how the next block is entered.
-/

namespace SsaIr

open FlowAnalysis Context Instruction List

variable {n : Nat}

/-- A context as its constructors make it, with a module that the verifier accepts. -/
structure Context.Accepted (c : Context) (m : ModuleId) : Prop where
  regular : c.Regular
  well : c.ModuleWell m

namespace Context.Accepted

variable {c : Context} {m : ModuleId} {f : FuncId} {a : FlowAnalysis} {b : BlockId}

theorem checked (h : c.Accepted m) (hf : f ∈ (c.module m).functions)
    (hb : (c.func f).blocks[0]? = some b) : ∃ a, c.Vetted f a := by
  have hbody : (c.func f).blocks.isEmpty = false :=
    Bool.eq_false_iff.mpr fun hempty => by simp [Array.isEmpty_iff.mp hempty] at hb
  obtain ⟨a, ha, hblocks⟩ := (h.well.functions f hf).2.body hbody
  exact ⟨a, h.regular.toStanding, ha, hblocks⟩

theorem func_mem (h : c.Accepted m) (hf : f ∈ (c.module m).functions) {g : FuncId}
    (hg : Site.Live ⟨c, f, a, b⟩ (.func g)) : g ∈ (c.module m).functions := by
  have hmem := h.regular.func_mem hg.2.2
  rwa [hg.2.1, (h.well.functions f hf).1.1] at hmem

theorem init_well (h : c.Accepted m) {g : GlobalId} (hg : (c.global g).parent = m) {v : Value}
    (hv : (c.global g).init = some v) : c.Initializes m (c.global g).allocated v := by
  have hmem := h.regular.global_mem (Array.lt_size_of_getD (p := fun x => x.init = some v) hv nofun)
  rw [hg] at hmem
  exact (h.well.globals g hmem).init v hv

theorem globalAddress_meets (h : c.Accepted m) {d : DataLayout} {p : Prop} (n : Nat) {g : GlobalId}
    (hg : (c.global g).parent = m) :
    EStateM.Meets (Store.Names (· ∈ (c.module m).functions)) (Stop.Tame p)
      (Access.globalAddress c d n g) fun _ => True := by
  refine Access.globalAddress_meets (Q := fun g => (c.global g).parent = m) ?_ ?_ ?_ n hg
  · intro g f hg hf
    obtain ⟨⟨hparent, hlinked⟩, -⟩ := h.init_well hg hf
    rw [← hparent]
    exact h.regular.func_mem hlinked
  · intro g k hg hk
    exact (h.init_well hg hk).1
  · intro g v hg hv
    exact (h.init_well hg hv).2

end Context.Accepted

/-- The value is one of a type, and of the class considered. -/
def RuntimeValue.Fits (good : RuntimeValue → Prop) (t : Ty) (v : RuntimeValue) : Prop :=
  v.Suits t ∧ good v

/-! ## Control flow and definitions -/

namespace Context.Vetted

variable {c : Context} {f : FuncId} {a : FlowAnalysis} {b w home : BlockId} {d i : InstId}

section

variable (h : c.Vetted f a) (hb : a.reachable (some b) = true) (hbw : c.Passes f b w)
include h hb hbw

theorem reachable_of_passes : w ∈ (c.func f).blocks ∧ a.reachable (some w) = true := by
  obtain ⟨hd, -⟩ := ofFunction_spec h.analysis
  obtain ⟨u, v, -, hv, -⟩ := hd.passes_target hbw
  have hw := hd.mem_of_nodeOf hv
  refine ⟨hw, (reachable_iff h.analysis h.entry hw).mpr ?_⟩
  obtain ⟨p, hp⟩ := (reachable_iff h.analysis h.entry hbw.1).mp hb
  exact ⟨_, hp.snoc hbw⟩

theorem dominates_source (hhome : home ∈ (c.func f).blocks) (hne : home ≠ w)
    (hdom : a.dominatesBlock home w = true) : a.dominatesBlock home b = true := by
  have hreach := (reachable_iff h.analysis h.entry hbw.1).mp hb
  have hw := (h.reachable_of_passes hb hbw).1
  rw [dominatesBlock_iff h.analysis h.entry hhome hw] at hdom
  rw [dominatesBlock_iff h.analysis h.entry hhome hbw.1]
  obtain ⟨-, hdom⟩ := hdom.resolve_left hne
  refine .inr ⟨hreach, fun p hp => ?_⟩
  exact (mem_append.mp (hdom _ (hp.snoc hbw))).resolve_right (by simpa using hne)

end

theorem mem_of_mapM_block? {l : List (Option Value)} {bs : List BlockId}
    (h : l.mapM (fun v => v.bind Value.block?) = some bs) (hw : some (.block w) ∈ l) : w ∈ bs := by
  induction l generalizing bs with
  | nil => cases hw
  | cons v l ih =>
    simp only [mapM_cons, Option.bind_eq_bind, Option.bind_eq_some_iff,
      Option.pure_def, Option.some.injEq] at h
    obtain ⟨x, ⟨y, rfl, hx⟩, xs, hxs, rfl⟩ := h
    rcases mem_cons.mp hw with heq | hmem
    · cases heq
      cases hx
      exact .head _
    · exact .tail _ (ih hxs hmem)

variable (h : c.Vetted f a)
include h

section

variable (hb : b ∈ (c.func f).blocks)
include hb

theorem instruction_at (hi : (c.block b).insts[n]? = some i) :
    Verify.InstructionWell ⟨c, f, a, b⟩ true 0 (c.block b).insts.toList n i :=
  (h.blocks b hb).instructions n i (by rwa [Array.getElem?_toList])

theorem next_lt_of_not_terminator
    (hi : (c.block b).insts[n]? = some i) (hterm : (c.inst i).isTerminator = false) :
    n + 1 < (c.block b).insts.size := by
  obtain ⟨hlt, hget⟩ := Array.getElem?_eq_some_iff.mp hi
  by_contra hge
  have hlast : n = (c.block b).insts.size - 1 := by omega
  have hsome := (h.blocks b hb).terminated
  have hback : c.lastInst b = some i := by
    rw [lastInst, Array.back?_eq_getElem?, ← hlast, hi]
  simp [terminator, hback, hterm] at hsome

theorem terminator_eq
    (hi : (c.block b).insts[n]? = some i) (hterm : (c.inst i).isTerminator = true) :
    c.terminator b = some i ∧ n + 1 = (c.block b).insts.size := by
  have hlast := (h.instruction_at hb hi).last hterm
  rw [Array.length_toList] at hlast
  refine ⟨?_, hlast⟩
  have hback : c.lastInst b = some i := by
    rw [lastInst, Array.back?_eq_getElem?, ← hlast, Nat.add_sub_cancel, hi]
  simp [terminator, hback, hterm]

theorem passes_target (hi : (c.block b).insts[n]? = some i) (hterm : (c.inst i).isTerminator = true)
    (hw : some (.block w) ∈ (c.inst i).targetOperands) : c.Passes f b w := by
  obtain ⟨hd, -⟩ := ofFunction_spec h.analysis
  obtain ⟨bs, hbs, -⟩ := hd.targets b (hd.blocks ▸ hb)
  refine ⟨hb, bs, hbs, ?_⟩
  rw [blockSuccessors, (h.terminator_eq hb hi hterm).1] at hbs
  exact mem_of_mapM_block? hbs hw

theorem isPhi_of_past (hi : (c.block b).insts[n]? = some i) (hn : (c.phis b).length ≤ n) :
    (c.inst i).isPhi = false := by
  rw [← Bool.not_eq_true]
  intro hphi
  obtain ⟨-, hall⟩ := (h.instruction_at hb hi).leading hphi
  -- All instructions up to this one are phis, so that it is one of the leading phis.
  obtain ⟨hlt, hget⟩ := Array.getElem?_eq_some_iff.mp hi
  rw [← Array.length_toList] at hlt
  have hsplit : (c.block b).insts.toList =
      (c.block b).insts.toList.take (n + 1) ++ (c.block b).insts.toList.drop (n + 1) :=
    (take_append_drop _ _).symm
  have hpos : ∀ j ∈ (c.block b).insts.toList.take (n + 1), (c.inst j).isPhi = true := by
    intro j hj
    rcases (Array.mem_take_succ hi).mp hj with hj | rfl
    · exact hall j hj
    · exact hphi
  have hlen : n + 1 ≤ (c.phis b).length := by
    rw [phis, hsplit, takeWhile_append_of_pos hpos, length_append,
      length_take]
    omega
  omega

end

theorem phi_value (hw : w ∈ (c.func f).blocks) (hi : i ∈ c.phis w) (hbw : c.Passes f b w) :
    ∃ v, (c.inst i).incomingFor b = some (some v) ∧ Site.Live ⟨c, f, a, w⟩ v ∧
      c.typeOf v = some (c.inst i).type ∧ Site.Available ⟨c, f, a, w⟩ (some v) b := by
  obtain ⟨k, -, hwell⟩ := h.well hw ⟨(takeWhile_sublist _).subset hi⟩
  have hphi := hwell.well.operation
  rw [Site.OperationWell, isPhi_iff.mp (isPhi_of_mem_phis hi)] at hphi
  obtain ⟨bs, hincoming, hbs⟩ := hphi.incoming
  have hb : b ∈ bs := (hbs b).mpr ((mem_predecessors_iff h.analysis hw).mpr hbw)
  have hsource : some (.block b) ∈ (c.inst i).incoming.map Prod.snd := by
    rw [hincoming.sources]
    exact mem_map_of_mem hb
  obtain ⟨q, hq, hqb⟩ := mem_map.mp hsource
  cases hfind : (c.inst i).incoming.find? fun q => q.2 = some (.block b) with
  | none => exact absurd hqb (by simpa using find?_eq_none.mp hfind q hq)
  | some q =>
    have hq := mem_of_find?_eq_some hfind
    have hqb : q.2 = some (.block b) := by simpa using find?_some hfind
    obtain ⟨v, hv, ht⟩ := Option.bind_eq_some_iff.mp (hincoming.types q hq)
    obtain ⟨u, hu, hlive⟩ := hwell.well.live q.1
      (Array.mem_toList_iff.mp (Site.mem_of_mem_pairs hq).1)
    cases hv.symm.trans hu
    refine ⟨v, ?_, hlive, ht, ?_⟩
    · rw [incomingFor, hfind, Option.map_some, hv]
    · rw [← hv]
      exact hincoming.available q hq b hqb

theorem phis_length_lt (hw : w ∈ (c.func f).blocks) :
    (c.phis w).length < (c.block w).insts.size := by
  obtain ⟨t, hback⟩ := Option.isSome_iff_exists.mp (h.blocks w hw).terminated
  obtain ⟨hlast, hterm⟩ := Option.filter_eq_some_iff.mp hback
  rw [lastInst, ← Array.getLast?_toList, ← phis_append_body] at hlast
  rw [← Array.length_toList, ← phis_append_body]
  cases hbody : c.body w with
  | cons j l => simp
  | nil =>
    rw [hbody, append_nil] at hlast
    have hphi := isPhi_of_mem_phis (mem_of_getLast? hlast)
    rw [isPhi_iff] at hphi
    simp [isTerminator, hphi, Operation.isTerminator, Operation.opcode,
      Opcode.isTerminator] at hterm

theorem phis_entry : c.phis (a.flow.blockAt 0) = [] := by
  rw [eq_nil_iff_forall_not_mem]
  intro i hi
  have hphi := h.operation h.entry_mem ⟨(takeWhile_sublist _).subset hi⟩
  rw [Site.OperationWell, isPhi_iff.mp (isPhi_of_mem_phis hi)] at hphi
  obtain ⟨bs, hincoming, hbs⟩ := hphi.incoming
  have hnone := (h.blocks _ h.entry_mem).entry h.entry
  have hnil : bs = [] := by
    rw [eq_nil_iff_forall_not_mem]
    intro b hb
    exact not_mem_nil (hnone ▸ (hbs b).mp hb)
  have hsources := hincoming.sources
  rw [hnil, map_nil, map_eq_nil_iff] at hsources
  exact hphi.nonempty hsources

theorem defined_at_end {t : InstId}
    (ht : (c.block b).insts[n]? = some t) (hn : n + 1 = (c.block b).insts.size)
    (hd : (c.inst d).parent = some home) (hdt : d ≠ t)
    (hdom : a.dominatesBlock home b = true) : Site.Defined ⟨c, f, a, b⟩ n d := by
  rw [Site.defined_iff h.standing hd]
  by_cases heq : home = b
  · refine .inl ⟨heq, ?_⟩
    subst heq
    have hmem := Array.mem_toList_iff.mpr (h.standing.inst_mem hd)
    have hlist : (c.block home).insts.toList = (c.block home).insts.toList.take (n + 1) := by
      rw [take_of_length_le]
      rw [Array.length_toList, hn]
    rw [hlist, Array.mem_take_succ ht] at hmem
    exact hmem.resolve_right hdt
  · exact .inr ⟨heq, hdom⟩

end Context.Vetted

/-! ## Steady frames -/

/-- A frame of a verified function between two instructions. -/
structure Frame.Steady (c : Context) (f : FuncId) (a : FlowAnalysis) (good : RuntimeValue → Prop)
    (fr : Frame) : Prop where
  func : fr.func = f
  block_mem : fr.block ∈ (c.func f).blocks
  reachable : a.reachable (some fr.block) = true
  phis_le : (c.phis fr.block).length ≤ fr.position
  lt_size : fr.position < (c.block fr.block).insts.size
  arg_bound : ∀ {x : ArgId}, (c.arg x).parent = f → (c.arg x).index.isSome = true →
    ∃ v, fr.args[x.index]? = some v
  arg_fits : ∀ {x : ArgId} {v}, fr.args[x.index]? = some v →
    ∃ t, (c.arg x).type = some t ∧ v.Fits good t
  /-- Results that are not void are bound once they are defined. -/
  inst_bound : ∀ {d : InstId} {home}, (c.inst d).parent = some home → home ∈ (c.func f).blocks →
    (c.inst d).type ≠ .void → Site.Defined ⟨c, f, a, fr.block⟩ fr.position d →
      ∃ v, fr.values[d.index]? = some v
  inst_fits : ∀ {d : InstId} {v}, fr.values[d.index]? = some v → v.Fits good (c.inst d).type

namespace Frame

open Access
open EStateM (Meets)

variable {env : Environment} {m : ModuleId} {f : FuncId} {a : FlowAnalysis}
  {good : RuntimeValue → Prop} {p : Prop} {fr : Frame} {b : BlockId} {i : InstId}

theorem getElem?_bind (fr : Frame) (i : InstId) (v : RuntimeValue) (n : Nat) :
    (fr.bind i v).values[n]? = if i.index = n then some v else fr.values[n]? := by
  simp [Frame.bind, Std.TreeMap.getElem?_insert]

namespace Steady

variable {c : Context}

theorem defined_next (h : c.Vetted f a) {b home : BlockId} {d i : InstId}
    (hi : (c.block b).insts[n]? = some i) (hd : (c.inst d).parent = some home)
    (hdef : Site.Defined ⟨c, f, a, b⟩ (n + 1) d) : d = i ∨ Site.Defined ⟨c, f, a, b⟩ n d := by
  rw [Site.defined_iff h.standing hd] at hdef ⊢
  rcases hdef with ⟨hhome, hmem⟩ | hdom
  · obtain rfl : home = b := hhome
    rcases (Array.mem_take_succ hi).mp hmem with hmem | rfl
    · exact .inr (.inl ⟨rfl, hmem⟩)
    · exact .inl rfl
  · exact .inr (.inr hdom)

section

variable (hfr : Steady c f a good fr) (h : c.Vetted f a)
  (hi : (c.block fr.block).insts[fr.position]? = some i) (hterm : (c.inst i).isTerminator = false)
include hfr h hi hterm

theorem skip (hvoid : (c.inst i).type = .void) :
    Steady c f a good { fr with position := fr.position + 1 } := by
  refine { hfr with
    phis_le := Nat.le_succ_of_le hfr.phis_le
    lt_size := h.next_lt_of_not_terminator hfr.block_mem hi hterm
    inst_bound := fun {d home} hd hhome hne hdef => ?_ }
  rcases defined_next h hi hd hdef with rfl | hdef
  · exact absurd hvoid hne
  · exact hfr.inst_bound hd hhome hne hdef

theorem bind {v : RuntimeValue}
    (hv : v.Fits good (c.inst i).type) :
    Steady c f a good { fr.bind i v with position := fr.position + 1 } := by
  refine { hfr with
    phis_le := Nat.le_succ_of_le hfr.phis_le
    lt_size := h.next_lt_of_not_terminator hfr.block_mem hi hterm
    inst_bound := fun {d home} hd hhome hne hdef => ?_
    inst_fits := fun {d r} hr => ?_ }
  · rw [getElem?_bind]
    rcases defined_next h hi hd hdef with rfl | hdef
    · exact ⟨v, if_pos rfl⟩
    · split
      · exact ⟨v, rfl⟩
      · exact hfr.inst_bound hd hhome hne hdef
  · replace hr : (fr.bind i v).values[d.index]? = some r := hr
    rw [getElem?_bind] at hr
    split at hr
    · rename_i heq
      obtain rfl : i = d := congrArg InstId.mk heq
      cases hr
      exact hv
    · exact hfr.inst_fits hr

end

theorem withStack (hfr : Steady c f a good fr) (stack : Arena) :
    Steady c f a good { fr with stack } :=
  { hfr with }

end Steady

/-! ## Operands -/

/-- The functions that have addresses are functions of the module. -/
abbrev Named (c : Context) (m : ModuleId) : Store → Prop :=
  Store.Names (· ∈ (c.module m).functions)

/-- Reading an operand of a steady frame gives a value that fits its type. The operand is no block
and has a result, or being stuck is tolerated. -/
theorem value_meets (hgood : ∀ v : RuntimeValue, v.Canonical → good v)
    (h : env.context.Accepted m) (hf : f ∈ (env.context.module m).functions)
    (hc : env.context.Vetted f a) (hfr : fr.Steady env.context f a good) {w : Value} {t : Ty}
    (hlive : Site.Live ⟨env.context, f, a, b⟩ w) (ht : env.context.typeOf w = some t)
    (hplain : p → t ≠ .void ∧ t ≠ .label)
    (hdef : ∀ d, w = .inst d → Site.Defined ⟨env.context, f, a, fr.block⟩ fr.position d) :
    Meets (Named env.context m) (Stop.Tame p) (fr.value env (some w))
    (RuntimeValue.Fits good t) := by
  have hthrow : ∀ s, (p → False) → Stop.Tame p (.failure (.raise (.notComputed s))) := by
    intro s hp e he
    cases he
    exact ⟨nofun, fun hp' => absurd hp' hp⟩
  cases w with
  | const k =>
    cases ht
    obtain ⟨hsuits, hcanonical⟩ := RuntimeValue.ofConst_ok k
    exact .pure ⟨hsuits, hgood _ hcanonical⟩
  | func g =>
    obtain ⟨sig, -, rfl⟩ := Option.map_eq_some_iff.mp ht
    exact .bind (functionAddress_meets (h.func_mem hf hlive)) fun r _ =>
      .pure ⟨.inr rfl, hgood _ trivial⟩
  | global g =>
    cases ht
    have hparent : (env.context.global g).parent = m :=
      Eq.trans hlive (h.well.functions f hf).1.1
    exact .bind (h.globalAddress_meets _ hparent) fun r _ => .pure ⟨.inr rfl, hgood _ trivial⟩
  | arg x =>
    obtain ⟨v, hv⟩ := hfr.arg_bound hlive.2.2 hlive.2.1
    obtain ⟨t', ht', hfits⟩ := hfr.arg_fits hv
    cases ht'.symm.trans ht
    have hlook : fr.lookup? (.arg x) = some v := hv
    simp only [Frame.value, hlook]
    exact .pure hfits
  | inst d =>
    cases ht
    cases hlook : fr.lookup? (.inst d) with simp only [Frame.value, hlook]
    | some v => exact .pure (hfr.inst_fits hlook)
    | none =>
      refine .throw (hthrow _ fun hp => ?_)
      obtain ⟨home, hmem, hhome⟩ := hc.block_of_live hlive
      obtain ⟨v, hv⟩ := hfr.inst_bound hhome hmem (hplain hp).1 (hdef d rfl)
      exact nomatch hlook.symm.trans hv
  | block x =>
    cases ht
    exact .throw (hthrow _ fun hp => (hplain hp).2 rfl)

theorem operands_meets {I : Store → Prop} {E : Stop → Prop} {R : Option Value → RuntimeValue → Prop}
    (vs : List (Option Value)) (h : ∀ v ∈ vs, Meets I E (fr.value env v) (R v)) :
    Meets I E (fr.operands env vs) (List.Forall₂ R vs) := by
  induction vs with
  | nil => exact .pure .nil
  | cons v vs ih =>
    refine .bind (h v (.head _)) fun r hr =>
      .bind (ih fun w hw => h w (.tail _ hw)) fun rs hrs => .pure (.cons hr hrs)

/-! ## Entering a block -/

theorem foldl_insert {α : Type} (key : α → Nat) (l : List (α × RuntimeValue))
    (t : Std.TreeMap Nat RuntimeValue) :
    (∀ {n v}, (l.foldl (fun t q => t.insert (key q.1) q.2) t)[n]? = some v →
      t[n]? = some v ∨ ∃ q ∈ l, key q.1 = n ∧ q.2 = v) ∧
    ∀ {n}, ((∃ v, t[n]? = some v) ∨ ∃ q ∈ l, key q.1 = n) →
      ∃ v, (l.foldl (fun t q => t.insert (key q.1) q.2) t)[n]? = some v := by
  induction l generalizing t with
  | nil => exact ⟨fun h => .inl h, fun h => h.resolve_right nofun⟩
  | cons q l ih =>
    obtain ⟨hold, hnew⟩ := ih (t.insert (key q.1) q.2)
    refine ⟨fun {n v} hv => ?_, fun {n} hn => hnew ?_⟩
    · rcases hold hv with hv | ⟨r, hr, hrv⟩
      · rw [Std.TreeMap.getElem?_insert] at hv
        split at hv
        · rename_i hq
          exact .inr ⟨q, .head _, by simpa using hq, Option.some.inj hv⟩
        · exact .inl hv
      · exact .inr ⟨r, .tail _ hr, hrv⟩
    · rw [Std.TreeMap.getElem?_insert]
      by_cases hq : key q.1 = n
      · exact .inl ⟨q.2, if_pos (by simpa using hq)⟩
      · rw [if_neg (by simpa using hq)]
        rcases hn with hn | ⟨r, hr, hrn⟩
        · exact .inl hn
        · rcases mem_cons.mp hr with rfl | hr
          · exact absurd hrn hq
          · exact .inr ⟨r, hr, hrn⟩

theorem foldl_bind (vs : List (InstId × RuntimeValue)) (fr : Frame) :
    vs.foldl (fun fr q => fr.bind q.1 q.2) fr =
      { fr with values := vs.foldl (fun t q => t.insert q.1.index q.2) fr.values } := by
  induction vs generalizing fr with
  | nil => rfl
  | cons q vs ih => exact ih (fr.bind q.1 q.2)

theorem phiValues_meets {I : Store → Prop} {E : Stop → Prop} (good : RuntimeValue → Prop)
    (w : BlockId) (phis : List InstId)
    (h : ∀ i ∈ phis, ∃ v, fr.previous.bind (env.context.inst i).incomingFor = some v ∧
      Meets I E (fr.value env v) (RuntimeValue.Fits good (env.context.inst i).type)) :
    Meets I E (fr.phiValues env w phis) fun vs => vs.map Prod.fst = phis ∧
      ∀ q ∈ vs, q.2.Fits good (env.context.inst q.1).type := by
  induction phis with
  | nil => exact .pure ⟨rfl, nofun⟩
  | cons i phis ih =>
    obtain ⟨v, hv, hmeets⟩ := h i (.head _)
    rw [Frame.phiValues]
    simp only [hv]
    refine .bind hmeets fun r hr =>
      .bind (ih fun j hj => h j (.tail _ hj)) fun vs hvs => .pure ?_
    refine ⟨by rw [map_cons, hvs.1], fun q hq => ?_⟩
    rcases mem_cons.mp hq with rfl | hq
    · exact hr
    · exact hvs.2 q hq

theorem enter_meets (hgood : ∀ v : RuntimeValue, v.Canonical → good v)
    (h : env.context.Accepted m) (hf : f ∈ (env.context.module m).functions)
    (hc : env.context.Vetted f a) (hfr : fr.Steady env.context f a good)
    (hi : (env.context.block fr.block).insts[fr.position]? = some i)
    (hterm : (env.context.inst i).isTerminator = true) {w : BlockId}
    (hbw : env.context.Passes f fr.block w) :
    Meets (Named env.context m) (Stop.Tame p) ({ fr with previous := some fr.block }.enter env w)
      (Steady env.context f a good) := by
  obtain ⟨hw, hreach⟩ := hc.reachable_of_passes hfr.reachable hbw
  have hn := (hc.terminator_eq hfr.block_mem hi hterm).2
  have hprevious : Steady env.context f a good { fr with previous := some fr.block } := { hfr with }
  -- Results that are not void are defined at the terminator, which itself has none.
  have hdefined : ∀ {d home}, (env.context.inst d).parent = some home →
      (env.context.inst d).type ≠ .void → a.dominatesBlock home fr.block = true →
        Site.Defined ⟨env.context, f, a, fr.block⟩ fr.position d := by
    intro d home hd hne hdom
    refine hc.defined_at_end hi hn hd ?_ hdom
    rintro rfl
    exact hne ((h.regular.inst _).type.terminator hterm)
  refine .bind (phiValues_meets good w _ fun j hj => ?_) fun vs hvs => ?_
  · obtain ⟨v, hv, hlive, ht, hav⟩ := hc.phi_value hw hj hbw
    have hsized := (h.regular.inst _).type.phi (isPhi_iff.mp (isPhi_of_mem_phis hj))
    refine ⟨some v, hv, value_meets hgood h hf hc hprevious hlive ht
      (fun _ => ⟨Ty.ne_void_of_isSized hsized, Ty.ne_label_of_isSized hsized⟩) ?_⟩
    rintro d rfl
    obtain ⟨home, hhome, -, -⟩ := hlive
    refine hdefined hhome ?_ (hav d rfl home hhome hfr.reachable)
    rw [Option.some.inj ht]
    exact Ty.ne_void_of_isSized hsized
  · obtain ⟨hold, hnew⟩ := foldl_insert InstId.index vs fr.values
    refine .pure ?_
    rw [foldl_bind]
    refine ⟨hfr.func, hw, hreach, le_rfl, hc.phis_length_lt hw, hfr.arg_bound, hfr.arg_fits,
      ?_, ?_⟩
    · intro d home hd hhome hne hdef
      apply hnew
      rw [Site.defined_iff hc.standing hd] at hdef
      rcases hdef with ⟨hsame, hmem⟩ | ⟨hother, hdom⟩
      · obtain rfl : home = w := hsame
        refine .inr ?_
        have hphi : d ∈ vs.map Prod.fst := by
          rw [hvs.1]
          have htake : (env.context.block home).insts.toList.take
              (env.context.phis home).length = env.context.phis home := by
            rw [← phis_append_body, take_left]
          rwa [← htake]
        obtain ⟨q, hq, rfl⟩ := mem_map.mp hphi
        exact ⟨q, hq, rfl⟩
      · exact .inl (hfr.inst_bound hd hhome hne
          (hdefined hd hne (hc.dominates_source hfr.reachable hbw hhome hother hdom)))
    · intro d v hv
      rcases hold hv with hv | ⟨q, hq, hqd, rfl⟩
      · exact hfr.inst_fits hv
      · obtain rfl : q.1 = d := congrArg InstId.mk hqd
        exact hvs.2 q hq

end Frame

/-! ## Calls -/

/-- A function of the module may be called with the arguments: there are enough, and they fit. -/
structure Context.Takes (c : Context) (m : ModuleId) (good : RuntimeValue → Prop) (g : FuncId)
    (args : List RuntimeValue) : Prop where
  mem : g ∈ (c.module m).functions
  count : ∀ {sig}, (c.func g).signature = some sig → sig.params.length ≤ args.length
  suits : ∀ {sig : Ty} {k : Nat} {t v}, (c.func g).signature = some sig → sig.params[k]? = some t →
    args[k]? = some v → RuntimeValue.Suits v t
  good : ∀ v ∈ args, good v

namespace Frame

open Access
open EStateM (Meets)

variable {env : Environment} {m : ModuleId} {f : FuncId} {a : FlowAnalysis}
  {good : RuntimeValue → Prop} {p : Prop} {fr : Frame} {b : BlockId} {i : InstId}

theorem start_meets (h : env.context.Accepted m) (hc : env.context.Vetted f a)
    {args : List RuntimeValue} (hargs : env.context.Takes m good f args) {entry : BlockId}
    (hentry : env.context.entry f = some entry) (hfunc : fr.func = f) (hvalues : fr.values = {})
    (hbound : fr.args = ((env.context.func f).args.toList.zip args).foldl
      (fun t q => t.insert q.1.index q.2) {}) :
    Meets (Named env.context m) (Stop.Tame p) (fr.enter env entry)
      (Steady env.context f a good) := by
  cases hentry.symm.trans hc.entry
  obtain ⟨sig, hsig⟩ := (h.well.functions f hargs.mem).2.head
  have hcount := hargs.count hsig.signature
  rw [hsig.count] at hcount
  have hphis := hc.phis_entry
  unfold Frame.enter
  simp only [hphis]
  refine .bind (.pure rfl) fun vs hvs => .pure ?_
  subst hvs
  obtain ⟨hold, hnew⟩ := foldl_insert ArgId.index ((env.context.func f).args.toList.zip args) {}
  refine ⟨hfunc, hc.entry_mem, ?_, by simp [hphis], ?_, ?_, ?_, ?_, ?_⟩
  · exact (reachable_iff hc.analysis hc.entry hc.entry_mem).mpr ⟨_, .refl _⟩
  · have hlt := hc.phis_length_lt hc.entry_mem
    rwa [hphis] at hlt
  · intro x hx hindex
    obtain ⟨n, hn⟩ := Option.isSome_iff_exists.mp hindex
    have hget := h.regular.arg_mem hn
    rw [hx] at hget
    obtain ⟨hlt, hget⟩ := Array.getElem?_eq_some_iff.mp hget
    rw [hbound]
    refine hnew (.inr ⟨(x, args[n]), mem_iff_getElem?.mpr ⟨n, ?_⟩, rfl⟩)
    rw [getElem?_zip_eq_some]
    exact ⟨by rw [Array.getElem?_toList, Array.getElem?_eq_getElem hlt, hget],
      List.getElem?_eq_getElem _⟩
  · intro x v hv
    replace hv : fr.args[x.index]? = some v := hv
    rw [hbound] at hv
    rcases hold hv with hv | ⟨q, hq, hqx, rfl⟩
    · simp at hv
    · obtain rfl : q.1 = x := congrArg ArgId.mk hqx
      obtain ⟨k, hk⟩ := mem_iff_getElem?.mp hq
      obtain ⟨harg, hval⟩ := getElem?_zip_eq_some.mp hk
      have hwell := hsig.arguments k q.1 harg
      have hklt : k < sig.params.length := by
        rw [hsig.count]
        exact (List.getElem?_eq_some_iff.mp harg).1
      refine ⟨sig.params[k], ?_, ?_, hargs.good _ (mem_of_getElem? hval)⟩
      · rw [hwell.type, List.getElem?_eq_getElem hklt]
      · exact hargs.suits hsig.signature (List.getElem?_eq_getElem hklt) hval
  · intro d home hd hhome _ hdef
    exfalso
    rw [Site.defined_iff hc.standing hd] at hdef
    rcases hdef with ⟨-, hmem⟩ | ⟨hne, hdom⟩
    · exact absurd hmem (by simp)
    · -- Only the entry block dominates itself.
      replace hdom : a.dominatesBlock home (a.flow.blockAt 0) = true := hdom
      rw [dominatesBlock_iff hc.analysis hc.entry hhome hc.entry_mem] at hdom
      obtain ⟨-, hdom⟩ := hdom.resolve_left hne
      exact hne (mem_singleton.mp (hdom _ (.refl _)))
  · intro d v hv
    replace hv : fr.values[d.index]? = some v := hv
    rw [hvalues] at hv
    simp at hv

end Frame

end SsaIr
