import SsaIr.Proofs.Promote.Result

/-!
# Promotion keeps functions well formed

A verified function whose cells were promoted is verified again. Read `Promoted.blockWell` first:
its parts say that the operands are live, that definitions dominate their uses, and that phis have
an incoming pair for each predecessor.
-/

namespace SsaIr

open Context.Checked FlowAnalysis Instruction Context List

namespace Context.Checked

open Promote

variable {c : Context} {f : FuncId} {a : FlowAnalysis} {b : BlockId} {i : InstId}

theorem body_not_phi (h : c.Checked f a) (hb : b ∈ (c.func f).blocks) (hi : i ∈ c.body b) :
    (c.inst i).isPhi = false := by
  obtain ⟨pre, post, hbody⟩ := append_of_mem hi
  have hlist := phis_append_body c b
  rw [hbody] at hlist
  have hk : (c.block b).insts.toList[(c.phis b).length + pre.length]? = some i := by
    rw [← hlist, getElem?_append_right (Nat.le_add_right _ _), Nat.add_sub_cancel_left,
      getElem?_append_right le_rfl, Nat.sub_self]
    rfl
  have hwell := (h.blocks b hb).instructions _ _ hk
  cases hphi : (c.inst i).isPhi with
  | false => rfl
  | true =>
    -- The first instruction after the head is no phi, and stands here or before.
    have hlead := (hwell.leading hphi).2
    cases pre with
    | nil =>
      have hfirst : (c.inst i).isPhi = false := body_head (by rw [hbody]; rfl)
      exact hphi.symm.trans hfirst
    | cons j pre =>
      have hfirst : (c.inst j).isPhi = false := body_head (by rw [hbody]; rfl)
      have hj : (c.inst j).isPhi = true := hlead j (by
        rw [← hlist, take_length_add_append]
        exact mem_append_right _ (.head _))
      exact hj.symm.trans hfirst

theorem ends (h : c.Checked f a) (hb : b ∈ (c.func f).blocks) : ∃ init t,
    (c.block b).insts.toList = init ++ [t] ∧ c.terminator b = some t ∧
      (c.inst t).isTerminator = true ∧ ∀ i ∈ init, (c.inst i).isTerminator = false := by
  obtain ⟨t, ht⟩ := Option.isSome_iff_exists.mp (h.blocks b hb).terminated
  obtain ⟨hlast, hterm⟩ := Option.filter_eq_some_iff.mp ht
  have hlist : (c.block b).insts.toList.getLast? = some t := by
    rwa [Array.getLast?_toList]
  obtain ⟨init, hinit⟩ := getLast?_eq_some_iff.mp hlist
  refine ⟨init, t, hinit, ht, hterm, fun i hi => ?_⟩
  cases hi' : (c.inst i).isTerminator with
  | false => rfl
  | true =>
    obtain ⟨pre, post, rfl⟩ := append_of_mem hi
    have hk : (c.block b).insts.toList[pre.length]? = some i := by
      rw [hinit, append_assoc, getElem?_append_right le_rfl, Nat.sub_self]
      rfl
    have hlen := ((h.blocks b hb).instructions _ _ hk).last hi'
    rw [hinit] at hlen
    simp only [length_append, length_cons, length_nil] at hlen
    omega

end Context.Checked

namespace Promote.Promoted

variable {c d : Context} {f : FuncId} {a : FlowAnalysis} {b : BlockId} {i : InstId} {k : Nat}
  {q : NewPhi}

/-! ## Blocks -/

theorem old_inst (hd : Promoted c a d) (hi : i.index < c.insts.size) :
    (d.inst i).op = (c.inst i).op ∧ (d.inst i).name = (c.inst i).name ∧
      (d.inst i).type = (c.inst i).type := by
  rw [← planOf_inst_old hi]
  exact hd.inst i

theorem heads (h : c.Checked f a) (hi : i ∈ c.phis b ++ newIn b c.insts.size (newPhis c a)) :
    ((planOf c a).program.inst i).op = .phi := by
  rcases mem_append.mp hi with hi | hi
  · rw [planOf_inst_old (h.sound.inst_lt ⟨(takeWhile_sublist _).subset hi⟩)]
    exact isPhi_iff.mp (isPhi_of_mem_phis hi)
  · obtain ⟨k, q, hk, rfl, _⟩ := mem_newIn.mp hi
    rw [new_inst hk]

theorem new_not_retired (h : c.Checked f a) (hk : (newPhis c a)[k]? = some q) :
    (⟨c.insts.size + k⟩ : InstId) ∉ retired c a :=
  phi_not_retired h (by rw [new_inst hk])

theorem insts_split (h : c.Checked f a) (hd : Promoted c a d) (b : BlockId) :
    (d.block b).insts.toList = (c.phis b ++ newIn b c.insts.size (newPhis c a)) ++
      (c.body b).filter (· ∉ retired c a) := by
  obtain ⟨hphis, hbody⟩ := h.program_block b
  rw [hd.insts, ← phis_append_body, hphis, hbody, filter_append]
  congr 1
  refine filter_eq_self.mpr fun i hi => ?_
  exact decide_eq_true (phi_not_retired h (heads h hi))

theorem ends (h : c.Checked f a) (hd : Promoted c a d) (hb : b ∈ (c.func f).blocks) :
    ∃ init t, (d.block b).insts.toList = init ++ [t] ∧ c.terminator b = some t ∧
      d.terminator b = some t ∧ t ∈ (c.block b).insts ∧
        ∀ i ∈ init, (d.inst i).isTerminator = false := by
  obtain ⟨init, t, hlist, hterm, hlast, hinit⟩ := h.ends hb
  have ht : t ∈ (c.block b).insts := by
    rw [← Array.mem_toList_iff, hlist]
    exact mem_append_right _ (.head _)
  have hold := planOf_inst_old (a := a) (h.sound.inst_lt ht)
  have hstays : t ∉ retired c a := terminator_not_retired h (by rw [hold]; exact hlast)
  -- A terminator is no phi, so that it is the end of the body.
  have hbody : ∃ rest, c.body b = rest ++ [t] ∧ init = c.phis b ++ rest := by
    rw [← phis_append_body] at hlist
    rcases eq_nil_or_concat' (c.body b) with hnil | ⟨rest, s, hrest⟩
    · rw [hnil, append_nil] at hlist
      have hmem : t ∈ c.phis b := hlist ▸ mem_append_right _ (.head _)
      rw [isTerminator,
        isPhi_iff.mp (isPhi_of_mem_phis hmem)] at hlast
      exact absurd hlast (by decide)
    · rw [hrest, ← append_assoc] at hlist
      obtain ⟨hinit', hst⟩ := append_inj' hlist rfl
      cases hst
      exact ⟨rest, hrest, hinit'.symm⟩
  obtain ⟨rest, hrest, rfl⟩ := hbody
  have hsplit := hd.insts_split h b
  have hkept : [t].filter (· ∉ retired c a) = [t] := by simp [hstays]
  rw [hrest, filter_append, hkept, ← append_assoc] at hsplit
  refine ⟨_, t, hsplit, hterm, ?_, ht, fun i hi => ?_⟩
  · have hback : d.lastInst b = some t := by
      rw [lastInst, ← Array.getLast?_toList, hsplit]
      simp
    rw [terminator, hback, Option.filter_some, isTerminator,
      (hd.old_inst (h.sound.inst_lt ht)).1]
    exact if_pos hlast
  · rw [isTerminator]
    rcases mem_append.mp hi with hi | hi
    · rw [(hd.inst i).1, heads h hi]
      rfl
    · have hmem : i ∈ c.phis b ++ rest := mem_append_right _ (mem_filter.mp hi).1
      have hlt : i.index < c.insts.size := h.sound.inst_lt (b := b) (by
        rw [← Array.mem_toList_iff, hlist]
        exact mem_append_left _ hmem)
      rw [(hd.old_inst hlt).1]
      exact hinit i hmem

/-! ## Operands -/

theorem phiOf_old (hi : i.index < c.insts.size) : (planOf c a).phiOf i = none := by
  cases hphi : (planOf c a).phiOf i with
  | none => rfl
  | some n =>
    obtain ⟨k, q, _, rfl, _⟩ := planOf_phiOf.mp hphi
    exact absurd hi (Nat.not_lt.mpr (Nat.le_add_right _ _))

theorem walk_sane (h : c.Checked f a) : (planOf c a).Sane ((planOf c a).walk a).1.subst ∧
      ((planOf c a).walk a).1.FillsPhis (planOf c a) := by
  obtain ⟨_, _, _, _, hwalk⟩ := rename_spec h.fits h.analyses_program (h.walking_start #[])
  exact ⟨hwalk.sane, hwalk.fills⟩

theorem operands_old (h : c.Checked f a) (hd : Promoted c a d) (hlt : i.index < c.insts.size)
    (hi : i ∉ retired c a) : (d.inst i).operands =
      (c.inst i).operands.map (Option.map (resolve ((planOf c a).walk a).1.subst)) := by
  rw [hd.operands hi, Renaming.operands, planOf_inst_old hlt,
    (walk_sane h).2.filled_eq_nil (phiOf_old hlt),
    Array.append_empty]

theorem operands_new (hd : Promoted c a d) (h : c.Checked f a)
    (hk : (newPhis c a)[k]? = some q) : (d.inst ⟨c.insts.size + k⟩).operands =
      (((planOf c a).walk a).1.filled ⟨c.insts.size + k⟩).toArray := by
  rw [hd.operands (new_not_retired h hk), Renaming.operands, new_inst hk]
  rw [Array.map_empty, Array.empty_append]

theorem resolve_of_ne {σ : List (InstId × Value)} {v : Value} (hv : ∀ j, v ≠ .inst j) :
    resolve σ v = v :=
  resolve_of_not_mem fun x _ => hv x.1

/-! ## Control flow -/

section

variable (h : c.Checked f a) (hd : Promoted c a d)
include h hd

theorem replaces (hb : b ∈ (c.func f).blocks) (hi : i ∈ (c.block b).insts)
    (hstays : i ∉ retired c a) :
    Site.Replaces ⟨c, f, a, b⟩ ⟨d, f, a, b⟩
      (Option.map (resolve ((planOf c a).walk a).1.subst)) (c.inst i) (d.inst i) where
  ret := (Function.of_code (hd.func f)).2.2.2.1
  op := (hd.old_inst (h.sound.inst_lt hi)).1
  type := (hd.old_inst (h.sound.inst_lt hi)).2.2
  parent := by
    rw [h.sound.mem_parent hi, hd.sound.mem_parent (hd.mem_insts.mpr ⟨?_, hstays⟩)]
    exact h.program_mem.mpr (.inl hi)
  operands := operands_old h hd (h.sound.inst_lt hi) hstays
  none := rfl
  const k := congrArg some (resolve_of_ne fun j hj => by cases hj)
  block t := congrArg some (resolve_of_ne fun j hj => by cases hj)
  types v hv := by
    obtain ⟨w, rfl, hlive⟩ := h.live_of_mem hb hi hv
    show d.typeOf (resolve _ w) = c.typeOf w
    rw [hd.typeOf_eq, (walk_sane h).1.typeOf_resolve]
    exact program_typeOf (Vetted.tracks_of_live hlive)

theorem blockSuccessors_eq (hb : b ∈ (c.func f).blocks) :
    d.blockSuccessors b = c.blockSuccessors b := by
  obtain ⟨_, t, hlist, hterm, hterm', ht, _⟩ := hd.ends h hb
  have hstays : t ∉ retired c a := by
    refine (hd.mem_insts (b := b).mp ?_).2
    rw [← Array.mem_toList_iff, hlist]
    exact mem_append_right _ (.head _)
  rw [blockSuccessors, blockSuccessors, hterm, hterm']
  dsimp only
  rw [instSuccessors, instSuccessors,
    (hd.replaces h hb ht hstays).targetOperands (h.operation hb ht)]

theorem analysis : ofFunction d f = .ok a := by
  have hold := h.analysis
  obtain ⟨flow, hflow, hok⟩ := Except.bind_eq_ok_iff.mp hold
  refine Except.bind_eq_ok_iff.mpr ⟨flow, ?_, hok⟩
  exact ControlFlow.ofFunction_congr (Function.of_code (hd.func f)).1
    (fun b hb => hd.blockSuccessors_eq h hb) hflow

end

/-! ## Live operands -/

/-- The value is an instruction of the function with its phis, or another value that is live in
it. -/
def Rooted (c : Context) (f : FuncId) (a : FlowAnalysis) (w : Value) : Prop :=
  (∃ j u, w = .inst j ∧ u < a.flow.size ∧
    j ∈ ((planOf c a).program.block (a.flow.blockAt u)).insts) ∨
  (∀ j, w ≠ .inst j) ∧ Site.Live ⟨c, f, a, a.flow.blockAt 0⟩ w

section

variable (h : c.Checked f a)
include h

theorem rooted_of_live {w : Value} (hw : Site.Live ⟨c, f, a, b⟩ w) : Rooted c f a w := by
  cases w with
  | inst j =>
    obtain ⟨u, hu, _, hmem⟩ := h.home_of_live hw
    exact .inl ⟨j, u, rfl, hu, hmem⟩
  | const | arg | block | func | global => exact .inr ⟨nofun, hw⟩

theorem new_mem (hk : (newPhis c a)[k]? = some q) : ∃ v < a.flow.size, q.block = a.flow.blockAt v ∧
      (⟨c.insts.size + k⟩ : InstId) ∈ ((planOf c a).program.block (a.flow.blockAt v)).insts := by
  obtain ⟨x, v, _, _, hv, hblock, _⟩ := h.newPhis_spec (mem_of_getElem? hk)
  exact ⟨v, hv, hblock, h.program_mem.mpr (.inr ⟨k, q, hk, rfl, hblock⟩)⟩

theorem walk_rooted : ((planOf c a).walk a).1.All (Rooted c f a) := by
  refine Plan.walk_all (fun n => ?_) (fun {i n} hn => ?_) fun i hi n x hx => ?_
  · exact .inr ⟨nofun, trivial⟩
  · obtain ⟨k, q, hk, rfl, _⟩ := planOf_phiOf.mp hn
    obtain ⟨v, hv, _, hmem⟩ := new_mem h hk
    exact .inl ⟨_, v, rfl, hv, hmem⟩
  · obtain ⟨b, hb, hi⟩ := h.mem_instsOf.mp hi
    obtain ⟨hi, heq⟩ := h.program_inst_old hi (by rw [hx.op]; decide)
    obtain ⟨w, hw, hlive⟩ := h.live_of_mem hb hi (mem_operands_iff.mpr ⟨0, heq ▸ hx.value⟩)
    cases hw
    exact rooted_of_live h hlive

variable (hd : Promoted c a d)
include hd

theorem live_of_rooted {w : Value} (hw : Rooted c f a w)
    (hstays : ∀ j, w = .inst j → j ∉ retired c a) :
    Site.Live ⟨d, f, a, b⟩ w := by
  have hblock : ∀ {x : BlockId}, x ∈ (c.func f).blocks →
      (d.block x).parent = f ∧ (d.block x).linked = true := by
    intro x hx
    obtain ⟨hparent, hlinked⟩ := h.sound.mem_block hx
    exact ⟨(hd.block x).2.1.trans hparent, (hd.block x).2.2.trans hlinked⟩
  rcases hw with ⟨j, u, rfl, hu, hmem⟩ | ⟨hne, hlive⟩
  · have hparent := hd.sound.mem_parent (hd.mem_insts.mpr ⟨hmem, hstays j rfl⟩)
    obtain ⟨hfunc, hlinked⟩ := hblock (h.analyses.blockAt_mem hu)
    exact ⟨_, hparent, hfunc, hlinked⟩
  · cases w with
    | inst j => exact absurd rfl (hne j)
    | const k => trivial
    | arg x =>
      show (d.arg x).type.isSome = true ∧ (d.arg x).index.isSome = true ∧ (d.arg x).parent = f
      simp only [Argument.of_code (hd.arg x)]
      exact hlive
    | block x =>
      show (d.block x).parent = f ∧ (d.block x).linked = true
      rwa [(hd.block x).2.1, (hd.block x).2.2]
    | func g =>
      show (d.func g).signature.isSome = true ∧ (d.func g).parent = (d.func f).parent ∧
        (d.func g).linked = true
      simp only [Function.of_code (hd.func g), Function.of_code (hd.func f)]
      exact hlive
    | global g =>
      show (d.global g).parent = (d.func f).parent
      rwa [(Global.of_code (hd.global g)).2.1, (Function.of_code (hd.func f)).2.2.2.2.2.1]

theorem live_old (hb : b ∈ (c.func f).blocks)
    (hi : i ∈ (c.block b).insts) (hstays : i ∉ retired c a) {v : Option Value}
    (hv : v ∈ (d.inst i).operands) : ∃ w, v = some w ∧ Site.Live ⟨d, f, a, b⟩ w := by
  have hv' := hv
  rw [operands_old h hd (h.sound.inst_lt hi) hstays] at hv'
  obtain ⟨x, hx, rfl⟩ := Array.mem_map.mp hv'
  obtain ⟨w, rfl, hlive⟩ := h.live_of_mem hb hi hx
  refine ⟨_, rfl, live_of_rooted h hd ?_ fun j hj => hd.unread hstays ?_⟩
  · exact resolve_induction (rooted_of_live h hlive) (walk_rooted h).subst
  · rwa [← hj]

/-! ## Dominance -/

theorem defined_of_available {v : Nat} (hv : Reached a.flow.graph.Edge 0 v) {pre post : List InstId}
    (hsplit : ((planOf c a).program.block (a.flow.blockAt v)).insts.toList = pre ++ post)
    {j : InstId} (hj : (planOf c a).Available a v pre (.inst j)) (hstays : j ∉ retired c a) :
    Site.Defined ⟨d, f, a, a.flow.blockAt v⟩ (pre.filter (· ∉ retired c a)).length j := by
  have hlt := h.analyses.lt_size hv
  rcases hj j rfl with hmem | ⟨u, hne, hdom, hmem⟩
  · have hkept : j ∈ pre.filter (· ∉ retired c a) :=
      mem_filter.mpr ⟨hmem, decide_eq_true hstays⟩
    have hlist : (d.block (a.flow.blockAt v)).insts.toList =
        pre.filter (· ∉ retired c a) ++ post.filter (· ∉ retired c a) := by
      rw [hd.insts, hsplit, filter_append]
    have hparent : (d.inst j).parent = some (a.flow.blockAt v) := by
      refine hd.sound.mem_parent (Array.mem_toList_iff.mp ?_)
      rw [hlist]
      exact mem_append_left _ hkept
    refine (Site.defined_iff hd.sound.toStanding hparent).mpr (.inl ⟨rfl, ?_⟩)
    rwa [hlist, take_left]
  · have hu := h.analyses.lt_size
      (DominatorTree.reached_of_dominance h.analyses.wellFormed hv hdom)
    have hparent := hd.sound.mem_parent (hd.mem_insts.mpr ⟨hmem, hstays⟩)
    refine (Site.defined_iff hd.sound.toStanding hparent).mpr (.inr ⟨fun heq => hne ?_, ?_⟩)
    · exact h.analyses.blockAt_inj hu hlt heq
    · exact (h.analyses.dominatesBlock_iff hu hlt hv).mpr (.inr hdom)

theorem dominated (hi : i ∈ (c.block b).insts)
    (hop : (c.inst i).op ≠ .phi) (hk : (d.block b).insts.toList[k]? = some i) :
    Site.Dominated ⟨d, f, a, b⟩ i k := by
  intro hr j hj
  obtain ⟨v, hv, rfl, hreach⟩ := h.analyses.node_of_reachable hr
  have hstays : i ∉ retired c a :=
    (hd.mem_insts.mp ⟨mem_of_getElem? hk⟩).2
  rw [hd.insts] at hk
  obtain ⟨pre, post, hsplit, hlen⟩ := getElem?_filter_split hk
  have hgone := hd.unread hstays hj
  rw [operands_old h hd (h.sound.inst_lt hi) hstays] at hj
  obtain ⟨x, hx, hxj⟩ := Array.mem_map.mp hj
  cases x with
  | none => cases hxj
  | some w =>
    have hold := planOf_inst_old (a := a) (h.sound.inst_lt hi)
    have hw := h.ordered hreach hsplit (by rw [hold]; exact hop) (by rw [hold]; exact hx)
    have hw' := h.available_walk hreach hsplit hw
    rw [Option.map_some, Option.some.injEq] at hxj
    rw [hxj] at hw'
    rw [← hlen]
    exact hd.defined_of_available h hreach hsplit hw' hgone

theorem home_dominates {u : Nat} (hu : Reached a.flow.graph.Edge 0 u) {j : InstId}
    (hj : (planOf c a).Available a u
      ((planOf c a).program.block (a.flow.blockAt u)).insts.toList (.inst j))
    (hstays : j ∉ retired c a) {home : BlockId} (hhome : (d.inst j).parent = some home) :
    a.dominatesBlock home (a.flow.blockAt u) = true := by
  have hlt := h.analyses.lt_size hu
  have hplace : ∀ {t : Nat}, j ∈ ((planOf c a).program.block (a.flow.blockAt t)).insts →
      home = a.flow.blockAt t := by
    intro t hmem
    rw [hd.sound.mem_parent (hd.mem_insts.mpr ⟨hmem, hstays⟩)] at hhome
    exact (Option.some.inj hhome).symm
  rcases hj j rfl with hmem | ⟨t, hne, hdom, hmem⟩
  · rw [hplace ⟨hmem⟩]
    exact (h.analyses.dominatesBlock_iff hlt hlt hu).mpr (.inl rfl)
  · rw [hplace hmem]
    have ht := h.analyses.lt_size
      (DominatorTree.reached_of_dominance h.analyses.wellFormed hu hdom)
    exact (h.analyses.dominatesBlock_iff ht hlt hu).mpr (.inr hdom)

/-! ## Phis -/

theorem phiWell_old (hb : b ∈ (c.func f).blocks)
    (hi : i ∈ (c.block b).insts) (hop : (c.inst i).op = .phi) :
    Site.PhiWell ⟨d, f, a, b⟩ (d.inst i) := by
  have hstays : i ∉ retired c a := phi_not_retired h (by
    rw [planOf_inst_old (h.sound.inst_lt hi), hop])
  have hrep := hd.replaces h hb hi hstays
  have hwell := h.operation hb hi
  rw [Site.OperationWell, hop] at hwell
  obtain ⟨bs, hin, hbs⟩ := hwell.incoming
  have hincoming : (d.inst i).incoming = (c.inst i).incoming.map (Prod.map
      (Option.map (resolve ((planOf c a).walk a).1.subst))
      (Option.map (resolve ((planOf c a).walk a).1.subst))) := by
    rw [incoming, hrep.operands, Array.toList_map, Site.pairs_map]
    rfl
  -- The second members are blocks and stay.
  have hsources : (d.inst i).incoming.map Prod.snd = bs.map fun b => some (.block b) := by
    rw [hincoming, map_map]
    have hsnd : (c.inst i).incoming.map (Option.map (resolve ((planOf c a).walk a).1.subst) ∘
        Prod.snd) = ((c.inst i).incoming.map Prod.snd).map
          (Option.map (resolve ((planOf c a).walk a).1.subst)) := (map_map ..).symm
    refine hsnd.trans ?_
    rw [hin.sources, map_map]
    exact map_congr_left fun x _ => hrep.block x
  refine ⟨by rw [hrep.size]; exact hwell.even, ?_, bs, ⟨hsources, hin.nodup, ?_, ?_⟩, hbs⟩
  · rw [hincoming]
    exact fun hnil => hwell.nonempty (map_eq_nil_iff.mp hnil)
  · intro q hq
    rw [hincoming] at hq
    obtain ⟨p, hp, rfl⟩ := mem_map.mp hq
    have hmem : p.1 ∈ (c.inst i).operands := Array.mem_toList_iff.mp (Site.mem_of_mem_pairs hp).1
    rw [hrep.type]
    exact (hrep.types p.1 hmem).trans (hin.types p hp)
  · intro q hq source hsource j hj home hhome hr
    have hread : some (.inst j) ∈ (d.inst i).operands := by
      rw [← hj]
      exact Array.mem_toList_iff.mp (Site.mem_of_mem_pairs hq).1
    have hgone := hd.unread hstays hread
    rw [hincoming] at hq
    obtain ⟨⟨x, y⟩, hp, rfl⟩ := mem_map.mp hq
    obtain ⟨u, hu, rfl, hreach⟩ := h.analyses.node_of_reachable hr
    have hmem : x ∈ (c.inst i).operands := Array.mem_toList_iff.mp (Site.mem_of_mem_pairs hp).1
    obtain ⟨w, rfl, hlive⟩ := h.live_of_mem hb hi hmem
    have hy : y = some (.block (a.flow.blockAt u)) := by
      have hys : y ∈ bs.map fun b => some (Value.block b) :=
        hin.sources ▸ mem_map_of_mem hp
      obtain ⟨t, _, rfl⟩ := mem_map.mp hys
      exact (hrep.block t).symm.trans hsource
    subst hy
    have hw := h.incoming_available hb hi hop hp hlive hreach
    have hw' := h.available_walk hreach (append_nil _).symm hw
    have hj : resolve ((planOf c a).walk a).1.subst w = .inst j := Option.some.inj hj
    rw [hj] at hw'
    exact hd.home_dominates h hreach hw' hgone hhome

omit hd in
theorem sources_new {v : Nat}
    (hk : (newPhis c a)[k]? = some q) (hv : v < a.flow.size) (hblock : q.block = a.flow.blockAt v) :
    (((planOf c a).walk a).1.sources ⟨c.insts.size + k⟩).Nodup ∧
      ∀ t, t ∈ ((planOf c a).walk a).1.sources ⟨c.insts.size + k⟩ ↔
        t ∈ a.predecessors (some (a.flow.blockAt v)) := by
  have hmem : (⟨c.insts.size + k⟩ : InstId) ∈
      (planOf c a).program.phis (a.flow.blockAt v) := by
    rw [(h.program_block _).1]
    exact mem_append_right _ (mem_newIn.mpr ⟨k, q, hk, rfl, hblock⟩)
  have hphi : (planOf c a).phiOf ⟨c.insts.size + k⟩ = some q.cell :=
    planOf_phiOf.mpr ⟨k, q, hk, rfl, rfl⟩
  rw [Plan.walk_sources h.program_sound.toPlaced h.analyses hmem hphi hv]
  have hlt : ∀ {u}, u ∈ (Plan.order a).filter (fun w => v ∈ a.flow.graph.succsOf w) →
      u < a.flow.size := fun hu => (Plan.mem_order h.analyses).mp (mem_filter.mp hu).1
  refine ⟨List.Nodup.map_on ?_ ((Plan.order_nodup h.analyses).filter _), fun t => ?_⟩
  · exact fun u hu w hw heq => h.analyses.blockAt_inj (hlt hu) (hlt hw) heq
  · rw [mem_predecessors_of_nodeOf h.analyses.wellFormed (h.analyses.nodeOf_blockAt hv)]
    simp only [mem_map, mem_filter, decide_eq_true_eq]
    constructor
    · rintro ⟨u, ⟨_, hu⟩, rfl⟩
      exact ⟨u, hu, rfl⟩
    · rintro ⟨u, hu, rfl⟩
      have hsize := hu.source_lt
      rw [h.analyses.size] at hsize
      exact ⟨u, ⟨(Plan.mem_order h.analyses).mpr hsize, hu⟩, rfl⟩

section

variable (hk : (newPhis c a)[k]? = some q)
include hk

theorem incoming_new : (d.inst ⟨c.insts.size + k⟩).incoming =
      (((planOf c a).walk a).1.fills.filter fun x => x.1 = ⟨c.insts.size + k⟩).map fun x =>
        (some x.2.1, some (.block x.2.2)) := by
  rw [incoming, hd.operands_new h hk, Renaming.filled, Site.pairs_flatMap]

theorem size_new : (d.inst ⟨c.insts.size + k⟩).operands.size % 2 = 0 := by
  have heven : ∀ {α : Type} (l : List α) (g g' : α → Option Value),
      (l.flatMap fun x => [g x, g' x]).length % 2 = 0 := by
    intro α l g g'
    simp
  rw [hd.operands_new h hk]
  exact heven _ _ _

theorem phiWell_new : Site.PhiWell ⟨d, f, a, q.block⟩ (d.inst ⟨c.insts.size + k⟩) := by
  obtain ⟨x, v, hx, htype, hv, hblock, u₀, hu₀⟩ := h.newPhis_spec (mem_of_getElem? hk)
  obtain ⟨hnodup, hmem⟩ := sources_new h hk hv hblock
  have hstays := new_not_retired h hk
  have hincoming := hd.incoming_new h hk
  have hphi : (planOf c a).phiOf ⟨c.insts.size + k⟩ = some q.cell :=
    planOf_phiOf.mpr ⟨k, q, hk, rfl, rfl⟩
  have hsources : (d.inst ⟨c.insts.size + k⟩).incoming.map Prod.snd =
      (((planOf c a).walk a).1.sources ⟨c.insts.size + k⟩).map fun b => some (.block b) := by
    rw [hincoming, Renaming.sources, map_map, map_map]
    rfl
  refine ⟨hd.size_new h hk, ?_, _, ⟨hsources, hnodup, ?_, ?_⟩, hblock ▸ hmem⟩
  · -- The block has a predecessor, as every block of a frontier has.
    intro hnil
    have hpred : a.flow.blockAt u₀ ∈ ((planOf c a).walk a).1.sources ⟨c.insts.size + k⟩ := by
      rw [hmem, mem_predecessors_of_nodeOf h.analyses.wellFormed (h.analyses.nodeOf_blockAt hv)]
      exact ⟨u₀, hu₀, rfl⟩
    rw [hnil, map_nil, eq_comm, map_eq_nil_iff] at hsources
    rw [hsources] at hpred
    exact absurd hpred not_mem_nil
  · intro p hp
    rw [hincoming] at hp
    obtain ⟨y, hy, rfl⟩ := mem_map.mp hp
    obtain ⟨hy, hyi⟩ := mem_filter.mp hy
    obtain ⟨n, hn, hheld⟩ := (walk_sane h).2 y hy
    rw [of_decide_eq_true hyi, hphi] at hn
    cases hn
    show d.typeOf y.2.1 = some (d.inst ⟨c.insts.size + k⟩).type
    rw [hd.typeOf_eq, hheld.type, (hd.inst _).2.2, new_inst hk, htype,
      planOf_typeAt hx]
  · intro p hp source hsource j hj home hhome hr
    have hread : some (.inst j) ∈ (d.inst ⟨c.insts.size + k⟩).operands := by
      rw [← hj]
      exact Array.mem_toList_iff.mp (Site.mem_of_mem_pairs hp).1
    have hgone := hd.unread hstays hread
    rw [hincoming] at hp
    obtain ⟨y, hy, rfl⟩ := mem_map.mp hp
    obtain ⟨hy, hyi⟩ := mem_filter.mp hy
    obtain ⟨n, u, hn, hu, hyu, hvalue⟩ :=
      Plan.walk_fills h.fits h.analyses h.ordered h.instsOf_nodup y hy
    have hsource : y.2.2 = source := by
      injection hsource with heq
      injection heq
    rw [← hsource, hyu] at hr ⊢
    have hlt := (Plan.mem_order h.analyses).mp hu
    have hreach := (h.analyses.reachable_iff hlt).mp hr
    have hj : y.2.1 = .inst j := Option.some.inj hj
    rw [hvalue hreach] at hj
    obtain ⟨hsolved, hout, _⟩ :=
      Plan.walk_solved h.analyses h.ordered h.instsOf_nodup hreach
    have hheld := (hsolved.held (append_nil _).symm n (h.fits.phi hn).1).2
    rw [← hout, hj] at hheld
    exact hd.home_dominates h hreach hheld hgone hhome

theorem live_new {v : Option Value} (hv : v ∈ (d.inst ⟨c.insts.size + k⟩).operands) :
    ∃ w, v = some w ∧ Site.Live ⟨d, f, a, b⟩ w := by
  have hstays := new_not_retired h hk
  have hv' := hv
  rw [hd.operands_new h hk, mem_toArray, Renaming.filled, mem_flatMap] at hv'
  obtain ⟨y, hy, hvy⟩ := hv'
  have hy := (mem_filter.mp hy).1
  rcases mem_cons.mp hvy with rfl | hvy
  · refine ⟨_, rfl, live_of_rooted h hd ((walk_rooted h).fills y hy) fun j hj => ?_⟩
    rw [hj] at hv
    exact hd.unread hstays hv
  · obtain ⟨_, u, _, hu, hyu, _⟩ :=
      Plan.walk_fills h.fits h.analyses h.ordered h.instsOf_nodup y hy
    have hmem := h.analyses.blockAt_mem ((Plan.mem_order h.analyses).mp hu)
    obtain ⟨hparent, hlinked⟩ := h.sound.mem_block hmem
    rw [mem_singleton.mp hvy, hyu]
    exact ⟨_, rfl, (hd.block _).2.1.trans hparent, (hd.block _).2.2.trans hlinked⟩

end

/-! ## The whole function -/

theorem well (hb : b ∈ (c.func f).blocks)
    (hk : (d.block b).insts.toList[k]? = some i) : Site.Well ⟨d, f, a, b⟩ i k := by
  obtain ⟨hmem, hstays⟩ := hd.mem_insts.mp ⟨mem_of_getElem? hk⟩
  rcases h.program_mem.mp hmem with hold | ⟨n, q, hq, rfl, rfl⟩
  · have hop : (d.inst i).op = (c.inst i).op := (hd.old_inst (h.sound.inst_lt hold)).1
    refine ⟨fun v hv => hd.live_old h hb hold hstays hv, fun hphi => ?_, ?_⟩
    · refine hd.dominated h hold (fun hop' => ?_) hk
      rw [isPhi, hop, hop'] at hphi
      cases hphi
    · by_cases hop' : (c.inst i).op = .phi
      · rw [Site.OperationWell, hop, hop']
        exact hd.phiWell_old h hb hold hop'
      · refine (hd.replaces h hb hold hstays).operationWell ?_ hop' (h.operation hb hold)
        show (d.func f).blocks[0]? = (c.func f).blocks[0]?
        rw [(Function.of_code (hd.func f)).1]
  · have hop : (d.inst ⟨c.insts.size + n⟩).op = .phi := by
      rw [(hd.inst _).1, new_inst hq]
    refine ⟨fun v hv => hd.live_new h hq hv, fun hphi => ?_, ?_⟩
    · rw [isPhi, hop] at hphi
      cases hphi
    · rw [Site.OperationWell, hop]
      exact hd.phiWell_new h hq

theorem blockWell (hb : b ∈ (c.func f).blocks) : Verify.BlockWell ⟨d, f, a, b⟩ := by
  have hold := h.blocks b hb
  obtain ⟨init, t, hlist, _, hterm, _, hinit⟩ := hd.ends h hb
  refine ⟨(hd.block b).2.1.trans hold.parent, (hd.block b).2.2.trans hold.linked, ?_, ?_, ?_, ?_⟩
  · rw [← Array.isEmpty_toList, hlist]
    simp
  · rw [hterm]
    rfl
  · intro hentry
    refine hold.entry ?_
    have hentry : (d.func f).blocks[0]? = some b := hentry
    rwa [(Function.of_code (hd.func f)).1] at hentry
  · intro k i hk
    refine ⟨hd.sound.mem_parent ⟨mem_of_getElem? hk⟩,
      fun hphi => ⟨rfl, fun j hj => ?_⟩, fun hlast => ?_, ?_⟩
    · -- A phi stands in the first part of its block, in which there are phis only.
      rw [hd.insts_split h b] at hk hj
      have hlt : k < (c.phis b ++ newIn b c.insts.size (newPhis c a)).length := by
        by_contra hge
        rw [getElem?_append_right (not_lt.mp hge)] at hk
        have hbody := (mem_filter.mp (mem_of_getElem? hk)).1
        have hmem : i ∈ (c.block b).insts := ⟨(dropWhile_sublist _).subset hbody⟩
        have hnot := h.body_not_phi hb hbody
        rw [isPhi, (hd.old_inst (h.sound.inst_lt hmem)).1] at hphi
        exact absurd (hphi.symm.trans hnot) (by decide)
      rw [take_append_of_le_length hlt.le] at hj
      rw [isPhi_iff, (hd.inst j).1]
      exact heads h (mem_of_mem_take hj)
    · rw [hlist] at hk ⊢
      by_cases hlt : k < init.length
      · rw [getElem?_append_left hlt] at hk
        exact absurd (hlast.symm.trans (hinit i (mem_of_getElem? hk))) (by decide)
      · have hbound := (List.getElem?_eq_some_iff.mp hk).1
        rw [length_append, length_singleton] at hbound ⊢
        omega
    · rw [Nat.zero_add]
      exact hd.well h hb hk

theorem checked : d.Checked f a :=
  hd.sound.checked (hd.analysis h) fun _ hb =>
    hd.blockWell h ((Function.of_code (hd.func f)).1 ▸ hb)

theorem wellFormed (hw : c.WellFormed f) : d.WellFormed f := by
  obtain ⟨hblocks, hargs, _, hret, hsig, _, _⟩ := Function.of_code (hd.func f)
  refine ⟨?_, fun _ => ⟨a, hd.analysis h, (hd.checked h).blocks⟩⟩
  obtain ⟨sig, hhead⟩ := hw.head
  refine ⟨sig, hsig.trans hhead.signature, by rw [hret]; exact hhead.ret,
    by rw [hargs]; exact hhead.count, fun k x hx => ?_⟩
  rw [hargs] at hx
  obtain ⟨hparent, hindex, hsized, htype, hname⟩ := hhead.arguments k x hx
  obtain ⟨hname', htype', hparent', hindex'⟩ := Argument.of_code (hd.arg x)
  rw [hblocks]
  exact ⟨hparent'.trans hparent, hindex'.trans hindex, by rw [htype']; exact hsized,
    htype'.trans htype,
    by rw [hname']; exact hname⟩

end

end Promote.Promoted

end SsaIr
