import SsaIr.Proofs.Parse.Bodies

/-!
# Reading modules stays coherent

Headers, structs, globals, declarations and definitions, one after the other, until every function
that was used is declared. A declaration makes a function or completes the one that its first use
made: `Context.Declared` says what comes out of either. `source_eq_ok` says what an accepted source
leaves.
-/

namespace SsaIr

open EStateM ParseState Context Build

variable {name : String} {ps : List Param} {ret t : Ty} {variadic : Bool}

namespace Context

/-- One context is another in which a module lists one more function, with the names of its
arguments but without a body. -/
structure Declared (c d : Context) (m : ModuleId) (f : FuncId) (names : List String) : Prop where
  orderly : d.Orderly
  onward : c.Onward d
  inst : ∀ i, d.inst i = c.inst i
  insts : ∀ b, (d.block b).insts = (c.block b).insts
  globals : d.globals.size = c.globals.size
  other : ∀ {g}, g ≠ f → g.index < d.functions.size → g.index < c.functions.size ∧
    (d.func g).args = (c.func g).args ∧ (d.func g).blocks = (c.func g).blocks ∧
      (d.func g).linked = (c.func g).linked ∧ ∀ a ∈ (c.func g).args, (d.arg a).name = (c.arg a).name
  parent : (d.func f).parent = m
  linked : (d.func f).linked = true
  blocks : (d.func f).blocks = #[]
  signed : d.Signed f
  names : (d.func f).args.toList.map (fun a => (d.arg a).name) = names

variable {c d : Context} {m : ModuleId} {f : FuncId}

theorem inst_congr (h : d.insts = c.insts) (i : InstId) : d.inst i = c.inst i := by
  rw [inst, inst, h]

theorem Orderly.declared_new (hc : c.Orderly) (hm : m.index < c.modules.size)
    (hfree : c.lookup m name = none) (hf : f.index = c.functions.size) {ps : List (String × Ty)}
    (hps : ∀ p ∈ ps, p.2.isSized = true)
    (h : finalizeSignature f variadic
      (((c.pushFunc { name, parent := m, ret }).linkFunc m f).withArgs f ps) = .ok () d) :
    c.Declared d m f (ps.map Prod.fst) := by
  let x : Function := { name, parent := m, ret }
  have hpush : c.Extends (c.pushFunc x) := extends_pushFunc rfl rfl rfl rfl hm
  have hself : (c.pushFunc x).func f = x := by rw [func_pushFunc, if_pos hf]
  have hlt : f.index < (c.pushFunc x).functions.size := by simp [hf, pushFunc]
  have hfree' : (c.pushFunc x).lookup m ((c.pushFunc x).func f).name = none := by
    rwa [hself]
  have hlink := (hpush.orderly hc).linkFunc hlt (by rw [hself]) (by rw [hself]) hfree'
  obtain ⟨_, hfields⟩ := (c.pushFunc x).func_fields_linkFunc m f f
  rw [hself] at hfields
  have hlinked : (((c.pushFunc x).linkFunc m f).func f).linked = true := by
    rw [func_linkFunc, if_pos ⟨rfl, hlt⟩]
  have hlt' : f.index < ((c.pushFunc x).linkFunc m f).functions.size := func_lt_of_linked hlinked
  have hopen : (((c.pushFunc x).linkFunc m f).func f).signature = none := by
    rw [hfields]
  have hargs := hlink.extended hlt' hopen hps
  have hlt'' := hargs.functions.symm ▸ hlt'
  obtain ⟨horderly, hreworked, hinsts, hsigned, harg, -⟩ :=
    finalizeSignature_signs hargs.orderly hlt'' h
  have hfunc := hargs.func f
  have hfunc' := hreworked.func f
  refine ⟨horderly, ((hpush.onward.trans (onward_linkFunc _ m f)).trans hargs.onward).trans
    hreworked.onward, inst_congr (hinsts.trans hargs.insts), fun b => ?_, ?_, fun {g} hg hlt =>
      ?_, ?_, ?_, ?_,
    hsigned, ?_⟩
  · rw [(hreworked.block b).2.2.2, block, hargs.blocks]
    rfl
  · rw [hreworked.globals, hargs.globals]
    rfl
  · have hne : g.index ≠ c.functions.size := fun heq =>
      hg (congrArg FuncId.mk (heq.trans hf.symm))
    have hsize : d.functions.size = c.functions.size + 1 := by
      rw [hreworked.functions, hargs.functions]
      exact Array.size_modify.trans (Array.size_push x)
    have hlt : g.index < c.functions.size := by omega
    have hsame : ((c.pushFunc x).linkFunc m f).func g = c.func g := by
      rw [func_linkFunc, if_neg fun hand => hg hand.1.symm, func_pushFunc, if_neg hne]
    refine ⟨hlt, ?_, ?_, ?_, fun a ha => ?_⟩
    · rw [(hreworked.func g).2.2.2.1, hargs.args g (Ne.symm hg), hsame]
    · rw [(hreworked.func g).2.2.2.2.1, (hargs.func g).2.2.2.1, hsame]
    · rw [(hreworked.func g).2.2.2.2.2, (hargs.func g).2.2.2.2, hsame]
    · obtain ⟨n, hn⟩ := Array.mem_iff_getElem?.mp ha
      have hold : a.index < ((c.pushFunc x).linkFunc m f).args.size := (hc.mem_arg hn).1
      rw [harg, hargs.arg hold]
      rfl
  · rw [hfunc'.2.1, hfunc.2.1, hfields]
  · rw [hfunc'.2.2.2.2.2, hfunc.2.2.2.2, hlinked]
  · rw [hfunc'.2.2.2.2.1, hfunc.2.2.2.1, hfields]
  · have hnew := congrArg (List.map Prod.fst) hargs.new
    rw [hfields] at hnew
    simp only [List.map_map, List.map_append, Function.comp_def] at hnew
    rw [hfunc'.2.2.2.1]
    simpa [harg, x] using hnew

theorem Orderly.declared_known (hc : c.Orderly) (hf : f.index < c.functions.size)
    (hparent : (c.func f).parent = m) (hnot : (c.func f).linked = false)
    (hfree : c.lookup m (c.func f).name = none) (hblocks : (c.func f).blocks = #[])
    (hsigned : c.Signed f) {e : Context} (he : e.Orderly) (hce : c.Reworked e)
    (hinst : ∀ i, e.inst i = c.inst i) (harg : ∀ a, a ∉ (c.func f).args → e.arg a = c.arg a)
    {names : List String} (hnames : (c.func f).args.toList.map (fun a => (e.arg a).name) = names) :
    c.Declared (e.linkFunc m f) m f names := by
  obtain ⟨_, hfields⟩ := e.func_fields_linkFunc m f f
  obtain ⟨hname', hparent', -, hargs', hblocks', hlinked'⟩ := hce.func f
  have hlt : f.index < e.functions.size := hce.functions.symm ▸ hf
  have hfree' : e.lookup m (e.func f).name = none := by
    rwa [lookup, (hce.module m).2.2, hname']
  have hon := e.onward_linkFunc m f
  refine ⟨he.linkFunc hlt (hparent'.trans hparent) (hlinked'.trans hnot) hfree',
    hce.onward.trans hon,
    hinst, fun b => (hce.block b).2.2.2, hce.globals, fun {g} hg hlt => ?_, ?_, ?_, ?_,
    (hsigned.onward hc hce.onward hf).onward he hon hlt, ?_⟩
  · have hsame : (e.linkFunc m f).func g = e.func g := by
      rw [func_linkFunc, if_neg fun hand => hg hand.1.symm]
    have hsize : (e.linkFunc m f).functions.size = c.functions.size :=
      Array.size_modify.trans hce.functions
    rw [hsame]
    refine ⟨hsize ▸ hlt, (hce.func g).2.2.2.1, (hce.func g).2.2.2.2.1, (hce.func g).2.2.2.2.2,
      fun a ha => congrArg Argument.name (harg a fun ha' => hg ?_)⟩
    -- An argument belongs to one function.
    obtain ⟨n, hn⟩ := Array.mem_iff_getElem?.mp ha
    obtain ⟨n', hn'⟩ := Array.mem_iff_getElem?.mp ha'
    exact (hc.mem_arg hn).2.1.symm.trans (hc.mem_arg hn').2.1
  · rw [hfields]
    exact hparent'.trans hparent
  · rw [func_linkFunc, if_pos ⟨rfl, hlt⟩]
  · rw [hfields]
    exact hblocks'.trans hblocks
  · rw [hfields]
    exact hargs' ▸ hnames

end Context

namespace ParseState

variable {s s' : ParseState} {m : ModuleId} {f : FuncId} {pending : Value → Prop}

/-- Outside of functions, a change in place that leaves instructions and names alone is coherent. -/
theorem Reads.touch (h : s.Reads m none pending) {d : Context} (horderly : d.Orderly)
    (hd : s.context.Reworked d) (hinst : ∀ i, d.inst i = s.context.inst i)
    (harg : ∀ a, (d.arg a).name = (s.context.arg a).name) : (s.within d).Reads m none pending := by
  refine ⟨h.alter horderly hd.onward ⟨fun {i b} hi _ => .inl ⟨hinst i ▸ hi, by rw [hinst]⟩,
      fun {i b v} hi hv => .inl ⟨hinst i ▸ hi, hinst i ▸ hv⟩⟩
    (fun {g} hg _ _ => .inl ⟨hd.functions ▸ hg, (hd.func g).2.2.2.1, (hd.func g).2.2.2.2.1,
      fun a _ => harg a, fun b _ => (hd.block b).2.2.2⟩) (fun hg _ => .inl (hd.globals ▸ hg))
        (fun {n g} hn hl => ?_) fun hf => ?_,
    h.module, h.function⟩
  · rw [(hd.func g).2.2.2.2.2] at hl
    exact (hd.func g).2.2.2.2.1.trans ((h.forward hn).blocks hl)
  · cases h.function.symm.trans hf

theorem Reads.declare (h : s.Reads m none pending) {d : Context} {names : List String}
    (hd : s.context.Declared d m f names) : (s.within d).Reads m none pending := by
  refine ⟨h.alter hd.orderly hd.onward ⟨fun {i b} hi _ => .inl ⟨hd.inst i ▸ hi, by rw [hd.inst]⟩,
      fun {i b v} hi hv => .inl ⟨hd.inst i ▸ hi, hd.inst i ▸ hv⟩⟩ (fun {g} hg _ _ => ?_)
    (fun hg _ => .inl (hd.globals ▸ hg)) (fun {n g} hn hl => ?_) fun hf => ?_, h.module, h.function⟩
  · by_cases hgf : g = f
    · rw [hgf]
      exact .inr ⟨hd.signed, hd.blocks⟩
    · obtain ⟨hlt, hargs, hblocks, -, hnames⟩ := hd.other hgf hg
      exact .inl ⟨hlt, hargs, hblocks, hnames, fun b _ => hd.insts b⟩
  · by_cases hgf : g = f
    · rw [hgf]
      exact hd.blocks
    · obtain ⟨-, -, hblocks, hlinked, -⟩ := hd.other hgf (hd.onward.func (h.forward hn).lt).1
      rw [hlinked] at hl
      exact hblocks.trans ((h.forward hn).blocks hl)
  · cases h.function.symm.trans hf

theorem Reads.withGlobal (h : s.Reads m none pending) {init : Option Value}
    (hfree : s.context.lookup s.module name = none) (hsized : t.isSized = true)
    (hinit : ∀ v, init = some v → s.Usable v ∧ s.context.typeOf v = some t) :
    (s.within (s.context.withGlobal s.module name t init)).Reads m none pending := by
  have hon := s.context.onward_withGlobal s.module name t init
  have hshared : ∀ v, init = some v → s.context.Shared s.module v :=
    fun v hv => (hinit v hv).1.shared h.function
  refine ⟨h.alter (h.orderly.withGlobal h.module_lt hfree t hshared) hon
    ⟨fun hi _ => .inl ⟨hi, rfl⟩, fun hi hv => .inl ⟨hi, hv⟩⟩
    (fun hg _ _ => .inl ⟨hg, rfl, rfl, fun _ _ => rfl, fun _ _ => rfl⟩) (fun {g} hg _ => ?_)
    (fun hn hl => (h.forward hn).blocks hl) fun hf => ?_, h.module, h.function⟩
  · rw [globals_size_withGlobal] at hg
    rw [global_withGlobal]
    split
    · exact .inr ⟨hsized, fun v hv => ⟨(hon.typeOf_shared (hshared v hv)).trans (hinit v hv).2,
        (hinit v hv).1.resolves, (hshared v hv).tracks⟩⟩
    · exact .inl (by omega)
  · cases h.function.symm.trans hf

end ParseState

namespace Build

variable {c d : Context} {m : ModuleId} {f : FuncId}

theorem newFunction_eq_ok {r : Ty} (h : newFunction m name (some r) c = .ok f d) :
    f.index = c.functions.size ∧ c.lookup m name = none ∧
      d = (c.pushFunc { name, parent := m, ret := r }).linkFunc m f := by
  obtain ⟨g, c₁, hnew, h⟩ := bind_eq_ok_iff.mp h
  obtain ⟨-, rfl, rfl⟩ := newDetachedFunction_eq_ok hnew
  obtain ⟨_, c₂, hlink, h⟩ := bind_eq_ok_iff.mp h
  obtain ⟨-, -, -, hfree, rfl⟩ := linkFunction_eq_ok hlink
  cases h
  rw [func_pushFunc, if_pos rfl] at hfree
  exact ⟨rfl, hfree, rfl⟩

theorem namedStruct_eq_ok {ts : List Ty}
    (h : namedStruct name (ts.map some) c = .ok t d) :
    d = c ∨ t.isNamed = true ∧ d = c.pushStruct t := by
  obtain ⟨-, h⟩ := require_bind_eq_ok_iff.mp h
  obtain ⟨us, c₁, hmembers, h⟩ := bind_eq_ok_iff.mp h
  obtain ⟨-, -, rfl⟩ := allSized_eq_ok_iff.mp hmembers
  rw [get_bind_apply] at h
  cases hknown : lookupStruct c name with rw [hknown] at h
  | some known =>
    dsimp only at h
    split at h
    · cases h
      exact .inl rfl
    · simp [bind_eq_ok_iff] at h
  | none =>
    cases h
    exact .inr ⟨rfl, rfl⟩

theorem declareStruct_eq_ok {u : Unit} (h : declareStruct m (some t) c = .ok u d) :
    ∃ g : Module → Module, (∀ x, (g x).functions = x.functions ∧ (g x).globals = x.globals ∧
      (g x).symbols = x.symbols) ∧ d = c.modifyModule m g := by
  obtain ⟨-, h⟩ := require_bind_eq_ok_iff.mp h
  cases h
  refine ⟨_, fun x => ?_, rfl⟩
  split <;> exact ⟨rfl, rfl, rfl⟩

end Build

namespace Parse

variable {s s' : ParseState} {m : ModuleId}

/-! ## Definitions without bodies -/

theorem checkFree_eq_ok {name : Token} {u : Unit} (h : checkFree name s = .ok u s') :
    s = s' ∧ s.context.lookup s.module name.literal = none := by
  rw [checkFree, get_bind_apply] at h
  split at h
  · simp at h
  · next hfree =>
      obtain ⟨-, rfl⟩ := pure_eq_ok_iff.mp h
      exact ⟨rfl, by simpa using hfree⟩

section Globals

variable (hs : s.Reads m none fun _ => False) {u : Unit}

include hs

theorem header_eq_ok (h : header s = .ok u s') : s'.Reads m none fun _ => False := by
  rw [header, get_bind_apply] at h
  split at h
  · simp [bind_eq_ok_iff] at h
  · have hseen : ({ s with headerSeen := true } : ParseState).Reads m none fun _ => False :=
      ⟨hs.congr, hs.module, hs.function⟩
    obtain ⟨_, s₁, hs₁, h⟩ := hseen.step h
    obtain ⟨_, s₂, hs₂, h⟩ := hs₁.step h
    obtain ⟨_, s₃, hs₃, h⟩ := hs₂.step h
    rw [get_bind_apply] at h
    obtain ⟨c, hrename, rfl⟩ := construct_eq_ok_iff.mp h
    cases hrename
    exact hs₃.touch (hs₃.orderly.modifyModule _ fun _ => ⟨rfl, rfl, rfl⟩)
      (reworked_modifyModule _ _ fun _ => ⟨rfl, rfl, rfl⟩) (fun _ => rfl) fun _ => rfl

theorem structDefinition_eq_ok (h : structDefinition s = .ok u s') :
    s'.Reads m none fun _ => False := by
  obtain ⟨_, s₁, hs₁, h⟩ := hs.step h
  obtain ⟨_, s₂, hs₂, h⟩ := hs₁.step h
  obtain ⟨_, s₃, hs₃, h⟩ := hs₂.step h
  obtain ⟨ts, s₄, hs₄, h⟩ := hs₃.step h
  obtain ⟨c, hbuild, rfl⟩ := constructAt_eq_ok_iff.mp h
  obtain ⟨t, c₁, ht, hdeclare⟩ := bind_eq_ok_iff.mp hbuild
  obtain ⟨g, hg, rfl⟩ := declareStruct_eq_ok hdeclare
  have hstruct : (s₄.within c₁).Reads m none fun _ => False := by
    rcases namedStruct_eq_ok ht with rfl | ⟨hnamed, rfl⟩
    · exact hs₄
    · exact hs₄.touch (hs₄.orderly.pushStruct hnamed) (s₄.context.reworked_pushStruct t)
        (fun _ => rfl)
        fun _ => rfl
  exact hstruct.touch (hstruct.orderly.modifyModule _ hg) (reworked_modifyModule _ _ hg)
    (fun _ => rfl) fun _ => rfl

theorem makeGlobal_eq_ok {name : Token} {init : Option Value}
    (hinit : ∀ v, init = some v → s.Usable v)
    (h : (checkFree name >>= fun _ => get >>= fun r => discard (constructAt name.pos
      (newGlobal r.module name.literal (some t) init))) s = .ok u s') :
    s'.Reads m none fun _ => False := by
  obtain ⟨_, t₁, hcheck, h⟩ := bind_eq_ok_iff.mp h
  obtain ⟨rfl, hfree⟩ := checkFree_eq_ok hcheck
  obtain ⟨g, h⟩ := discard_eq_ok_iff.mp h
  obtain ⟨d, hnew, rfl⟩ := constructAt_eq_ok_iff.mp h
  obtain ⟨hsized, e, hlearned, -, hfree, htype, rfl⟩ := newGlobal_eq_ok hnew
  have hmoved := moved_within (s := s) hlearned
  exact (hs.moved hmoved).withGlobal hfree hsized fun v hv =>
    ⟨(hinit v hv).grows hs.toCoherent hmoved.grows, htype v hv⟩

theorem globalDefinition_eq_ok (h : globalDefinition s = .ok u s') :
    s'.Reads m none fun _ => False := by
  obtain ⟨_, s₁, hs₁, h⟩ := hs.step h
  obtain ⟨_, s₂, hs₂, h⟩ := hs₁.step h
  rw [current_bind] at h
  obtain ⟨ptr, s₃, hs₃, h⟩ := hs₂.step h
  obtain ⟨_, s₄, hs₄, h⟩ := hs₃.step h
  obtain ⟨_, s₅, hs₅, h⟩ := hs₄.step h
  rw [current_bind] at h
  obtain ⟨allocated, s₆, hs₆, h⟩ := hs₅.step h
  dsimp only at h
  split at h
  · simp [bind_eq_ok_iff] at h
  obtain ⟨want, s₇, hs₇, h⟩ := hs₆.step h
  split at h
  · simp [bind_eq_ok_iff] at h
  rw [eat_bind] at h
  split at h
  · refine makeGlobal_eq_ok (hs₇.moved (moved_advance _)) ?_ h
    exact nofun
  · obtain ⟨init, s₈, hinit, h⟩ := bind_eq_ok_iff.mp h
    obtain ⟨v, hv, rfl⟩ := map_eq_ok_iff.mp hinit
    have hgives := operand_eq_ok hs₇.toCoherent hv
    refine makeGlobal_eq_ok (hs₇.grows hgives.grows hgives.coherent) (fun w hw => ?_) h
    cases hw
    exact hgives.usable

end Globals

/-! ## Parameters and declarations -/

instance movesParamList {named : Bool} {n : Nat} {first : Bool} :
    Moves (paramList named n first) := by
  induction n generalizing first with
  | zero => exact ⟨nofun⟩
  | succ n ih =>
    refine .bind inferInstance fun closed => ?_
    dsimp only
    split
    · infer_instance
    · split
      · refine .bind inferInstance fun _ => .bind inferInstance fun dots => ?_
        infer_instance
      · refine .bind inferInstance fun dots => ?_
        infer_instance

instance {named : Bool} : Moves (params named) := by unfold params; infer_instance

theorem addParams_eq_ok {f : FuncId} {u : Unit} (h : addParams f ps s = .ok u s') :
    (∀ p ∈ ps.map fun p => (p.name, p.type), p.2.isSized = true) ∧
      s' = s.within (s.context.withArgs f (ps.map fun p => (p.name, p.type))) := by
  induction ps generalizing s with
  | nil =>
    cases h
    exact ⟨nofun, rfl⟩
  | cons p ps ih =>
    obtain ⟨_, t, harg, h⟩ := discard_bind_eq_ok_iff.mp h
    obtain ⟨c, hadd, rfl⟩ := constructAt_eq_ok_iff.mp harg
    obtain ⟨-, hsized, rfl⟩ := addArgument_eq_ok hadd
    obtain ⟨hrest, rfl⟩ := ih h
    exact ⟨List.forall_mem_cons.mpr ⟨hsized, hrest⟩, rfl⟩

theorem nameArgs_eq_ok {c d : Context} {l : List (ArgId × Param)} {u : Unit} (hc : c.Orderly)
    (hl : (l.map Prod.fst).Nodup) (hlt : ∀ q ∈ l, q.1.index < c.args.size)
    (h : nameArgs l c = .ok u d) :
    d.Orderly ∧ c.Reworked d ∧ (∀ i, d.inst i = c.inst i) ∧
      (∀ a, a ∉ l.map Prod.fst → d.arg a = c.arg a) ∧ ∀ q ∈ l, (d.arg q.1).name = q.2.name := by
  induction l generalizing c with
  | nil =>
    cases h
    exact ⟨hc, reworked_of_frame rfl id, fun _ => rfl, fun _ _ => rfl, nofun⟩
  | cons q l ih =>
    obtain ⟨a, p⟩ := q
    obtain ⟨_, c₁, hname, h⟩ := bind_eq_ok_iff.mp h
    cases hname
    obtain ⟨hnot, hl⟩ := List.nodup_cons.mp hl
    have hrenamed := c.reworked_renameArg a p.name
    obtain ⟨horderly, hreworked, hinst, harg, hnames⟩ := ih (hc.renameArg a p.name) hl
      (fun q hq => hrenamed.args.symm ▸ hlt q (.tail _ hq)) h
    refine ⟨horderly, hrenamed.trans hreworked, hinst, fun a' ha' => ?_, fun q hq => ?_⟩
    · rw [harg a' (List.not_mem_of_not_mem_cons ha'), arg_renameArg,
        if_neg fun hand => List.ne_of_not_mem_cons ha' hand.1.symm]
    · rcases List.mem_cons.mp hq with rfl | hq
      · rw [harg a hnot, arg_renameArg, if_pos ⟨rfl, hlt _ (.head _)⟩]
      · exact hnames q hq

theorem eq_of_mem_zip {α β γ : Type} {g : α → γ} {g' : β → γ} {l : List α} {l' : List β}
    (h : l.map g = l'.map g') {q : α × β} (hq : q ∈ l.zip l') : g q.1 = g' q.2 := by
  induction l generalizing l' with
  | nil => cases hq
  | cons a l ih =>
    cases l' with
    | nil => cases hq
    | cons b l' =>
      obtain ⟨hhead, htail⟩ := List.cons.inj h
      rcases List.mem_cons.mp hq with rfl | hq
      · exact hhead
      · exact ih htail hq

theorem bindAll_eq_ok {f : FuncId} {u : Unit}
    (hs : s.Reads m (some f) fun v => ∃ a ∈ (s.context.func f).args, v = .arg a)
    (hnames : (s.context.func f).args.toList.map
      (fun a => (s.context.arg a).name) = ps.map Param.name)
    (h : bindParams ((s.context.func f).args.toList.zip ps) s = .ok u s') :
    s'.Reads m (some f) fun _ => False := by
  have hlength : (s.context.func f).args.toList.length = ps.length := by
    simpa using congrArg List.length hnames
  refine bindParams_eq_ok ⟨hs.toCoherent.settle (fun {g a} hg ha _ => ?_) fun _ ⟨_, _, hv⟩ => ?_,
    hs.module, hs.function⟩ (fun q hq => ⟨?_, eq_of_mem_zip hnames hq⟩) h
  · cases hs.function.symm.trans hg
    have ha : a ∈ ((s.context.func f).args.toList.zip ps).map Prod.fst := by
      rw [List.map_fst_zip hlength.le]
      exact ha.val
    obtain ⟨q, hq, rfl⟩ := List.mem_map.mp ha
    exact ⟨q, hq, rfl⟩
  · cases hv
  · exact Array.mem_toList_iff.mp (List.of_mem_zip hq).1

section Functions

variable (hs : s.Reads m none fun _ => False) {u : Unit}

include hs

/-- A function that was made by its first use is declared by naming its arguments and listing it. -/
theorem completed_eq_ok {f : FuncId}
    {d e : Context} {v : Unit} (hknown : s.forward[name]? = some f)
    (hagree : (s.context.func f).signature = some (.function ret (ps.map Param.type) variadic))
    (hname : nameArgs ((s.context.func f).args.toList.zip ps) s.context = .ok u e)
    (hlink : linkFunction s.module f e = .ok v d) :
    s.context.Declared d m f (ps.map Param.name) := by
  have hforward := hs.forward hknown
  have hsigned := hs.typed.func hforward.lt hforward.parent
  have hlength : (s.context.func f).args.toList.length = ps.length := by
    obtain ⟨params, variadic', hsig, hargs⟩ := hsigned
    cases hsig.symm.trans hagree
    simpa using congrArg List.length hargs
  have hfst := List.map_fst_zip hlength.le
  have hlt : ∀ q ∈ (s.context.func f).args.toList.zip ps, q.1.index < s.context.args.size := by
    intro q hq
    obtain ⟨n, hn⟩ := Array.mem_iff_getElem?.mp (Array.mem_toList_iff.mp (List.of_mem_zip hq).1)
    exact (hs.orderly.mem_arg hn).1
  obtain ⟨he, hreworked, hinst, harg, hnamed⟩ := nameArgs_eq_ok hs.orderly
    (by rw [hfst]; exact hs.orderly.args_nodup f) hlt hname
  obtain ⟨-, hnot, -, hfree, rfl⟩ := linkFunction_eq_ok hlink
  rw [(hreworked.func f).2.2.2.2.2] at hnot
  rw [lookup, (hreworked.module _).2.2, (hreworked.func f).1] at hfree
  rw [hfst] at harg
  rw [← hs.module]
  refine hs.orderly.declared_known hforward.lt hforward.parent hnot hfree
    (hforward.blocks hnot) hsigned
    he hreworked hinst (fun a ha => harg a fun hmem => ha ⟨hmem⟩) ?_
  -- The names are those of the parameters, position by position.
  calc (s.context.func f).args.toList.map (fun a => (e.arg a).name)
      = (((s.context.func f).args.toList.zip ps).map Prod.fst).map (fun a => (e.arg a).name) := by
        rw [hfst]
    _ = ((s.context.func f).args.toList.zip ps).map (fun q => q.2.name) := by
        rw [List.map_map]
        exact List.map_congr_left fun q hq => hnamed q hq
    _ = (((s.context.func f).args.toList.zip ps).map Prod.snd).map Param.name := by
        rw [List.map_map]
        rfl
    _ = ps.map Param.name := by rw [List.map_snd_zip hlength.symm.le]

theorem declared_eq_ok {name : Token} {f : FuncId}
    (h : declared name ret ps variadic s = .ok f s') :
    ∃ t d, s.Moved t ∧ t.context.Declared d m f (ps.map Param.name) ∧ s' = t.within d := by
  obtain ⟨_, t, hcheck, h⟩ := bind_eq_ok_iff.mp h
  obtain ⟨rfl, hfree⟩ := checkFree_eq_ok hcheck
  rw [get_bind_apply] at h
  cases hknown : s.forward[name.literal]? with rw [hknown] at h
  | none =>
    obtain ⟨f', c₁, hnew, h⟩ := constructAt_bind_eq_ok_iff.mp h
    obtain ⟨hindex, -, rfl⟩ := newFunction_eq_ok hnew
    obtain ⟨_, t, hparams, h⟩ := bind_eq_ok_iff.mp h
    obtain ⟨hsized, rfl⟩ := addParams_eq_ok hparams
    obtain ⟨_, d, hsig, h⟩ := construct_bind_eq_ok_iff.mp h
    obtain ⟨rfl, rfl⟩ := pure_eq_ok_iff.mp h
    have hdeclared := hs.orderly.declared_new hs.module_lt hfree hindex hsized hsig
    rw [List.map_map, hs.module] at hdeclared
    exact ⟨s, d, .refl s, hdeclared, rfl⟩
  | some f' =>
    obtain ⟨sig, c₁, hsig, h⟩ := constructAt_bind_eq_ok_iff.mp h
    have htypes : ps.map (fun p => some p.type) = (ps.map Param.type).map some := by
      rw [List.map_map]
      rfl
    rw [htypes] at hsig
    obtain ⟨-, -, rfl, rfl⟩ := funcType_eq_ok_iff.mp hsig
    have hmoved := moved_within (s := s)
      (learned_learn s.context (.function ret (ps.map Param.type) variadic))
    rw [inContext_bind] at h
    split at h
    · simp [bind_eq_ok_iff] at h
    · next hagree =>
        obtain ⟨_, e, hname, h⟩ := construct_bind_eq_ok_iff.mp h
        obtain ⟨_, d, hlink, h⟩ := construct_bind_eq_ok_iff.mp h
        obtain ⟨rfl, rfl⟩ := pure_eq_ok_iff.mp h
        exact ⟨_, d, hmoved,
          completed_eq_ok (hs.moved hmoved) hknown (not_not.mp hagree) hname hlink,
          rfl⟩

theorem declaration_eq_ok (h : declaration s = .ok u s') : s'.Reads m none fun _ => False := by
  obtain ⟨_, s₁, hs₁, h⟩ := hs.step h
  obtain ⟨ret, s₂, hs₂, h⟩ := hs₁.step h
  obtain ⟨_, s₃, hs₃, h⟩ := hs₂.step h
  obtain ⟨⟨ps, variadic⟩, s₄, hs₄, h⟩ := hs₃.step h
  obtain ⟨f, h⟩ := discard_eq_ok_iff.mp h
  obtain ⟨t, d, hmoved, hdeclared, rfl⟩ := declared_eq_ok hs₄ h
  exact (hs₄.moved hmoved).declare hdeclared

theorem definition_eq_ok (h : definition s = .ok u s') : s'.Reads m none fun _ => False := by
  obtain ⟨_, s₁, hs₁, h⟩ := hs.step h
  obtain ⟨ret, s₂, hs₂, h⟩ := hs₁.step h
  obtain ⟨_, s₃, hs₃, h⟩ := hs₂.step h
  obtain ⟨⟨ps, variadic⟩, s₄, hs₄, h⟩ := hs₃.step h
  obtain ⟨f, s₅, hf, h⟩ := bind_eq_ok_iff.mp h
  obtain ⟨t, d, hmoved, hdeclared, rfl⟩ := declared_eq_ok hs₄ hf
  have hs₅ := (hs₄.moved hmoved).declare hdeclared
  have hs₆ := hs₅.enter hdeclared.parent hdeclared.linked hdeclared.blocks
  rw [modify_bind_apply, inContext_bind] at h
  obtain ⟨_, s₇, hbind, h⟩ := bind_eq_ok_iff.mp h
  have hs₇ := bindAll_eq_ok hs₆ hdeclared.names hbind
  obtain ⟨_, s₈, hs₈, h⟩ := hs₇.step h
  rw [at?_bind] at h
  dsimp only at h
  split at h
  · simp [bind_eq_ok_iff] at h
  · rw [budget_bind] at h
    obtain ⟨_, s₉, hblocks, h⟩ := bind_eq_ok_iff.mp h
    obtain ⟨_, t, ht, h⟩ := (blocks_eq_ok hs₈ hblocks).step h
    obtain ⟨_, t', hresolved, h⟩ := bind_eq_ok_iff.mp h
    obtain ⟨rfl, hlabels, hlocals⟩ := checkResolved_eq_ok hresolved
    cases h
    exact ht.leave hlabels hlocals

/-! ## Sources -/

theorem definitions_eq_ok {n : Nat} (h : definitions n s = .ok u s') :
    s'.Reads m none fun _ => False := by
  induction n generalizing s with
  | zero => simp [definitions] at h
  | succ n ih =>
    rw [definitions, current_bind] at h
    generalize s.stream.current.kind = kind at h
    split at h
    · obtain ⟨-, rfl⟩ := pure_eq_ok_iff.mp h
      exact hs
    · obtain ⟨_, t, hone, h⟩ := bind_eq_ok_iff.mp h
      exact ih (header_eq_ok hs hone) h
    · obtain ⟨_, t, hone, h⟩ := bind_eq_ok_iff.mp h
      exact ih (structDefinition_eq_ok hs hone) h
    · obtain ⟨_, t, hone, h⟩ := bind_eq_ok_iff.mp h
      exact ih (globalDefinition_eq_ok hs hone) h
    · obtain ⟨_, t, hone, h⟩ := bind_eq_ok_iff.mp h
      exact ih (declaration_eq_ok hs hone) h
    · obtain ⟨_, t, hone, h⟩ := bind_eq_ok_iff.mp h
      exact ih (definition_eq_ok hs hone) h
    · simp [bind_eq_ok_iff] at h

theorem source_eq_ok (h : source s = .ok u s') : s'.Reads m none (fun _ => False) ∧
      ∀ {n : String} {f}, s'.forward[n]? = some f → (s'.context.func f).linked = true := by
  rw [source, budget_bind] at h
  obtain ⟨_, t, hdefs, h⟩ := bind_eq_ok_iff.mp h
  have ht := definitions_eq_ok hs hdefs
  rw [get_bind_apply] at h
  cases hmissing : t.forward.toList.find? fun p => !(t.context.func p.2).linked with
  | some p => simp [hmissing] at h
  | none =>
    rw [hmissing] at h
    obtain ⟨-, rfl⟩ := pure_eq_ok_iff.mp h
    refine ⟨ht, fun {n f} hn => ?_⟩
    have hall := List.find?_eq_none.mp hmissing (n, f)
      (Std.TreeMap.mem_toList_iff_getElem?_eq_some.mpr hn)
    simpa using hall

end Functions

end Parse

end SsaIr
