import SsaIr.Proofs.Parse.Instructions

/-!
# Reading bodies stays coherent

A body is entered with the parameters bound to the arguments, its blocks are read one after the
other, and it is left when no label and no value is missing. By then the names of the function tell
its blocks and its values apart. Read `ParseState.Reads` first.
-/

namespace SsaIr

open EStateM Context

variable {u : Unit}

namespace ParseState

variable {s s' : ParseState} {pending pending' : Value → Prop} {m : ModuleId} {f : FuncId}
  {b : BlockId}

/-- A module is read: one of its functions, or what stands outside of functions. -/
structure Reads (s : ParseState) (m : ModuleId) (f : Option FuncId) (pending : Value → Prop) : Prop
    extends s.Coherent pending where
  module : s.module = m
  function : s.function = f

theorem Reads.moved {f : Option FuncId} (h : s.Reads m f pending) (hm : s.Moved s') :
    s'.Reads m f pending where
  toCoherent := h.toCoherent.moved hm
  module := hm.grows.module.trans h.module
  function := hm.grows.function.trans h.function

theorem Reads.step {α β : Type} {x : Parse α} [Parse.Moves x] {k : α → Parse β}
    {f : Option FuncId} {r : β}
    (h : s.Reads m f pending) (hrun : (x >>= k) s = .ok r s') :
    ∃ a t, t.Reads m f pending ∧ k a t = .ok r s' := by
  obtain ⟨a, t, hm, hrest⟩ := Parse.Moves.of_bind hrun
  exact ⟨a, t, h.moved hm, hrest⟩

theorem Reads.grows {f : Option FuncId} (h : s.Reads m f pending) (hg : s.Grows s')
    (hs : s'.Coherent pending) : s'.Reads m f pending where
  toCoherent := hs
  module := hg.module.trans h.module
  function := hg.function.trans h.function

theorem Reads.linkBlock (h : s.Reads m (some f) pending) {name : String}
    (hlabel : s.labels[name]? = some b) (hnot : (s.context.block b).linked = false) :
    (s.within (s.context.linkBlock f b)).Reads m (some f) pending := by
  have hc := h.orderly
  obtain ⟨hname, g, hg, hlt, hparent⟩ := h.labels hlabel
  cases h.function.symm.trans hg
  have hcurrent := h.current h.function
  have hon := s.context.onward_linkBlock f b
  choose blocks hfunc using s.context.func_fields_linkBlock f b
  choose linked hblock using s.context.block_fields_linkBlock f b
  have hother : ∀ {g}, f ≠ g →
      ((s.context.linkBlock f b).func g).blocks = (s.context.func g).blocks := by
    intro g hne
    rw [func_linkBlock, if_neg fun hand => hne hand.1]
  refine ⟨h.toCoherent.alter (hc.linkBlock hlt hparent hnot) hon ⟨fun hi _ => .inl ⟨hi, rfl⟩,
    fun hi hv => .inl ⟨hi, hv⟩⟩ (fun {g} hg _ hne => .inl ⟨?_, by rw [hfunc], hother fun hfg => ?_,
      fun _ _ => rfl, fun b' _ => by rw [hblock]⟩) (fun hg _ => .inl hg) (fun {n g} hn hl => ?_)
        fun {g} hg => ⟨fun _ => rfl, ?_⟩,
        h.module, h.function⟩
  · exact (Array.size_modify : (s.context.functions.modify _ _).size = _) ▸ hg
  · exact hne (hfg ▸ h.function)
  · rw [hfunc] at hl
    rw [hother]
    · exact (h.forward hn).blocks hl
    · rintro rfl
      cases hcurrent.linked.symm.trans hl
  · cases h.function.symm.trans hg
    refine ⟨hon.func_linked hcurrent.linked,
      (congrArg Function.parent (hfunc f)).trans hcurrent.parent,
      fun {b'} hb' => ?_,
      fun {a} ha hp => ?_, fun {i b'} hi hb' hne hp => ?_⟩
    · refine (congrArg (fun x : Block => s.labels[x.name]?) (hblock b')).trans ?_
      rcases (mem_blocks_linkBlock hcurrent.lt).mp hb' with hold | ⟨-, rfl⟩
      · exact hcurrent.blocks hold
      · rwa [hname]
    · exact hcurrent.args (congrArg Function.args (hfunc f) ▸ ha) hp
    · exact hcurrent.insts hi ((congrArg Block.parent (hblock b')).symm.trans hb') hne hp

/-! ## Entering and leaving a body -/

theorem Reads.resolves (h : s.Reads m none pending) {v : Value} (hv : s.Resolves v)
    {locals : Std.TreeMap String Value} {labels : Std.TreeMap String BlockId} {g : Option FuncId} :
    ({ s with function := g, locals, labels } : ParseState).Resolves v := by
  cases v with
  | arg a =>
    rcases hv with hindex | ⟨n, hn⟩
    · exact .inl hindex
    · obtain ⟨-, -, f, hf, -⟩ := h.locals hn
      cases h.function.symm.trans hf
  | block b =>
    rcases hv with hlinked | ⟨n, hn⟩
    · exact .inl hlinked
    · obtain ⟨-, f, hf, -⟩ := h.labels hn
      cases h.function.symm.trans hf
  | const | inst | func | global => exact hv

theorem Reads.enter (h : s.Reads m none pending) (hparent : (s.context.func f).parent = m)
    (hlinked : (s.context.func f).linked = true) (hblocks : (s.context.func f).blocks = #[]) :
    ({ s with function := some f, locals := {}, labels := {} } : ParseState).Reads m (some f)
      fun v => ∃ a ∈ (s.context.func f).args, v = .arg a := by
  refine ⟨⟨h.orderly, h.scanned, h.module_lt, h.typed, fun hi hm hv => ?_,
    fun hv hm => h.resolves (h.initial hv hm), fun hn => ?_, fun hlt hm _ => ?_, fun {n v} hn => ?_,
    fun {n b} hn => ?_, fun {g} hg => ?_⟩, h.module, rfl⟩
  · obtain ⟨w, rfl, hw⟩ := h.resolved hi hm hv
    exact ⟨w, rfl, h.resolves hw⟩
  · obtain ⟨hlt, hparent, hname, hblocks⟩ := h.forward hn
    exact ⟨hlt, hparent, hname, hblocks⟩
  · refine h.apart hlt hm ?_
    rw [h.function]
    exact nofun
  · rw [Std.TreeMap.getElem?_emptyc] at hn
    cases hn
  · rw [Std.TreeMap.getElem?_emptyc] at hn
    cases hn
  · cases hg
    refine ⟨hlinked, hparent.trans h.module.symm, fun {b} hb => ?_, fun {a} ha hp => ?_,
      fun {i b} hi hb _ _ => ?_⟩
    · rw [hblocks] at hb
      cases Array.not_mem_empty _ hb
    · exact absurd ⟨a, ha, rfl⟩ hp
    · have hmem := h.orderly.block_mem_of_inst hi
      rw [hb, hblocks] at hmem
      cases Array.not_mem_empty _ hmem

theorem nodup_names {α β : Type} {table : Std.TreeMap String β} {name : α → String} {value : α → β}
    {l : List α} (hinj : ∀ x y, value x = value y → x = y) (hl : l.Nodup)
    (h : ∀ x ∈ l, table[name x]? = some (value x)) : (l.map name).Nodup := by
  refine hl.map_on fun x hx y hy hxy => hinj x y ?_
  have hfound := h x hx
  rw [hxy, h y hy] at hfound
  exact (Option.some.inj hfound).symm

theorem Current.namesApart (h : s.Current (fun _ => False) f) (hc : s.context.Orderly) :
    s.context.NamesApart f := by
  have hargs : ∀ a ∈ (s.context.func f).args.toList,
      s.locals[(s.context.arg a).name]? = some (.arg a) :=
    fun a ha => h.args ⟨ha⟩ id
  have hresults : ∀ i ∈ (((s.context.func f).blocks.toList.flatMap fun b =>
      (s.context.block b).insts.toList).filter fun i => !(s.context.inst i).type.isVoid),
      s.locals[(s.context.inst i).name]? = some (.inst i) := by
    intro i hi
    obtain ⟨⟨b, hb, hib⟩, hvoid⟩ := mem_results_iff.mp hi
    refine h.insts (hc.mem_parent hib) (hc.mem_block hb).1 (fun hv => ?_) id
    rw [hv] at hvoid
    cases hvoid
  have hblocks : ∀ b ∈ (s.context.func f).blocks.toList,
      s.labels[(s.context.block b).name]? = some (id b) := fun b hb => h.blocks ⟨hb⟩
  refine ⟨nodup_names (fun _ _ => id) (hc.blocks_nodup f) hblocks, fun _ =>
    List.nodup_append.mpr ⟨?_, ?_, ?_⟩⟩
  · exact nodup_names (fun _ _ => Value.arg.inj) (hc.args_nodup f) hargs
  · exact nodup_names (fun _ _ => Value.inst.inj) ((hc.toPlaced.flatMap_insts_nodup f).filter _)
      hresults
  · intro n hn n' hn' heq
    obtain ⟨a, ha, rfl⟩ := List.mem_map.mp hn
    obtain ⟨i, hi, rfl⟩ := List.mem_map.mp hn'
    have hfound := hargs a ha
    rw [heq, hresults i hi] at hfound
    cases hfound

theorem Reads.leave (h : s.Reads m (some f) fun _ => False)
    (hlabels : ∀ {n : String} {b}, s.labels[n]? = some b → (s.context.block b).linked = true)
    (hlocals : ∀ {n : String} {a}, s.locals[n]? = some (.arg a) →
      (s.context.arg a).index.isSome = true) :
    ({ s with function := none, locals := {}, labels := {} } : ParseState).Reads m none
      fun _ => False := by
  have hresolves : ∀ {v}, s.Resolves v →
      ({ s with function := none, locals := {}, labels := {} } : ParseState).Resolves v := by
    intro v hv
    cases v with
    | arg a => exact .inl (hv.elim id fun ⟨n, hn⟩ => hlocals hn)
    | block b => exact .inl (hv.elim id fun ⟨n, hn⟩ => hlabels hn)
    | const | inst | func | global => exact hv
  refine ⟨⟨h.orderly, h.scanned, h.module_lt, h.typed, fun hi hm hv => ?_,
    fun hv hm => hresolves (h.initial hv hm), fun hn => ?_, fun {g} hlt hm _ =>
      ?_, fun {n v} hn => ?_,
    fun {n b} hn => ?_, nofun⟩, h.module, rfl⟩
  · obtain ⟨w, rfl, hw⟩ := h.resolved hi hm hv
    exact ⟨w, rfl, hresolves hw⟩
  · obtain ⟨hlt, hparent, hname, hblocks⟩ := h.forward hn
    exact ⟨hlt, hparent, hname, hblocks⟩
  · by_cases hg : g = f
    · rw [hg]
      exact (h.current h.function).namesApart h.orderly
    · refine h.apart hlt hm fun hf => hg ?_
      exact (Option.some.inj (h.function.symm.trans hf)).symm
  · rw [Std.TreeMap.getElem?_emptyc] at hn
    cases hn
  · rw [Std.TreeMap.getElem?_emptyc] at hn
    cases hn

end ParseState

namespace Parse

variable {s s' : ParseState} {m : ModuleId} {f : FuncId} {b : BlockId}

/-! ## Blocks -/

theorem instructions_eq_ok {n : Nat} (hs : s.At m f b fun _ => False)
    (h : instructions f b n s = .ok u s') : s'.At m f b fun _ => False := by
  induction n generalizing s with
  | zero => simp [instructions] at h
  | succ n ih =>
    rw [instructions, current_bind] at h
    split at h
    · obtain ⟨-, rfl⟩ := pure_eq_ok_iff.mp h
      exact hs
    · rw [peek_bind] at h
      split at h
      · obtain ⟨-, rfl⟩ := pure_eq_ok_iff.mp h
        exact hs
      · obtain ⟨_, t, hinst, h⟩ := bind_eq_ok_iff.mp h
        exact ih (instruction_eq_ok hs hinst) h

theorem blockDefinition_eq_ok (hs : s.Reads m (some f) fun _ => False)
    (h : blockDefinition f s = .ok u s') : s'.Reads m (some f) fun _ => False := by
  rw [blockDefinition, current_bind, peek_bind] at h
  split at h
  · simp [bind_eq_ok_iff] at h
  · obtain ⟨_, s₁, hs₁, h⟩ := hs.step h
    obtain ⟨_, s₂, hs₂, h⟩ := hs₁.step h
    obtain ⟨b, s₃, hb, h⟩ := bind_eq_ok_iff.mp h
    obtain ⟨hgives, hlabel⟩ := block_eq_ok hs₂.toCoherent hs₂.function hb
    have hs₃ := hs₂.grows hgives.grows hgives.coherent
    rw [inContext_bind] at h
    split at h
    · simp [bind_eq_ok_iff] at h
    · obtain ⟨_, c, happend, h⟩ := construct_bind_eq_ok_iff.mp h
      obtain ⟨hparent, hnot, rfl⟩ := Build.appendBlock_eq_ok happend
      rw [modify_bind_apply, budget_bind] at h
      have hlinked := hs₃.linkBlock hlabel hnot
      have hlt := (hs₃.labels hlabel).2.choose_spec.2.1
      have hat := instructions_eq_ok
        (s := { s₃.within (s₃.context.linkBlock f b) with builder := s₃.builder.insertAt (some b) })
        ⟨hlinked.toCoherent.congr, hlinked.module, hlinked.function, rfl,
          ((s₃.context.onward_linkBlock f b).block hlt).2.2.trans hparent,
          (linked_linkBlock hlt).mpr (.inr rfl)⟩ h
      exact ⟨hat.toCoherent, hat.module, hat.function⟩

theorem blocks_eq_ok {n : Nat} (hs : s.Reads m (some f) fun _ => False)
    (h : blocks f n s = .ok u s') : s'.Reads m (some f) fun _ => False := by
  induction n generalizing s with
  | zero => simp [blocks] at h
  | succ n ih =>
    rw [blocks, at?_bind] at h
    split at h
    · obtain ⟨-, rfl⟩ := pure_eq_ok_iff.mp h
      exact hs
    · obtain ⟨_, t, hblock, h⟩ := bind_eq_ok_iff.mp h
      exact ih (blockDefinition_eq_ok hs hblock) h

/-! ## Parameters -/

theorem bindParams_eq_ok {l : List (ArgId × Param)}
    (hs : s.Reads m (some f) fun v => ∃ q ∈ l, v = .arg q.1)
    (hl : ∀ q ∈ l, q.1 ∈ (s.context.func f).args ∧ (s.context.arg q.1).name = q.2.name)
    (h : bindParams l s = .ok u s') : s'.Reads m (some f) fun _ => False := by
  induction l generalizing s with
  | nil =>
    obtain ⟨-, rfl⟩ := pure_eq_ok_iff.mp h
    exact ⟨hs.toCoherent.settle (fun _ _ ⟨_, hq, _⟩ => absurd hq List.not_mem_nil)
      fun _ ⟨_, hq, _⟩ => absurd hq List.not_mem_nil, hs.module, hs.function⟩
  | cons q l ih =>
    obtain ⟨_, t, hdefine, h⟩ := bind_eq_ok_iff.mp h
    obtain ⟨hmem, hname⟩ := hl q (.head _)
    obtain ⟨n, hn⟩ := Array.mem_iff_getElem?.mp hmem
    obtain ⟨hlt, hparent, hindex, type, htype, hsized⟩ := hs.orderly.mem_arg hn
    have hsome : (s.context.arg q.1).type.isSome = true := by
      rw [htype]
      rfl
    have hreal : ∀ a, Value.arg q.1 = .arg a → (s.context.arg a).index.isSome = true := by
      rintro a ⟨⟩
      rw [hindex]
      rfl
    have hvoid : s.context.typeOf (.arg q.1) ≠ some .void := by
      rw [show s.context.typeOf (.arg q.1) = some type from htype]
      rintro ⟨⟩
      cases hsized
    obtain ⟨hcoherent, hreworked, hframe, hfunction, -, hmodule⟩ := define_eq_ok (v := .arg q.1)
      hs.toCoherent hs.function trivial hname ⟨hlt, hparent, hsome⟩ hreal hvoid hdefine
    refine ih ⟨hcoherent.settle (fun _ _ hp => ?_) fun _ hp => ?_, hmodule.trans hs.module,
      hfunction.trans hs.function⟩ (fun q' hq' => ?_) h
    · obtain ⟨⟨q', hq', hv⟩, hne⟩ := hp
      rcases List.mem_cons.mp hq' with rfl | hq'
      · exact absurd hv hne
      · exact ⟨q', hq', hv⟩
    · obtain ⟨⟨_, _, hv⟩, -⟩ := hp
      cases hv
    · rw [(hreworked.func f).2.2.2.1, (Argument.of_code (arg_of_frame hframe _)).1]
      exact hl q' (.tail _ hq')

theorem checkResolved_eq_ok {pos : Position} (h : checkResolved f pos s = .ok u s') :
    s = s' ∧ (∀ {n : String} {b}, s.labels[n]? = some b → (s.context.block b).linked = true) ∧
      ∀ {n : String} {a}, s.locals[n]? = some (.arg a) → (s.context.arg a).index.isSome = true := by
  rw [checkResolved, get_bind_apply] at h
  cases hlabels : s.labels.toList.find? fun p => !(s.context.block p.2).linked with
  | some p => simp [hlabels, bind_eq_ok_iff] at h
  | none =>
    rw [hlabels] at h
    dsimp only at h
    generalize hlocals : s.locals.toList.find? _ = found at h
    cases found with
    | some p => simp at h
    | none =>
      obtain ⟨-, rfl⟩ := pure_eq_ok_iff.mp h
      refine ⟨rfl, fun {n b} hn => ?_, fun {n a} hn => ?_⟩
      · have hall := List.find?_eq_none.mp hlabels (n, b)
          (Std.TreeMap.mem_toList_iff_getElem?_eq_some.mpr hn)
        simpa using hall
      · have hall := List.find?_eq_none.mp hlocals (n, .arg a)
          (Std.TreeMap.mem_toList_iff_getElem?_eq_some.mpr hn)
        simpa [Option.isSome_iff_ne_none] using hall

end Parse

end SsaIr
