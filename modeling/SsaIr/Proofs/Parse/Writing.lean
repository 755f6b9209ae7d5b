import SsaIr.Proofs.Parse.Emission

/-!
# Writing instructions stays coherent

Making an instruction, giving it more operands, and retiring the stand-in of a result keep what
holds while a function is read. Read `ParseState.At` first, then `ParseState.Coherent.rework`, of
which these are cases.
-/

namespace SsaIr

open Context

variable {v : Value}

namespace ParseState

variable {s s' : ParseState} {pending pending' : Value → Prop} {m : ModuleId} {f : FuncId}
  {b : BlockId} {d : Context} {operands : List (Option Value)} {i : InstId}

/-- A function of a module is read, and its next instruction goes to one of its blocks. -/
structure At (s : ParseState) (m : ModuleId) (f : FuncId) (b : BlockId)
    (pending : Value → Prop) : Prop
    extends s.Coherent pending where
  module : s.module = m
  function : s.function = some f
  builder : s.builder.block = some b
  parent : (s.context.block b).parent = f
  linked : (s.context.block b).linked = true

theorem At.grows (h : s.At m f b pending) (hg : s.Grows s') (hs : s'.Coherent pending) :
    s'.At m f b pending where
  toCoherent := hs
  module := hg.module.trans h.module
  function := hg.function.trans h.function
  builder := hg.builder.symm ▸ h.builder
  parent := by
    rw [hg.context.block (block_lt_of_linked h.linked)]
    exact h.parent
  linked := hg.context.onward.block_linked h.linked

/-- Changes of the instructions of the function that is read, and of operands. -/
structure Rewrites (s : ParseState) (d : Context) (f : FuncId) : Prop where
  orderly : d.Orderly
  onward : s.context.Onward d
  functions : d.functions.size = s.context.functions.size
  globals : d.globals.size = s.context.globals.size
  arg : ∀ a, (d.arg a).name = (s.context.arg a).name
  func : ∀ g, (d.func g).args = (s.context.func g).args ∧
    (d.func g).blocks = (s.context.func g).blocks ∧
    (d.func g).linked = (s.context.func g).linked
  insts : ∀ b, (s.context.block b).parent ≠ f → (d.block b).insts = (s.context.block b).insts

theorem owns_of_usable (hf : s.function = some f) {vs : List (Option Value)}
    (hvs : ∀ v ∈ vs, ∃ w, v = some w ∧ s.Usable w) (hv : some v ∈ vs) :
    s.context.Owns f v := by
  obtain ⟨w, hvw, hw⟩ := hvs (some v) hv
  cases hvw
  exact hw.owns hf

theorem Coherent.rework (h : s.Coherent pending) (hf : s.function = some f) (hd : s.Rewrites d f)
    (hmono : ∀ v, pending v → pending' v) (hnew : ∀ {i b}, (d.inst i).parent = some b →
      (s.context.inst i).parent = some b ∨ pending' (.inst i))
    (ha : s.Amends d) : (s.within d).Coherent pending' := by
  refine h.alter hd.orderly hd.onward ha (fun {g} hg _ hne => .inl ⟨hd.functions ▸ hg,
    (hd.func g).1, (hd.func g).2.1, fun a _ => hd.arg a, fun b hb => hd.insts b fun hbf => hne ?_⟩)
    (fun hg _ => .inl (hd.globals ▸ hg)) (fun {n g} hn hl => ?_) fun {g} hg => ⟨hd.arg, ?_⟩
  · exact hf.trans (congrArg some (hbf.symm.trans (h.orderly.mem_block hb).1))
  · exact (hd.func g).2.1.trans ((h.forward hn).blocks ((hd.func g).2.2.symm.trans hl))
  · exact (h.current hg).onward h.orderly hd.onward rfl (hd.func g).1 (hd.func g).2.1
      (fun a _ => hd.arg a)
      hnew hmono id id

/-! ## Making an instruction -/

theorem rewrites_of_frame (horderly : d.Orderly) (hframe : d.frame = s.context.frame)
    (hreworked : s.context.Reworked d) : s.Rewrites d f where
  orderly := horderly
  onward := hreworked.onward
  functions := hreworked.functions
  globals := hreworked.globals
  arg a := (Argument.of_code (arg_of_frame hframe a)).1
  func g := ⟨(hreworked.func g).2.2.2.1, (hreworked.func g).2.2.2.2⟩
  insts b _ := (hreworked.block b).2.2.2

theorem At.rewrites_emitted (h : s.At m f b pending) (op : Operation) (name : String) (type : Ty)
    (hops : ∀ v, some v ∈ operands → s.context.Owns f v) :
    s.Rewrites (s.context.emitted b op name type operands) f := by
  have howns : ∀ v, some v ∈ operands → s.context.Owns (s.context.block b).parent v :=
    fun v hv => h.parent.symm ▸ hops v hv
  have hlt := block_lt_of_linked h.linked
  have hreworked := h.orderly.reworked_emitted op name type howns
  obtain ⟨hframe, -, -⟩ := h.orderly.emitted_edited op name type howns
  exact
    { orderly := h.orderly.emitted h.linked op name type howns
      onward := h.orderly.onward_emitted h.linked op name type howns
      functions := hreworked.functions
      globals := hreworked.globals
      arg := fun a => (Argument.of_code (arg_of_frame hframe a)).1
      func := fun g => ⟨(hreworked.func g).2.2.2.1, (hreworked.func g).2.2.2.2⟩
      insts := fun b' hb' => by
        rw [(hreworked.block b').2.2.2, block_emitted_nil hlt, if_neg]
        rintro rfl
        exact hb' h.parent }

theorem At.emitted (h : s.At m f b fun _ => False) (op : Operation) (name : String) (type : Ty)
    (hops : ∀ v ∈ operands, ∃ w, v = some w ∧ s.Usable w)
    (hx : s.context.Typed f { op, name, type, parent := some b, operands := operands.toArray })
    (hd : s.context.emitted b op name type operands = d) (hi : i.index = s.context.insts.size) :
    (s.within d).At m f b (· = .inst i) ∧ (d.inst i).parent = some b ∧ (d.inst i).type = type ∧
      (d.inst i).name = name := by
  have howns : ∀ v, some v ∈ operands → s.context.Owns f v :=
    fun v hv => owns_of_usable h.function hops hv
  have howns' : ∀ v, some v ∈ operands → s.context.Owns (s.context.block b).parent v :=
    fun v hv => h.parent.symm ▸ howns v hv
  have hrewrites := h.rewrites_emitted op name type howns
  have hreworked := h.orderly.reworked_emitted op name type howns'
  obtain ⟨-, -, hoperands⟩ := h.orderly.emitted_edited op name type howns'
  rw [hd] at hrewrites hreworked hoperands
  -- The new instruction is what it was made of, and the others stay.
  have hnew := hreworked.inst i
  rw [inst_emitted_nil, if_pos hi] at hnew
  have hopsnew := hoperands i
  rw [if_pos hi] at hopsnew
  have hcases : ∀ {j b'}, (d.inst j).parent = some b' → j ≠ i →
      (s.context.inst j).parent = some b' ∧ (d.inst j).operands = (s.context.inst j).operands := by
    intro j b' hj hne
    have hj' : j.index ≠ s.context.insts.size := fun heq =>
      hne (congrArg InstId.mk (heq.trans hi.symm))
    have hparent := (hreworked.inst j).2.2.2
    rw [inst_emitted_nil, if_neg hj'] at hparent
    have hops := hoperands j
    rw [if_neg hj'] at hops
    exact ⟨hparent.symm.trans hj, hops⟩
  have hblock := hrewrites.onward.block (block_lt_of_linked h.linked)
  have hlt := (h.current h.function).lt
  refine ⟨⟨h.rework h.function hrewrites (fun v hv => hv.elim) (fun {j b'} hj => ?_)
    ⟨fun {j b'} hj hm => ?_, fun {j b' v} hj hv => ?_⟩, h.module, h.function, h.builder,
      hblock.2.2.trans h.parent, hrewrites.onward.block_linked h.linked⟩, hnew.2.2.2, hnew.2.2.1,
        hnew.2.1⟩
  · by_cases hji : j = i
    · exact .inr (congrArg Value.inst hji)
    · exact .inl (hcases hj hji).1
  · by_cases hji : j = i
    · subst hji
      cases hnew.2.2.2.symm.trans hj
      rw [hblock.2.2, h.parent]
      refine .inr (hx.onward hrewrites.onward hlt
        (fun v hv => ?_) hnew.1 hnew.2.2.1 hnew.2.2.2 hopsnew)
      exact howns v (List.mem_toArray.mp hv)
    · exact .inl (hcases hj hji)
  · by_cases hji : j = i
    · subst hji
      rw [hopsnew] at hv
      obtain ⟨w, rfl, hw⟩ := hops v (List.mem_toArray.mp hv)
      exact .inr ⟨w, rfl, hw.resolves, (hw.owns h.function).tracks⟩
    · obtain ⟨hparent, hsame⟩ := hcases hj hji
      exact .inl ⟨hparent, hsame ▸ hv⟩

theorem At.emit (h : s.At m f b fun _ => False) {hint : String} {t : Bench}
    (hops : ∀ v ∈ operands, ∃ w, v = some w ∧ s.Usable w)
    (hemit : Builder.Emits ⟨s.context, s.builder⟩ hint operands i t) :
    ({ s.within t.context with builder := t.builder } : ParseState).At m f b (· = .inst i) ∧
      (t.context.inst i).parent = some b ∧
        ((t.context.inst i).type ≠ .void → hint ≠ "" → (t.context.inst i).name = hint) := by
  obtain ⟨d, b'⟩ := t
  obtain ⟨block, op, type, e, hb, hlearned, rfl, hb', rfl, -, hx⟩ := hemit
  replace hx := hx.typed
  cases h.builder.symm.trans hb
  -- What gets known on the way changes nothing, so the instruction is made in the context after it.
  have hmoved := moved_within (s := s) hlearned
  have he := h.grows hmoved.grows (h.moved hmoved)
  have hinsts : s.context.insts.size = e.insts.size := by
    obtain ⟨_, _, rfl⟩ := hlearned.same
    rfl
  have husable : ∀ v ∈ operands, ∃ w, v = some w ∧ (s.within e).Usable w := by
    intro v hv
    obtain ⟨w, rfl, hw⟩ := hops v hv
    exact ⟨w, rfl, hw.grows h.toCoherent hmoved.grows⟩
  rw [h.parent] at hx
  have hx := hx.onward hmoved.grows.context.onward (h.current h.function).lt
    (fun v hv => ?_) rfl rfl
    rfl rfl
  · obtain ⟨hat, hparent, htype, hname⟩ :=
      he.emitted op (s.builder.resultName type hint) type husable
      hx rfl (i := ⟨s.context.insts.size⟩) hinsts
    refine ⟨⟨hat.congr, h.module, h.function, hb', hat.parent, hat.linked⟩, hparent,
      fun hne hhint => ?_⟩
    have hvoid : type.isVoid = false := by
      cases type with
      | void => exact absurd htype hne
      | _ => rfl
    refine hname.trans ?_
    rw [Builder.resultName, hvoid, if_neg Bool.false_ne_true, if_neg hhint]
  · exact owns_of_usable h.function hops (List.mem_toArray.mp hv)

/-! ## More operands -/

theorem At.addOperands (h : s.At m f b pending) (hi : (s.context.inst i).parent = some b)
    {vs : List (Option Value)} (hvs : ∀ v ∈ vs, ∃ w, v = some w ∧ s.Usable w)
    (hx : ∀ y : Instruction, y.op = (s.context.inst i).op → y.type = (s.context.inst i).type →
      y.operands = (s.context.inst i).operands ++ vs.toArray → s.context.Fits f (s.context.inst i) →
        s.context.Fits f y) (hd : d = s.context.addOperands i vs) :
    (s.within d).At m f b pending ∧ s.context.Reworked d := by
  have howns : ∀ v, some v ∈ vs → s.context.Owns f v :=
    fun v hv => owns_of_usable h.function hvs hv
  obtain ⟨horderly, hreworked, hoperands⟩ := h.orderly.addOperands hi
    (fun v hv => h.parent.symm ▸ howns v hv)
  have hframe := (addOperands_spec h.orderly.linked (inst_lt_of_parent hi) vs
    fun v hv _ => (howns v hv).tracks).1
  rw [← hd] at horderly hreworked hoperands hframe
  have hcurrent := h.current h.function
  have hon := hreworked.onward
  have hparent := (hreworked.block b).2.1.trans h.parent
  refine ⟨⟨h.rework h.function (rewrites_of_frame horderly hframe hreworked) (fun _ => id)
    (fun {j b'} hj => .inl ((hreworked.inst j).2.2.2.symm.trans hj)) ⟨fun {j b'} hj hm => ?_,
      fun {j b' v} hj hv => ?_⟩, h.module, h.function, h.builder, hparent,
        hon.block_linked h.linked⟩, hreworked⟩
  · have hj' := (hreworked.inst j).2.2.2.symm.trans hj
    have hops := hoperands j
    split at hops
    · next hij =>
        subst hij
        cases hi.symm.trans hj'
        -- The instruction is well typed with its new operands, first in the context as it was.
        obtain ⟨hop, -, htype, hp⟩ := hreworked.inst i
        have hold := h.typed.inst hi (by rw [h.parent]; exact hcurrent.parent)
        rw [h.parent] at hold
        rw [hparent]
        refine .inr ((hold.append
          (y := { s.context.inst i with operands := (d.inst i).operands }) hops
          (hx _ rfl rfl hops)).onward hon hcurrent.lt (fun v hv => ?_) hop htype hp rfl)
        have hv : some v ∈ (s.context.inst i).operands ++ vs.toArray := hops ▸ hv
        rcases Array.mem_append.mp hv with hv | hv
        · rw [← h.parent]
          exact h.orderly.owned hi hv
        · exact howns v (List.mem_toArray.mp hv)
    · exact .inl ⟨hj', hops⟩
  · have hj' := (hreworked.inst j).2.2.2.symm.trans hj
    have hops := hoperands j
    rw [hops] at hv
    split at hv
    · next hij =>
        subst hij
        rcases Array.mem_append.mp hv with hv | hv
        · exact .inl ⟨hj', hv⟩
        · obtain ⟨w, rfl, hw⟩ := hvs v (List.mem_toArray.mp hv)
          exact .inr ⟨w, rfl, hw.resolves, (hw.owns h.function).tracks⟩
    · exact .inl ⟨hj', hv⟩

/-! ## Binding names -/

theorem Coherent.bind (h : s.Coherent pending) (hf : s.function = some f) {name : String}
    (hlocal : v.IsLocal) (hname : s.context.nameOf v = name) (howns : s.context.Owns f v)
    (hold : ∀ w, s.locals[name]? = some w → ∃ a, w = .arg a ∧ (s.context.arg a).index = none ∧
      ∀ i, some (.arg a) ∉ (s.context.inst i).operands) :
    ({ s with locals := s.locals.insert name v } : ParseState).Coherent
      fun w => pending w ∧ w ≠ v := by
  have hkept : ∀ {n : String} {w}, s.locals[n]? = some w → (∀ a, w = .arg a →
      (s.context.arg a).index = none → ∃ i, some (.arg a) ∈ (s.context.inst i).operands) →
        (s.locals.insert name v)[n]? = some w := by
    intro n w hn hw
    rw [getElem?_insert_name, if_neg]
    · exact hn
    · rintro rfl
      obtain ⟨a, rfl, hindex, hfree⟩ := hold w hn
      obtain ⟨i, hi⟩ := hw a rfl hindex
      exact hfree i hi
  have hreal : ∀ {w : Value}, (∀ a, w = .arg a → (s.context.arg a).index.isSome = true) → ∀ a,
    w = .arg a →
      (s.context.arg a).index = none → ∃ i, some (.arg a) ∈ (s.context.inst i).operands := by
    intro w hw a ha hnone
    have hsome := hw a ha
    rw [hnone] at hsome
    cases hsome
  refine ⟨h.orderly, h.scanned, h.module_lt, h.typed, fun {i b w} hi hm hw => ?_,
    fun {g w} hw hm => ?_, fun hn => ?_, h.apart, fun {n w} hn => ?_, h.labels, fun {g} hg => ?_⟩
  · obtain ⟨w', rfl, hr⟩ := h.resolved hi hm hw
    refine ⟨w', rfl, ?_⟩
    cases w' with
    | arg a =>
      rcases hr with hindex | ⟨n, hn⟩
      · exact .inl hindex
      · refine .inr ⟨n, hkept hn fun a' ha' _ => ?_⟩
        cases ha'
        exact ⟨i, hw⟩
    | const | inst | block | func | global => exact hr
  · have hshared := h.orderly.initial hw
    have hr := h.initial hw hm
    cases w with
    | arg a => exact hshared.elim
    | const | inst | block | func | global => exact hr
  · obtain ⟨hlt, hparent, hname, hblocks⟩ := h.forward hn
    exact ⟨hlt, hparent, hname, hblocks⟩
  · rw [getElem?_insert_name] at hn
    split at hn
    · next hnn =>
        cases hn
        exact ⟨hlocal, hname.trans hnn, f, hf, howns⟩
    · exact h.locals hn
  · obtain ⟨hlinked, hparent, hblocks, hargs, hinsts⟩ := h.current hg
    refine ⟨hlinked, hparent, hblocks, fun {a} ha hp => ?_, fun {i b} hi hb hne hp => ?_⟩
    · by_cases hav : Value.arg a = v
      · rw [hav, getElem?_insert_name, if_pos]
        rw [← hname, ← hav]
        rfl
      · obtain ⟨n, hn⟩ := Array.mem_iff_getElem?.mp ha
        refine hkept (hargs ha fun hp' => hp ⟨hp', hav⟩) (hreal fun a' ha' => ?_)
        cases ha'
        rw [(h.orderly.mem_arg hn).2.2.1]
        rfl
    · by_cases hiv : Value.inst i = v
      · rw [hiv, getElem?_insert_name, if_pos]
        rw [← hname, ← hiv]
        rfl
      · exact hkept (hinsts hi hb hne fun hp' => hp ⟨hp', hiv⟩) (hreal fun a' ha' => by cases ha')

theorem Coherent.retire (h : s.Coherent pending) (hf : s.function = some f) {a : ArgId}
    (ha : s.context.Owns f (.arg a)) (howns : s.context.Owns f v) (hresolves : s.Resolves v)
    (htype : s.context.typeOf (.arg a) = s.context.typeOf v)
    (hvoid : s.context.typeOf v ≠ some .void)
    (hne : v ≠ .arg a) (hd : d = s.context.moveUses (s.context.users (.arg a)) v) :
    (s.within d).Coherent pending ∧ s.context.Reworked d ∧ d.frame = s.context.frame ∧
      ∀ i, some (.arg a) ∉ (d.inst i).operands := by
  have hreach : ∀ {i b}, (s.context.inst i).parent = some b →
      some (.arg a) ∈ (s.context.inst i).operands →
        s.context.Owns (s.context.block b).parent v := by
    intro i b hi hop
    have hparent := (h.orderly.owned hi hop).2.1
    rwa [← hparent, ha.2.1]
  obtain ⟨horderly, hreworked, hoperands⟩ := h.orderly.moveUsers howns.tracks hreach
  have hframe : (s.context.moveUses (s.context.users (.arg a)) v).frame = s.context.frame :=
    (moveUsers_spec h.orderly.linked trivial fun _ => howns.tracks).1.frame
  rw [← hd] at horderly hreworked hoperands hframe
  have hon := hreworked.onward
  refine ⟨h.rework hf (rewrites_of_frame horderly hframe hreworked) (fun _ => id)
    (fun {j b'} hj => .inl ((hreworked.inst j).2.2.2.symm.trans hj)) ⟨fun {j b'} hj hm => .inr ?_,
      fun {j b' w} hj hw => ?_⟩, hreworked, hframe, fun i hi => ?_⟩
  · have hj' := (hreworked.inst j).2.2.2.symm.trans hj
    have hb := block_lt_of_linked (h.orderly.inst_linked hj')
    have hlt := h.orderly.block_parent hb
    rw [(hon.block hb).2.2, (hon.func hlt).2.2.1] at hm
    rw [(hon.block hb).2.2]
    obtain ⟨hop, -, hty, hp⟩ := hreworked.inst j
    -- The instruction is well typed with the other operands, first in the context as it was.
    have hsubst := (h.typed.inst hj' hm).subst htype hvoid
      (y := { s.context.inst j with operands := (d.inst j).operands }) rfl rfl rfl (hoperands j)
    refine hsubst.onward hon hlt (fun w hw => ?_) hop hty hp rfl
    have hw : some w ∈ (s.context.inst j).operands.map (substOperand (.arg a) v) :=
      hoperands j ▸ hw
    obtain ⟨x, hx, hxw⟩ := Array.mem_map.mp hw
    unfold substOperand at hxw
    split at hxw
    · next hold =>
        cases hxw
        rw [hold] at hx
        have hparent := (h.orderly.owned hj' hx).2.1
        rwa [← hparent, ha.2.1]
    · exact h.orderly.owned hj' (hxw ▸ hx)
  · have hj' := (hreworked.inst j).2.2.2.symm.trans hj
    rw [hoperands] at hw
    obtain ⟨x, hx, hxw⟩ := Array.mem_map.mp hw
    unfold substOperand at hxw
    split at hxw
    · exact .inr ⟨v, hxw.symm, hresolves, howns.tracks⟩
    · exact .inl ⟨hj', hxw ▸ hx⟩
  · rw [hoperands] at hi
    obtain ⟨x, -, hxw⟩ := Array.mem_map.mp hi
    unfold substOperand at hxw
    split at hxw
    · exact hne (Option.some.inj hxw)
    · next hx => exact hx hxw

end ParseState

namespace Parse

variable {s s' : ParseState} {pending : Value → Prop} {f : FuncId}

theorem define_eq_ok (hs : s.Coherent pending) (hf : s.function = some f) {name : String}
    {pos : Position} {u : Unit} (hlocal : v.IsLocal) (hname : s.context.nameOf v = name)
    (howns : s.context.Owns f v) (hreal : ∀ a, v = .arg a → (s.context.arg a).index.isSome = true)
    (hvoid : s.context.typeOf v ≠ some .void) (h : define name pos v s = .ok u s') :
    s'.Coherent (fun w => pending w ∧ w ≠ v) ∧ s.context.Reworked s'.context ∧
      s'.context.frame = s.context.frame ∧ s'.function = s.function ∧ s'.builder = s.builder ∧
        s'.module = s.module := by
  have hresolves : s.Resolves v := by
    cases v with
    | arg a => exact .inl (hreal a rfl)
    | inst i => trivial
    | const | block | func | global => exact hlocal.elim
  rw [define, EStateM.get_bind_apply] at h
  cases hold : s.locals[name]? with rw [hold] at h
  | none =>
    cases h
    refine ⟨hs.bind hf hlocal hname howns fun w hw => ?_, reworked_of_frame rfl id, rfl, rfl,
      rfl, rfl⟩
    cases hold.symm.trans hw
  | some old =>
    dsimp only at h
    rw [inContext_bind] at h
    obtain ⟨hlocal', -, g, hg, howns'⟩ := hs.locals hold
    cases hf.symm.trans hg
    -- Only a stand-in may be bound anew.
    cases old with
    | arg a =>
      cases hindex : (s.context.arg a).index with
      | some n => simp [hindex, EStateM.bind_eq_ok_iff] at h
      | none =>
        simp only [hindex, Option.isNone_none, Bool.not_true, Bool.false_eq_true, if_false,
          inContext_bind] at h
        split at h
        · simp [EStateM.bind_eq_ok_iff] at h
        · next htype =>
            rw [not_not] at htype
            obtain ⟨_, d, hreplace, h⟩ := construct_bind_eq_ok_iff.mp h
            cases h
            have hne : v ≠ .arg a := by
              rintro rfl
              have hsome := hreal a rfl
              rw [hindex] at hsome
              cases hsome
            have hd : d = s.context.moveUses (s.context.users (.arg a)) v := by
              unfold Build.replaceUses at hreplace
              rw [if_neg (Ne.symm hne)] at hreplace
              have hreplace := (Build.require_bind_eq_ok_iff.mp hreplace).2
              cases hreplace
              rfl
            obtain ⟨hcoherent, hreworked, hframe, hfree⟩ :=
              hs.retire hf howns' howns hresolves htype hvoid hne hd
            have hname' : d.nameOf v = name := by
              cases v with
              | arg a' => exact (Argument.of_code (arg_of_frame hframe a')).1.trans hname
              | inst i => exact (hreworked.inst i).2.1.trans hname
              | const | block | func | global => exact hlocal.elim
            refine ⟨hcoherent.bind hf hlocal hname'
              (hreworked.onward.owns (hs.current hf).lt howns) fun w hw => ?_, hreworked, hframe,
                rfl, rfl, rfl⟩
            cases hold.symm.trans hw
            exact ⟨a, rfl, (hreworked.arg a).2.2.trans hindex, hfree⟩
    | inst i => simp [EStateM.bind_eq_ok_iff] at h
    | const | block | func | global => exact hlocal'.elim

end Parse

end SsaIr
