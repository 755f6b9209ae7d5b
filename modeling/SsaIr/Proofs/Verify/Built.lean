import SsaIr.Proofs.Graph.Refusal
import SsaIr.Proofs.Parse.Emission
import SsaIr.Proofs.Verify.Reports

/-!
# Types of what builders make

Builders check the types of operands before they make an instruction, and types of what is there
never change. So the verifier finds no wrong types in programs that were put together by builders
only (`Context.Made`), apart from two kinds of instructions: a return of something of type void, and
a switch with a case that is no integer. The main result is `Workshop.mismatch_only_of_loose`.
-/

namespace SsaIr

section Building

open EStateM Build Context

/-- The edit makes something, and leaves alone what was there. -/
def Edit.isMaking : Edit → Bool
  | .setInitializer .. | .setOperand .. | .replaceUses .. | .erase _ => false
  | _ => true

theorem Instruction.mem_cases_append {x y : Instruction} {vs : Array (Option Value)}
    (hops : y.operands = x.operands ++ vs) : ∀ p ∈ x.cases, p ∈ y.cases := by
  have hpairs : ∀ (l m : List (Option Value)), ∀ p ∈ pairs l, p ∈ pairs (l ++ m) := by
    intro l m
    induction l using pairs.induct with
    | case1 v w rest ih =>
      rw [List.cons_append, List.cons_append, pairs, pairs]
      exact fun p hp => (List.mem_cons.mp hp).elim (fun h => h ▸ .head _) fun hp =>
        .tail _ (ih p hp)
    | case2 l hl =>
      intro p hp
      rw [pairs] at hp
      · cases hp
      · exact hl
  intro p hp
  rw [Instruction.cases, hops, Array.toList_append, List.drop_append]
  exact hpairs _ _ p hp

namespace Context

/-- The instruction returns something of type void, or is a switch with a case that is no
integer. -/
def Loose (c : Context) (x : Instruction) : Prop :=
  x.op = .ret ∧ c.Awaits x ∨ x.op = .switch ∧ ∃ p ∈ x.cases, ∀ w v, p.1 ≠ some (.const (.int w v))

/-- The operands are values with types, and the operation fits them unless it is loose. -/
def Settled (c : Context) (f : FuncId) (x : Instruction) : Prop :=
  (∀ v ∈ x.operands, ∃ w t, v = some w ∧ c.Tracks w ∧ c.typeOf w = some t) ∧
    (c.Fits f x ∨ c.Loose x)

/-- Every instruction stands in a block of a function and is settled; every signature is that of the
arguments. -/
structure Made (c : Context) : Prop where
  block : ∀ {b}, b.index < c.blocks.size → (c.block b).parent.index < c.functions.size
  inst : ∀ {i b}, (c.inst i).parent = some b → b.index < c.blocks.size ∧
    c.Settled (c.block b).parent (c.inst i)
  arg : ∀ {f a}, a ∈ (c.func f).args → a.index < c.args.size ∧ isSized (c.arg a).type = true
  func : ∀ {f sig}, (c.func f).signature = some sig →
    (c.func f).args.toList.map (fun a => (c.arg a).type) = sig.params.map some

section

variable {c d : Context} {f : FuncId}

theorem Onward.tracks (h : c.Onward d) {v : Value} (hv : c.Tracks v) : d.Tracks v := by
  cases v with
  | const => exact h.const hv
  | arg => exact (h.arg hv).1
  | inst => exact (h.inst hv).1
  | block => exact (h.block hv).1
  | func => exact (h.func hv).1
  | global => exact (h.global hv).1

theorem Onward.typeOf_eq (h : c.Onward d) {v : Value} {t : Ty} (hv : c.Tracks v)
    (ht : c.typeOf v = some t) :
    d.typeOf v = some t := by
  cases v with
  | const | block => exact ht
  | arg => exact (h.arg hv).2.1.trans ht
  | inst => exact (congrArg some (h.inst hv).2.2.2.1).trans ht
  | func =>
    obtain ⟨sig, hsig, ht⟩ := Option.map_eq_some_iff.mp ht
    exact Option.map_eq_some_iff.mpr ⟨sig, ((h.func hv).2.2.2.2 hsig).1, ht⟩
  | global => exact (congrArg (fun t => some (Ty.pointer t)) (h.global hv).2.2.2.1).trans ht

theorem Settled.onward {x y : Instruction} (h : c.Settled f x) (hon : c.Onward d)
    (hf : f.index < c.functions.size)
    (hop : y.op = x.op) (htype : y.type = x.type) (hparent : y.parent = x.parent)
    (hops : y.operands = x.operands) : d.Settled f y := by
  have htypes : ∀ v, some v ∈ x.operands → d.typeOf v = c.typeOf v := by
    intro v hv
    obtain ⟨w, t, hw, htracks, ht⟩ := h.1 _ hv
    cases hw
    rw [ht]
    exact hon.typeOf_eq htracks ht
  refine ⟨fun v hv => ?_, h.2.imp ?_ (Or.imp ?_ ?_)⟩
  · obtain ⟨w, t, rfl, htracks, ht⟩ := h.1 v (hops ▸ hv)
    exact ⟨w, t, rfl, hon.tracks htracks, hon.typeOf_eq htracks ht⟩
  · exact fun hfits => hfits.congr (hon.func hf).2.2.2.1 htypes hop htype hparent hops
  · rintro ⟨hret, v, hv, hvoid⟩
    exact ⟨hop.trans hret, v, hops ▸ hv, (htypes v hv).trans hvoid⟩
  · rw [hop, Instruction.cases, Instruction.cases, hops]
    exact id

theorem Settled.append {x y : Instruction} {vs : Array (Option Value)} (h : c.Settled f x)
    (hops : y.operands = x.operands ++ vs)
    (hvs : ∀ v ∈ vs, ∃ w t, v = some w ∧ c.Tracks w ∧ c.typeOf w = some t) (hop : y.op = x.op)
    (hfits : c.Fits f x → c.Fits f y ∨ c.Loose y) : c.Settled f y := by
  refine ⟨fun v hv => ?_, ?_⟩
  · rw [hops] at hv
    rcases Array.mem_append.mp hv with hv | hv
    · exact h.1 v hv
    · exact hvs v hv
  · rcases h.2 with hx | ⟨hret, v, hv, hvoid⟩ | ⟨hswitch, p, hp, hne⟩
    · exact hfits hx
    · exact .inr (.inl ⟨hop.trans hret, v, hops ▸ Array.mem_append_left _ hv, hvoid⟩)
    · exact .inr (.inr ⟨hop.trans hswitch, p, Instruction.mem_cases_append hops p hp, hne⟩)

theorem Made.onward (h : c.Made) (hon : c.Onward d)
    (hblock : ∀ {b}, b.index < d.blocks.size →
      b.index < c.blocks.size ∨ (d.block b).parent.index < d.functions.size)
    (hinst : ∀ {i b}, (d.inst i).parent = some b →
      (c.inst i).parent = some b ∧ (d.inst i).operands = (c.inst i).operands ∨
        b.index < d.blocks.size ∧ d.Settled (d.block b).parent (d.inst i))
    (harg : ∀ {f a}, a ∈ (d.func f).args →
      a ∈ (c.func f).args ∨ a.index < d.args.size ∧ isSized (d.arg a).type = true)
    (hfunc : ∀ {f sig}, (d.func f).signature = some sig → (c.func f).signature = some sig ∨
      (d.func f).args.toList.map (fun a => (d.arg a).type) = sig.params.map some) : d.Made where
  block {b} hb := by
    rcases hblock hb with hold | hnew
    · rw [(hon.block hold).2.2]
      exact (hon.func (h.block hold)).1
    · exact hnew
  inst {i b} hi := by
    rcases hinst hi with ⟨hold, hops⟩ | hnew
    · obtain ⟨hb, hsettled⟩ := h.inst hold
      obtain ⟨-, hop, -, htype, hparent⟩ := hon.inst (inst_lt_of_parent hold)
      rw [(hon.block hb).2.2]
      exact ⟨(hon.block hb).1, hsettled.onward hon (h.block hb) hop htype hparent hops⟩
    · exact hnew
  arg ha := by
    rcases harg ha with hold | hnew
    · obtain ⟨hlt, hsized⟩ := h.arg hold
      exact ⟨(hon.arg hlt).1, (hon.arg hlt).2.1 ▸ hsized⟩
    · exact hnew
  func {f sig} hsig := by
    rcases hfunc hsig with hold | hnew
    · have hf : f.index < c.functions.size :=
        Array.lt_size_of_getD (p := fun x => x.signature = some sig) hold nofun
      rw [((hon.func hf).2.2.2.2 hold).2, ← h.func hold]
      refine List.map_congr_left fun a ha => ?_
      exact (hon.arg (h.arg ⟨ha⟩).1).2.1
    · exact hnew

/-- All stands in its lists, and only instructions that stand in a block have operands. -/
structure Lodged (c : Context) : Prop extends c.Filed where
  operands_parent : ∀ {i}, (c.inst i).operands.size ≠ 0 → (c.inst i).parent.isSome = true

theorem Lodged.congr (h : c.Lodged) (hd : d.Filed)
    (hparent : ∀ i, (d.inst i).parent = (c.inst i).parent)
    (hsize : ∀ i, (d.inst i).operands.size = (c.inst i).operands.size) : d.Lodged where
  toFiled := hd
  operands_parent hi := by
    rw [hparent]
    exact h.operands_parent (hsize _ ▸ hi)

/-- Programs grow. If builders made what was there, they made what is there then; and given `p`, all
is lodged if it was. -/
structure Builds (p : Prop) (c d : Context) : Prop where
  onward : c.Onward d
  made : c.Made → d.Made
  lodged : p → c.Lodged → d.Lodged

variable {p : Prop}

theorem Builds.trans {e : Context} (h : Builds p c d) (h' : Builds p d e) : Builds p c e :=
  ⟨h.onward.trans h'.onward, h'.made ∘ h.made, fun hp => h'.lodged hp ∘ h.lodged hp⟩

theorem builds_of_funcs (hon : c.Onward d) (hlodged : p → c.Lodged → d.Lodged)
    (hblocks : d.blocks.size = c.blocks.size)
    (hfunc : ∀ g, (d.func g).args = (c.func g).args ∧ (d.func g).signature = (c.func g).signature)
    (hinst : c.Made → ∀ {i b}, (d.inst i).parent = some b →
      (c.inst i).parent = some b ∧ (d.inst i).operands = (c.inst i).operands ∨
        b.index < d.blocks.size ∧ d.Settled (d.block b).parent (d.inst i)) : Builds p c d where
  onward := hon
  made h := h.onward hon (fun hb => .inl (hblocks ▸ hb)) (hinst h)
    (fun {g _} ha => .inl ((hfunc g).1 ▸ ha)) fun {g _} hsig => .inl ((hfunc g).2 ▸ hsig)
  lodged := hlodged

theorem builds_of_insts (hon : c.Onward d) (hfiled : p → c.Filed → d.Filed)
    (hinsts : d.insts = c.insts) (hblocks : d.blocks.size = c.blocks.size)
    (hfunc : ∀ g, (d.func g).args = (c.func g).args ∧ (d.func g).signature = (c.func g).signature) :
    Builds p c d := by
  have hinst : ∀ i, d.inst i = c.inst i := fun i => by rw [Context.inst, hinsts, Context.inst]
  refine builds_of_funcs hon (fun hp h => h.congr (hfiled hp h.toFiled) (fun i => by rw [hinst])
    fun i => by rw [hinst]) hblocks hfunc fun _ {i b} hi => .inl ?_
  rw [hinst] at hi ⊢
  exact ⟨hi, rfl⟩

theorem Learned.builds (h : c.Learned d) : Builds p c d := by
  have hext := h.toExtends
  obtain ⟨types, constants, rfl⟩ := h.same
  exact builds_of_insts hext.onward (fun _ => hext.filed) rfl rfl fun _ => ⟨rfl, rfl⟩

theorem builds_pushFunc {m : ModuleId} (hm : p → m.index < c.modules.size) (name : String)
    (r : Ty) :
    Builds p c (c.pushFunc { name, parent := m, ret := r }) := by
  have hold : ∀ {g : FuncId}, g.index < c.functions.size →
      (c.pushFunc { name, parent := m, ret := r }).func g = c.func g := fun hg => by
    rw [func_pushFunc, if_neg hg.ne]
  have hon : c.Onward (c.pushFunc { name, parent := m, ret := r }) :=
    { Onward.refl c with
      func := fun {g} hg => by
        rw [hold hg, pushFunc, Array.size_push]
        exact ⟨Nat.lt_succ_of_lt hg, rfl, rfl, rfl, fun hsig => ⟨hsig, rfl⟩⟩
      func_linked := fun hg => by rwa [hold (func_lt_of_linked hg)] }
  refine builds_of_insts hon (fun hp => (extends_pushFunc rfl rfl rfl rfl (hm hp)).filed) rfl rfl
    fun g => ?_
  rw [func_pushFunc]
  split
  · next hg =>
      rw [Context.func, Array.getD_of_not_lt _ (by omega)]
      exact ⟨rfl, rfl⟩
  · exact ⟨rfl, rfl⟩

theorem builds_withArg {name : String} {t : Ty} (hf : f.index < c.functions.size)
    (hopen : (c.func f).signature = none) (ht : t.isSized = true) :
    Builds p c (c.withArg f name t) := by
  have hon := onward_withArg hopen name t
  choose args hfunc using c.func_fields_withArg f name t
  refine ⟨hon, fun h => h.onward hon .inl (fun hi => .inl ⟨hi, rfl⟩) (fun {g a} ha => ?_)
    fun {g sig} hsig => .inl (by rw [hfunc] at hsig; exact hsig),
    fun _ h => ⟨h.withArg hf name t, h.operands_parent⟩⟩
  obtain ⟨n, hn⟩ := Array.mem_iff_getElem?.mp ha
  rcases (args_withArg hf name t).mp hn with hn | ⟨-, -, rfl⟩
  · exact .inl (Array.mem_of_getElem? hn)
  · rw [args_size_withArg, arg_withArg, if_pos rfl]
    exact .inr ⟨Nat.lt_succ_self _, ht⟩

theorem builds_withSignature {params : List Ty} {r : Ty} {variadic : Bool}
    (hopen : (c.func f).signature = none)
    (hargs : (c.func f).args.toList.map (fun a => (c.arg a).type) = params.map some) :
    Builds p c (c.withSignature f (.function r params variadic)) := by
  have hreworked := reworked_withSignature hopen (.function r params variadic)
  have hon := hreworked.onward
  refine ⟨hon, fun h => h.onward hon .inl (fun hi => .inl ⟨hi, rfl⟩)
    (fun {g a} ha => .inl ((hreworked.func g).2.2.2.1 ▸ ha)) fun {g sig} hsig => ?_,
    fun _ h => ⟨hreworked.filed h.toFiled, h.operands_parent⟩⟩
  rw [(hreworked.func g).2.2.2.1]
  rw [func_withSignature] at hsig
  split at hsig
  · next hfg =>
      cases hsig
      exact .inr (hfg.1 ▸ hargs)
  · exact .inl hsig

theorem builds_linkFunc {m : ModuleId} (hf : f.index < c.functions.size)
    (hm : p → m.index < c.modules.size) (hparent : (c.func f).parent = m) :
    Builds p c (c.linkFunc m f) := by
  refine builds_of_insts (c.onward_linkFunc m f) (fun hp h => h.linkFunc hf (hm hp) hparent) rfl rfl
    fun g => ?_
  obtain ⟨linked, hfunc⟩ := c.func_fields_linkFunc m f g
  rw [hfunc]
  exact ⟨rfl, rfl⟩

theorem builds_linkBlock {b : BlockId} (hb : b.index < c.blocks.size)
    (hf : f.index < c.functions.size)
    (hparent : (c.block b).parent = f) (hnew : (c.block b).linked = false) :
    Builds p c (c.linkBlock f b) := by
  refine builds_of_insts (c.onward_linkBlock f b) (fun _ h => h.linkBlock hb hf hparent hnew) rfl
    Array.size_modify fun g => ?_
  obtain ⟨blocks, hfunc⟩ := c.func_fields_linkBlock f b g
  rw [hfunc]
  exact ⟨rfl, rfl⟩

theorem builds_pushBlock (hf : f.index < c.functions.size) (name : String) :
    Builds p c (c.pushBlock { name, parent := f }) := by
  have hext := extends_pushBlock (x := { name, parent := f }) rfl rfl rfl hf
  refine ⟨hext.onward, fun h => h.onward hext.onward (fun {b} hb => ?_) (fun hi => .inl ⟨hi, rfl⟩)
    .inl .inl, fun _ h => ⟨hext.filed h.toFiled, h.operands_parent⟩⟩
  rw [block_pushBlock]
  split
  · exact .inr hf
  · have hsize : (c.pushBlock { name, parent := f }).blocks.size = c.blocks.size + 1 :=
      Array.size_push _
    exact .inl (by omega)

theorem func_fields_of_frame (h : d.frame = c.frame) (g : FuncId) :
    (d.func g).args = (c.func g).args ∧ (d.func g).signature = (c.func g).signature := by
  obtain ⟨-, hargs, -, -, hsig, -⟩ := Function.of_code (func_of_frame h g)
  exact ⟨hargs, hsig⟩

section

variable (hl : c.Linked fun _ => True)
include hl

theorem builds_emitted {b : BlockId} (hb : b.index < c.blocks.size)
    {op : Operation} {name : String} {type : Ty} {operands : List (Option Value)}
    (hops : ∀ v, some v ∈ operands → c.Tracks v) (hx : c.Made → c.Settled (c.block b).parent
      { op, name, type, parent := some b, operands := operands.toArray }) :
    Builds p c (c.emitted b op name type operands) := by
  obtain ⟨hspec, -⟩ :=
    emitted_spec (hl.mono fun _ _ => trivial) b op name type operands fun v hv _ => hops v hv
  obtain ⟨hnil, -⟩ := emitted_spec (hl.mono fun _ _ => trivial) b op name type [] fun v hv =>
    by cases hv
  have hframe := hspec.frame_eq.trans hnil.frame_eq.symm
  have hreworked := reworked_of_frame hframe fun {k} hk => hspec.tracks (.const k) hk
  have hon := (onward_emitted_nil hb op name type).trans hreworked.onward
  have hlodged : c.Lodged → (c.emitted b op name type operands).Lodged := by
    refine fun h => ⟨hreworked.filed (h.emitted_nil hb op name type), fun {i} hi => ?_⟩
    have hparent := (hreworked.inst i).2.2.2
    rw [hspec.operands_eq] at hi
    rw [inst_emitted_nil] at hparent
    rw [hparent]
    split at hi
    · next hnew => rw [if_pos hnew]; rfl
    · next hold => rw [if_neg hold]; exact h.operands_parent hi
  refine builds_of_funcs hon (fun _ => hlodged)
    (hreworked.blocks.trans Array.size_modify) (fun g => func_fields_of_frame hframe g)
    fun h {i b'} hi => ?_
  obtain ⟨hop, -, htype, hparent⟩ := hreworked.inst i
  have hoperands := hspec.operands_eq i
  rw [inst_emitted_nil] at hop htype hparent
  split at hoperands
  · next hnew =>
      rw [if_pos hnew] at hop htype hparent
      cases hparent.symm.trans hi
      refine .inr ⟨(hon.block hb).1, ?_⟩
      rw [(hon.block hb).2.2]
      exact (hx h).onward hon (h.block hb) hop htype hparent hoperands
  · next hold =>
      rw [if_neg hold] at hparent
      exact .inl ⟨hparent.symm.trans hi, hoperands⟩

theorem builds_addOperands {i : InstId} (hi : i.index < c.insts.size)
    {vs : List (Option Value)} (hvs : ∀ v, some v ∈ vs → c.Tracks v)
    (hplace : p → (c.inst i).parent.isSome = true)
    (hx : c.Made → ∀ b, (c.inst i).parent = some b → c.Settled (c.block b).parent
      { c.inst i with operands := (c.inst i).operands ++ vs.toArray }) :
    Builds p c (c.addOperands i vs) := by
  obtain ⟨hframe, -, htracks, hoperands⟩ := addOperands_spec hl hi vs fun v hv _ => hvs v hv
  have hreworked := reworked_of_frame hframe fun {k} hk => (htracks (.const k)).mpr hk
  have hon := hreworked.onward
  have hlodged : p → c.Lodged → (c.addOperands i vs).Lodged := by
    refine fun hp h => ⟨hreworked.filed h.toFiled, fun {j} hj => ?_⟩
    rw [(hreworked.inst j).2.2.2]
    rw [hoperands] at hj
    split at hj
    · next hij => exact hij ▸ hplace hp
    · exact h.operands_parent hj
  refine builds_of_funcs hon hlodged hreworked.blocks (func_fields_of_frame hframe)
    fun h {j b} hj => ?_
  obtain ⟨hop, -, htype, hparent⟩ := hreworked.inst j
  have hold := hparent.symm.trans hj
  have hops := hoperands j
  split at hops
  · next hij =>
      subst hij
      obtain ⟨hb, -⟩ := h.inst hold
      refine .inr ⟨(hon.block hb).1, ?_⟩
      rw [(hon.block hb).2.2]
      exact (hx h b hold).onward hon (h.block hb) hop htype hparent hops
  · exact .inl ⟨hold, hops⟩

/-- A value with a type and a block can be added if the instruction fits them or is loose then. -/
theorem builds_addPair {i : InstId} (hi : i.index < c.insts.size) {v : Value} {t : Ty}
    (hv : c.Tracks v) (ht : c.typeOf v = some t) {dest : BlockId} (hdest : c.Tracks (.block dest))
    (hplace : p → (c.inst i).parent.isSome = true) (hx : ∀ f, c.Fits f (c.inst i) →
      c.Fits f { c.inst i with operands := (c.inst i).operands ++ #[some v, some (.block dest)] } ∨
        c.Loose { c.inst i with operands :=
          (c.inst i).operands ++ #[some v, some (.block dest)] }) :
    Builds p c (c.addOperands i [some v, some (.block dest)]) := by
  refine builds_addOperands hl hi (fun w hw => ?_) hplace fun hmade block hparent =>
    (hmade.inst hparent).2.append rfl (fun w hw => ?_) rfl (hx _)
  · rcases List.mem_pair.mp hw with hw | hw <;> cases hw
    · exact hv
    · exact hdest
  · rcases List.mem_pair.mp (List.mem_toArray.mp hw) with rfl | rfl
    · exact ⟨v, t, rfl, hv, ht⟩
    · exact ⟨_, .label, rfl, hdest, rfl⟩

end

end

end Context

/-! ## Edits -/

namespace Edit

variable {s t : Bench} {p : Prop}

/-- The modules that an edit is given are there, and an instruction that gets more operands stands
in a block. -/
def Sited (c : Context) : Edit → Prop
  | newFunction m .. | linkFunction m _ | newGlobal m .. => m.index < c.modules.size
  | addIncoming i .. | addCase i .. => (c.inst i).parent.isSome = true
  | _ => True

instance (c : Context) (e : Edit) : Decidable (e.Sited c) := by
  unfold Sited
  split <;> infer_instance

theorem ofBuild_eq_ok {α : Type} {x : Build α} {c d : Context} {b b' : Builder} {a : α}
    (h : Building.ofBuild x ⟨c, b⟩ = .ok a ⟨d, b'⟩) : b' = b ∧ x c = .ok a d := by
  dsimp only [Building.ofBuild] at h
  cases hrun : x c with rw [hrun] at h
  | ok =>
    cases h
    exact ⟨rfl, rfl⟩
  | error => cases h

theorem eq_ok_of_discard {α : Type} {x : Build α} {c d : Context} {b b' : Builder}
    (h : Building.ofBuild (discard x) ⟨c, b⟩ = .ok () ⟨d, b'⟩) : b' = b ∧ ∃ a, x c = .ok a d := by
  obtain ⟨hb, h⟩ := ofBuild_eq_ok h
  obtain ⟨a, ha, -⟩ := map_eq_ok_iff.mp h
  exact ⟨hb, a, ha⟩

open Builder in
/-- Whatever a builder creates is made of operands with types and fits them, unless it returns
void. -/
theorem emits_create {i : Creation} {j : InstId} (h : i.build s = .ok j t) :
    ∃ hint, Emits s hint i.operands j t := by
  cases i with
  | ret v => exact ⟨"", ret_emits h⟩
  | retVoid => exact ⟨"", retVoid_emits h⟩
  | br dest =>
    cases dest with
    | none => cases h
    | some dest => exact ⟨"", br_emits h⟩
  | condBr cond yes no =>
    cases yes <;> cases no
    case some.some => exact ⟨"", condBr_emits h⟩
    all_goals
      obtain ⟨t, -, h⟩ := operandType_bind_eq_ok h
      rw [get_bind_apply] at h
      obtain ⟨-, h⟩ := require_bind_eq_ok_iff.mp h
      cases h
  | switch cond default =>
    cases default with
    | none =>
      obtain ⟨t, -, h⟩ := operandType_bind_eq_ok h
      rw [get_bind_apply] at h
      obtain ⟨-, h⟩ := require_bind_eq_ok_iff.mp h
      cases h
    | some default => exact ⟨"", switch_emits h⟩
  | binary => exact ⟨_, binary_emits h⟩
  | icmp => exact ⟨_, icmp_emits h⟩
  | fcmp => exact ⟨_, fcmp_emits h⟩
  | alloca t =>
    cases t with
    | none => cases h
    | some t => exact ⟨_, alloca_emits h⟩
  | load => exact ⟨_, load_emits h⟩
  | store => exact ⟨"", store_emits h⟩
  | gep source =>
    cases source with
    | none =>
      obtain ⟨t, -, h⟩ := operandType_bind_eq_ok h
      cases h
    | some source => exact ⟨_, gep_emits h⟩
  | cast => exact ⟨_, cast_emits h⟩
  | phi => exact ⟨_, phi_emits h⟩
  | call => exact ⟨_, call_emits h⟩

theorem builds_refused {e : Edit} {x : ContractError} (h : e.run s = .error x t) :
    Builds (e.Sited s.context) s.context t.context ∧ t.builder = s.builder := by
  obtain ⟨hlearned | ⟨m, name, r, rfl, -, hlearned⟩, hb⟩ := e.eq_error h
  · exact ⟨hlearned.builds, hb⟩
  · exact ⟨(builds_pushFunc (fun h => h) name r).trans hlearned.builds, hb⟩

section

variable (hl : s.context.Linked fun _ => True)
include hl

theorem builds_of_emits
    (hb : ∀ block, s.builder.block = some block → block.index < s.context.blocks.size)
    {hint : String} {operands : List (Option Value)}
    (hops : ∀ v, some v ∈ operands → s.context.Tracks v) {j : InstId}
    (h : Builder.Emits s hint operands j t) :
    Builds p s.context t.context ∧ t.builder.block = s.builder.block := by
  obtain ⟨block, op, type, e, hblock, hlearned, rfl, hb', ht, htyped, hbuilt⟩ := h
  have hsettled : s.context.Settled (s.context.block block).parent
      { op, name := s.builder.resultName type hint, type, parent := some block,
        operands := operands.toArray } := by
    refine ⟨fun v hv => ?_, hbuilt.imp_right .inl⟩
    have hv := List.mem_toArray.mp hv
    obtain ⟨t, ht⟩ := Option.isSome_iff_exists.mp (htyped v hv)
    obtain ⟨w, rfl, hw⟩ := Option.bind_eq_some_iff.mp ht
    exact ⟨w, t, rfl, hops w hv, hw⟩
  have hbuilds : Builds p s.context e := hlearned.builds
  have hext := hlearned.toExtends
  have hle : e.Linked fun _ => True := hl.of_insts hext.inst hext.users
  have hconst : ∀ {v}, s.context.Tracks v → e.Tracks v := hbuilds.onward.tracks
  obtain ⟨types, constants, rfl⟩ := hlearned.same
  refine ⟨?_, hb'.trans hblock.symm⟩
  rw [ht]
  refine hbuilds.trans (builds_emitted hle (hb block hblock) (fun v hv => hconst (hops v hv)) ?_)
  exact fun he => hsettled.onward hbuilds.onward (he.block (hb block hblock)) rfl rfl rfl rfl

theorem builds_addCase {i : InstId} (hi : i.index < s.context.insts.size) {k : Const}
    (hk : s.context.Tracks (.const k)) {dest : BlockId} (hdest : s.context.Tracks (.block dest))
    (hplace : p → (s.context.inst i).parent.isSome = true) {d : Context}
    (h : Build.addCase i (some k) (some dest) s.context = .ok () d) :
    Builds p s.context d := by
  obtain ⟨rfl, hop, -⟩ := addCase_eq_ok (f := default) h
  refine builds_addPair (v := .const k) hl hi hk rfl hdest hplace fun f hx => ?_
  by_cases hint : ∃ w v, k = .int w v
  · obtain ⟨w, v, rfl⟩ := hint
    exact .inl ((addCase_eq_ok h).2.2 rfl _ rfl rfl rfl hx)
  · -- The case stands last and is no integer.
    have hx := hx default default
    rw [Site.OperationTyped, hop, Site.OperationWell, hop] at hx
    refine .inr (.inr ⟨hop, (some (.const k), some (.block dest)), ?_, fun w v heq => ?_⟩)
    · rw [Instruction.cases_append (x := s.context.inst i) rfl hx.1.1 hx.1.2]
      exact List.mem_append_right _ (List.mem_singleton_self _)
    · cases heq
      exact hint ⟨w, v, rfl⟩

theorem builds_run {e : Edit}
    (hb : ∀ block, s.builder.block = some block → block.index < s.context.blocks.size)
    (he : e.Applies s.context) (hmaking : e.isMaking = true) (h : e.run s = .ok () t) :
    Builds (e.Sited s.context) s.context t.context ∧
      ∀ block, t.builder.block = some block → block.index < t.context.blocks.size := by
  obtain ⟨c, b⟩ := s
  obtain ⟨d, b'⟩ := t
  have hkeep : ∀ {p}, b'.block = b.block → Builds p c d →
      Builds p c d ∧ ∀ block, b'.block = some block → block.index < d.blocks.size :=
    fun hb' hbuilds =>
      ⟨hbuilds, fun block hblock => (hbuilds.onward.block (hb block (hb' ▸ hblock))).1⟩
  have hlearn : ∀ {p : Prop} {α : Type} {x : Build α} [Build.Keeps Learned x] {a : α},
    x c = .ok a d →
      Builds p c d := by
    intro p α x hx a hrun
    have hlearned := hx.run c
    rw [hrun] at hlearned
    exact hlearned.builds
  unfold run at h
  cases e with
  | setInitializer | setOperand | replaceUses | erase => cases hmaking
  | newModule name =>
    obtain ⟨rfl, m, hm⟩ := eq_ok_of_discard h
    cases hm
    have hreworked := c.reworked_pushModule name
    exact hkeep rfl (builds_of_insts hreworked.onward (fun _ => hreworked.filed) rfl rfl
      fun _ => ⟨rfl, rfl⟩)
  | newFunction m name ret linked =>
    have hm : (newFunction m name ret linked).Sited c → m.index < c.modules.size := id
    cases ret with
    | none => cases linked <;> cases h
    | some r =>
      cases linked with
      | false =>
        obtain ⟨rfl, f, hf⟩ := eq_ok_of_discard (x := newDetachedFunction m name (some r)) h
        obtain ⟨-, -, rfl⟩ := newDetachedFunction_eq_ok hf
        exact hkeep rfl (builds_pushFunc hm name r)
      | true =>
        obtain ⟨rfl, f, hf⟩ := eq_ok_of_discard (x := Build.newFunction m name (some r)) h
        obtain ⟨f, e, hnew, hf⟩ := bind_eq_ok_iff.mp hf
        obtain ⟨-, rfl, rfl⟩ := newDetachedFunction_eq_ok hnew
        obtain ⟨_, e, hlink, hf⟩ := bind_eq_ok_iff.mp hf
        obtain ⟨hparent, -, -, -, rfl⟩ := linkFunction_eq_ok hlink
        cases hf
        refine hkeep rfl ((builds_pushFunc hm name r).trans (builds_linkFunc ?_ hm hparent))
        rw [pushFunc, Array.size_push]
        exact Nat.lt_succ_self _
  | linkFunction m f =>
    obtain ⟨rfl, hlink⟩ := ofBuild_eq_ok h
    obtain ⟨hparent, -, -, -, rfl⟩ := linkFunction_eq_ok hlink
    exact hkeep rfl (builds_linkFunc (he.1 (.func f) (.head _)) (fun h => h) hparent)
  | addArgument f t name =>
    obtain ⟨rfl, a, ha⟩ := eq_ok_of_discard h
    cases t with
    | none =>
      obtain ⟨-, ha⟩ := require_bind_eq_ok_iff.mp ha
      cases ha
    | some t =>
      obtain ⟨hopen, hsized, rfl⟩ := addArgument_eq_ok ha
      exact hkeep rfl (builds_withArg (he.1 (.func f) (.head _)) hopen hsized)
  | finalizeSignature f variadic =>
    obtain ⟨rfl, hsig⟩ := ofBuild_eq_ok h
    obtain ⟨hopen, params, e, hlearned, hargs, rfl⟩ := finalizeSignature_eq_ok hsig
    refine hkeep rfl (hlearned.builds.trans ?_)
    obtain ⟨types, constants, rfl⟩ := hlearned.same
    exact builds_withSignature hopen hargs
  | newPlaceholder f t name =>
    obtain ⟨rfl, a, ha⟩ := eq_ok_of_discard h
    cases ha
    have hext := extends_pushArg (x := { name, type := t, parent := f, index := none }) rfl rfl
      (he.1 (.func f) (.head _))
    exact hkeep rfl (builds_of_insts hext.onward (fun _ => hext.filed) rfl rfl fun _ => ⟨rfl, rfl⟩)
  | newBlock f name linked =>
    have hf : f.index < c.functions.size := he.1 (.func f) (.head _)
    cases linked with
    | false =>
      obtain ⟨rfl, x, hx⟩ := eq_ok_of_discard (x := newDetachedBlock f name) h
      cases hx
      exact hkeep rfl (builds_pushBlock hf name)
    | true =>
      obtain ⟨rfl, x, hx⟩ := eq_ok_of_discard (x := Build.newBlock f name) h
      obtain ⟨x, e, hnew, hx⟩ := bind_eq_ok_iff.mp hx
      cases hnew
      obtain ⟨_, e, hlink, hx⟩ := bind_eq_ok_iff.mp hx
      obtain ⟨hparent, hnew, rfl⟩ := appendBlock_eq_ok hlink
      cases hx
      refine hkeep rfl ((builds_pushBlock hf name).trans (builds_linkBlock ?_ hf hparent hnew))
      rw [pushBlock, Array.size_push]
      exact Nat.lt_succ_self _
  | appendBlock f block =>
    obtain ⟨rfl, hlink⟩ := ofBuild_eq_ok h
    obtain ⟨hparent, hnew, rfl⟩ := appendBlock_eq_ok hlink
    exact hkeep rfl (builds_linkBlock (he.1 (.block block) (.tail _ (.head _)))
      (he.1 (.func f) (.head _)) hparent hnew)
  | newGlobal m name t init =>
    obtain ⟨rfl, g, hg⟩ := eq_ok_of_discard h
    cases t with
    | none => cases hg
    | some t =>
      obtain ⟨-, e, hlearned, -, -, -, rfl⟩ := newGlobal_eq_ok hg
      refine hkeep rfl (hlearned.builds.trans ?_)
      obtain ⟨types, constants, rfl⟩ := hlearned.same
      exact builds_of_insts (onward_withGlobal _ m name t init)
        (fun hm h => h.withGlobal hm) rfl rfl fun _ => ⟨rfl, rfl⟩
  | constInt | constFloat | undef | null =>
    obtain ⟨rfl, k, hk⟩ := eq_ok_of_discard h
    exact hkeep rfl (hlearn hk)
  | insertAt block =>
    cases h
    refine ⟨(Learned.refl c).builds, fun x hx => he.1 (.block x) ?_⟩
    rw [show block = some x from hx]
    exact .head _
  | create i =>
    obtain ⟨j, hbuild, -⟩ := map_eq_ok_iff.mp h
    obtain ⟨hint, hemits⟩ := emits_create hbuild
    obtain ⟨hbuilds, hblock⟩ := builds_of_emits hl hb
      (fun v hv => he.1 v (List.mem_filterMap.mpr ⟨some v, hv, rfl⟩)) hemits
    exact hkeep hblock hbuilds
  | addIncoming i v block =>
    obtain ⟨rfl, hadd⟩ := ofBuild_eq_ok h
    cases v <;> cases block
    case some.some v dest =>
      obtain ⟨rfl, -, htype, -⟩ := addIncoming_eq_ok (f := default) hadd
      refine hkeep rfl (builds_addPair hl (he.1 _ (.head _)) (he.1 _ (.tail _ (.head _))) htype
        (he.1 _ (.tail _ (.tail _ (.head _)))) (fun h => h) fun f hx => ?_)
      exact .inl ((addIncoming_eq_ok hadd).2.2.2 _ rfl rfl rfl hx)
    all_goals
      obtain ⟨-, hadd⟩ := require_bind_eq_ok_iff.mp hadd
      cases hadd
  | addCase i k block =>
    obtain ⟨rfl, hadd⟩ := ofBuild_eq_ok h
    cases k <;> cases block
    case some.some k dest =>
      exact hkeep rfl (builds_addCase hl (he.1 _ (.head _)) (he.1 _ (.tail _ (.head _)))
        (he.1 _ (.tail _ (.tail _ (.head _)))) (fun h => h) hadd)
    all_goals
      obtain ⟨-, hadd⟩ := require_bind_eq_ok_iff.mp hadd
      cases hadd

/-- Whatever happens to an edit that makes something, programs only grow. -/
theorem builds_reached {e : Edit}
    (hb : ∀ block, s.builder.block = some block → block.index < s.context.blocks.size)
    (he : e.Applies s.context) (hmaking : e.isMaking = true) :
    Builds (e.Sited s.context) s.context (reached e.run s).context ∧
      ∀ block, (reached e.run s).builder.block = some block →
        block.index < (reached e.run s).context.blocks.size := by
  unfold reached
  cases hrun : e.run s with
  | ok _ t => exact builds_run hl hb he hmaking hrun
  | error _ t =>
    obtain ⟨hbuilds, hsame⟩ := builds_refused hrun
    exact ⟨hbuilds, fun block hblock => (hbuilds.onward.block (hb block (hsame ▸ hblock))).1⟩

end

end Edit

end Building

/-! ## What the verifier finds -/

def VerifyError.isMismatch : VerifyError → Bool
  | .violation v => v.cause.kind = .typeMismatch
  | .malformed => false

/-- The check does not stop for types. -/
abbrev Verify.Spares {α : Type} (x : Verify α) : Prop :=
  Verify.Stops x fun e => e.isMismatch = false

namespace Verify

variable {α β : Type} {x : Verify α} {P : VerifyError → Prop}

theorem Stops.required {condition : Bool} {v : Violation} {f : Unit → Verify β}
    (hv : condition = false → P (.violation v)) (hf : condition = true → Stops (f ()) P) :
    Stops (require condition v >>= f) P := by
  cases condition with
  | true => exact hf rfl
  | false => exact (stops_require hv).bind fun h => by cases h

theorem Stops.spares (h : Stops x VerifyError.IsForm) : Spares x := by
  intro ts e ts' he
  obtain ⟨v, rfl, hform⟩ := h ts e ts' he
  exact decide_eq_false (ViolationCause.isForm_spec hform).1

theorem isMismatch_of_structural {v : Violation} (h : v.cause.kind = .structural) :
    (VerifyError.violation v).isMismatch = false := by
  rw [VerifyError.isMismatch, h]
  rfl

theorem spares_structural {condition : Bool} {v : Violation} (h : v.cause.kind = .structural) :
    Spares (require condition v) := stops_require fun _ => isMismatch_of_structural h

end Verify

namespace Site

open Verify

variable {s : Site} {i : InstId}

theorem spares_operands (vs : List (Option Value)) :
    Spares (s.operands i vs) := by
  induction vs with
  | nil => exact stops_pure ()
  | cons v rest ih =>
    refine Stops.seq ?_ fun _ => ih
    refine (spares_structural rfl).seq fun _ => ?_
    dsimp only
    split
    · exact (spares_structural rfl).seq fun _ => spares_structural rfl
    all_goals first | exact spares_structural rfl | exact stops_pure ()

end Site

namespace Context.Made

open Verify

variable {c : Context} {f : FuncId}

theorem spares_instructions (h : c.Made) {a : FlowAnalysis} {b : BlockId}
    (hf : (c.block b).parent = f) {phis : Bool}
    {position : Nat} {l : List InstId} (hl : ∀ i ∈ l, ¬c.Loose (c.inst i)) :
    Spares (instructions ⟨c, f, a, b⟩ phis position l) := by
  induction l generalizing phis position with
  | nil => exact stops_pure ()
  | cons i rest ih =>
    refine Stops.required (fun _ => isMismatch_of_structural rfl) fun hparent => ?_
    have hfits := ((h.inst (of_decide_eq_true hparent)).2.2.resolve_right (hl i (.head _))) a b
    rw [hf] at hfits
    refine (spares_structural rfl).seq fun _ => (spares_structural rfl).seq fun _ => ?_
    refine Stops.seq ?_ fun _ => ih fun j hj => hl j (.tail _ hj)
    refine (Site.spares_operands _).seq fun _ => ?_
    dsimp only
    refine Stops.ite (Stops.seq ?_ fun _ => (Site.stops_operation hfits).spares)
      (Site.stops_operation hfits).spares
    exact Stops.ite (Site.stops_definitions position _).spares (stops_pure ())

theorem spares_arguments {declaration : Bool} {n : Nat} {args : List ArgId} {params : List Ty}
    (hargs : ∀ a ∈ args, Build.isSized (c.arg a).type = true)
    (hparams : args.map (fun a => (c.arg a).type) = params.map some) :
    Spares (arguments c f declaration n args params) := by
  induction args generalizing n params with
  | nil => exact stops_pure ()
  | cons a rest ih =>
    cases params with
    | nil => cases hparams
    | cons t params =>
      obtain ⟨ht, hrest⟩ := List.cons.inj hparams
      have hrest := ih (n := n + 1) (fun b hb => hargs b (.tail _ hb)) hrest
      refine (spares_structural rfl).seq fun _ => ?_
      refine Stops.seq (.passed (hargs a (.head _))) fun _ => ?_
      refine Stops.seq (.passed (decide_eq_true ht)) fun _ => ?_
      exact Stops.ite ((spares_structural rfl).seq fun _ => hrest)
        ((spares_structural rfl).seq fun _ => hrest)

theorem spares_function (h : c.Made)
    (hloose : ∀ b ∈ (c.func f).blocks, ∀ i ∈ (c.block b).insts, ¬c.Loose (c.inst i)) :
    Spares (function c f) := by
  unfold function
  cases hsig : (c.func f).signature with simp only [hsig]
  | none =>
    intro ts e ts' he
    cases he
    exact isMismatch_of_structural rfl
  | some sig =>
    refine (spares_structural rfl).seq fun _ => (spares_structural rfl).seq fun _ => ?_
    refine (spares_arguments (fun a ha => (h.arg ⟨ha⟩).2) (h.func hsig)).seq fun _ => ?_
    refine Stops.ite (stops_pure ()) ?_
    split
    · intro ts e ts' he
      cases he
      rfl
    · intro ts e ts' he
      cases he
      exact isMismatch_of_structural rfl
    · refine stops_blocks fun b hb => ?_
      refine Stops.required (fun _ => isMismatch_of_structural rfl) fun hhere => ?_
      rw [Bool.and_eq_true, decide_eq_true_eq] at hhere
      refine (spares_structural rfl).seq fun _ => (spares_structural rfl).seq fun _ => ?_
      have hfree : ∀ i ∈ (c.block b).insts.toList, ¬c.Loose (c.inst i) :=
        fun i hi => hloose b ⟨hb⟩ i ⟨hi⟩
      exact Stops.ite ((spares_structural rfl).seq fun _ => h.spares_instructions hhere.1 hfree)
        (h.spares_instructions hhere.1 hfree)

end Context.Made

namespace Workshop

theorem made_serve {s : Workshop} {e : Edit} (he : e.isMaking = true)
    (hm : s.threads.Mirrors s.context)
    (h : s.context.Made ∧ ∀ b, s.builder.block = some b → b.index < s.context.blocks.size) :
    (s.serve e).context.Made ∧ ∀ b, (s.serve e).builder.block = some b →
    b.index < (s.serve e).context.blocks.size := by
  unfold serve
  split
  · next happlies =>
      obtain ⟨hbuilds, hblock⟩ := Edit.builds_reached hm.linked h.2 happlies he
      exact ⟨hbuilds.made h.1, hblock⟩
  · exact h

theorem made_run {es : List Edit} (hes : ∀ e ∈ es, e.isMaking = true) :
    (run es).context.Made ∧ ∀ b, (run es).builder.block = some b →
    b.index < (run es).context.blocks.size := by
  induction es using List.reverseRecOn with
  | nil =>
    refine ⟨⟨fun hb => absurd hb (Nat.not_lt_zero _), fun hi => ?_, fun ha => ?_, fun hsig => ?_⟩,
      fun b hb => ?_⟩
    · cases hi
    · exact absurd ha (Array.not_mem_empty _)
    · cases hsig
    · cases hb
  | append_singleton es e ih =>
    rw [run, List.foldl_append]
    refine made_serve (hes e (by simp)) (mirrors_run es) (ih fun x hx => hes x (by simp [hx]))

/-- In a program that was put together by builders, the verifier finds a violation of types only in
a function that returns something of type void or has a switch with a case that is no integer. -/
theorem mismatch_only_of_loose {es : List Edit} (hes : ∀ e ∈ es, e.isMaking = true) {f : FuncId}
    {e : VerifyError}
    (h : (verifyFunction (run es).context f).1 = .error e) (he : e.isMismatch = true) :
    ∃ b ∈ ((run es).context.func f).blocks, ∃ i ∈ ((run es).context.block b).insts,
      (run es).context.Loose ((run es).context.inst i) := by
  by_contra hnone
  have hspares := (made_run hes).1.spares_function (f := f) fun b hb i hi hloose =>
    hnone ⟨b, hb, i, hi, hloose⟩
  unfold verifyFunction Verify.outcome at h
  cases hrun : Verify.function (run es).context f [] with rw [hrun] at h
  | ok a ts => cases h
  | error e' ts =>
    cases h
    cases he.symm.trans (hspares [] _ ts hrun)

/-- A function that calls itself and returns the result, of type void. -/
def returning : List Edit :=
  [.newModule "m", .newFunction ⟨0⟩ "f" (some .void) true, .finalizeSignature ⟨0⟩ false,
    .newBlock ⟨0⟩ "a" true,
    .insertAt (some ⟨0⟩), .create (.call (some (.func ⟨0⟩)) [] ""),
      .create (.ret (some (.inst ⟨0⟩)))]

theorem mismatch_only_of_loose_returning : ∃ e,
    (verifyFunction (run returning).context ⟨0⟩).1 = .error e ∧ e.isMismatch = true ∧
      ∃ b ∈ ((run returning).context.func ⟨0⟩).blocks,
      ∃ i ∈ ((run returning).context.block b).insts,
        (run returning).context.Loose ((run returning).context.inst i) := by
  have hrefused : (match (verifyFunction (run returning).context ⟨0⟩).1 with
      | .error e => e.isMismatch
      | .ok () => false) = true := by
    decide +kernel
  split at hrefused
  · next e he => exact ⟨e, he, hrefused, mismatch_only_of_loose (by decide) he hrefused⟩
  · cases hrefused

end Workshop

end SsaIr
