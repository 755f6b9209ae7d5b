import SsaIr.Proofs.Parse.Constructors
import SsaIr.Proofs.Verify.Replacing

/-!
# What holds while a program is read

While a source is read its program is in order and well typed, whatever its instructions refer to
has its place or is known to wait for it, and names of the function that is read tell its values and
blocks apart. Read `ParseState.Coherent` first; `ParseState.Grows` is what reading operands does.
-/

namespace SsaIr

variable {x y : Instruction}

namespace Context

/-! ## Types of the parts of a module -/

/-- The operands and the result of an instruction have the types that its operation asks for in a
function. -/
def Fits (c : Context) (f : FuncId) (x : Instruction) : Prop :=
  ∀ a b, Site.OperationTyped ⟨c, f, a, b⟩ x

/-- The instruction uses something of type void. Only a stand-in can be such, and no definition ever
retires it. -/
def Awaits (c : Context) (x : Instruction) : Prop :=
  ∃ v, some v ∈ x.operands ∧ c.typeOf v = some .void

/-- The instruction is well typed, or will be refused for a value that cannot be defined. -/
def Typed (c : Context) (f : FuncId) (x : Instruction) : Prop := c.Fits f x ∨ c.Awaits x

/-- Labels are distinct, and so are the names of the arguments and results of a function with a
body. -/
def NamesApart (c : Context) (f : FuncId) : Prop :=
  ((c.func f).blocks.toList.map fun b => (c.block b).name).Nodup ∧
    ((c.func f).blocks.isEmpty = false → (c.resultNames f).Nodup)

/-- The instructions, functions and globals of a module have the types that they should. -/
structure WellTyped (c : Context) (m : ModuleId) : Prop where
  inst : ∀ {i b}, (c.inst i).parent = some b → (c.func (c.block b).parent).parent = m →
    c.Typed (c.block b).parent (c.inst i)
  func : ∀ {f}, f.index < c.functions.size → (c.func f).parent = m → c.Signed f
  global : ∀ {g}, g.index < c.globals.size → (c.global g).parent = m →
    (c.global g).allocated.isSized = true ∧
      ∀ v, (c.global g).init = some v → c.typeOf v = some (c.global g).allocated

section Typing

variable {c d : Context} {f : FuncId}

theorem Fits.congr (h : c.Fits f x) (hret : (d.func f).ret = (c.func f).ret)
    (htypes : ∀ v, some v ∈ x.operands → d.typeOf v = c.typeOf v) (hop : y.op = x.op)
    (htype : y.type = x.type) (hparent : y.parent = x.parent) (hops : y.operands = x.operands) :
    d.Fits f y := by
  intro a b
  have hreplaces : Site.Replaces ⟨c, f, a, b⟩ ⟨d, f, a, b⟩ id x y :=
    { ret := hret
      op := hop
      type := htype
      parent := hparent
      operands := hops.trans (Array.map_id x.operands).symm
      none := rfl
      const := fun _ => rfl
      block := fun _ => rfl
      types := fun v hv => by
        cases v with
        | none => rfl
        | some v => exact htypes v hv }
  exact hreplaces.operationTyped (h a b)

theorem Typed.onward (h : c.Typed f x) (hon : c.Onward d)
    (hf : f.index < c.functions.size) (howns : ∀ v, some v ∈ x.operands → c.Owns f v)
    (hop : y.op = x.op) (htype : y.type = x.type) (hparent : y.parent = x.parent)
    (hops : y.operands = x.operands) : d.Typed f y := by
  rcases h with h | ⟨v, hv, hvoid⟩
  · exact .inl
      (h.congr (hon.func hf).2.2.2.1 (fun v hv => hon.typeOf (howns v hv)) hop htype hparent hops)
  · exact .inr ⟨v, hops ▸ hv, (hon.typeOf (howns v hv)).trans hvoid⟩

theorem Typed.subst (h : c.Typed f x) {a : ArgId} {new : Value}
    (htype : c.typeOf (.arg a) = c.typeOf new) (hvoid : c.typeOf new ≠ some .void)
    (hop : y.op = x.op) (hty : y.type = x.type) (hparent : y.parent = x.parent)
    (hops : y.operands = x.operands.map (substOperand (.arg a) new)) : c.Typed f y := by
  rcases h with h | ⟨v, hv, hv'⟩
  · refine .inl fun a' b => ?_
    have hreplaces : Site.Replaces ⟨c, f, a', b⟩ ⟨c, f, a', b⟩ (substOperand (.arg a) new) x y :=
      { ret := rfl
        op := hop
        type := hty
        parent := hparent
        operands := hops
        none := rfl
        const := fun k => by simp [substOperand]
        block := fun b => by simp [substOperand]
        types := fun v _ => by
          unfold substOperand
          split
          · next hv =>
              rw [hv]
              exact htype.symm
          · rfl }
    exact hreplaces.operationTyped (h a' b)
  · refine .inr ⟨v, ?_, hv'⟩
    have hne : some v ≠ some (.arg a) := by
      rintro ⟨⟩
      exact hvoid (htype.symm.trans hv')
    rw [hops]
    exact Array.mem_map.mpr ⟨some v, hv, if_neg hne⟩

theorem WellTyped.onward {m : ModuleId} (h : c.WellTyped m) (hc : c.Orderly) (hon : c.Onward d)
    (hinst : ∀ {i b}, (d.inst i).parent = some b → (d.func (d.block b).parent).parent = m →
      (c.inst i).parent = some b ∧ (d.inst i).operands = (c.inst i).operands ∨
        d.Typed (d.block b).parent (d.inst i))
    (hfunc : ∀ {f}, f.index < d.functions.size → (d.func f).parent = m →
      f.index < c.functions.size ∨ d.Signed f)
    (hglobal : ∀ {g}, g.index < d.globals.size → (d.global g).parent = m →
      g.index < c.globals.size ∨ (d.global g).allocated.isSized = true ∧
        ∀ v, (d.global g).init = some v → d.typeOf v = some (d.global g).allocated) :
    d.WellTyped m where
  inst {i b} hi hm := by
    rcases hinst hi hm with ⟨hold, hops⟩ | hnew
    · have hb := block_lt_of_linked (hc.inst_linked hold)
      have hf := hc.block_parent hb
      rw [(hon.block hb).2.2] at hm ⊢
      rw [(hon.func hf).2.2.1] at hm
      obtain ⟨-, hop, -, htype, hparent⟩ := hon.inst (inst_lt_of_parent hold)
      exact (h.inst hold hm).onward hon hf (fun v hv => hc.owned hold hv) hop htype hparent hops
    · exact hnew
  func {f} hf hm := by
    rcases hfunc hf hm with hf' | hsigned
    · rw [(hon.func hf').2.2.1] at hm
      exact (h.func hf' hm).onward hc hon hf'
    · exact hsigned
  global {g} hg hm := by
    rcases hglobal hg hm with hg' | hnew
    · obtain ⟨-, -, hparent, halloc, hinit⟩ := hon.global hg'
      rw [hparent] at hm
      obtain ⟨hsized, htype⟩ := h.global hg' hm
      refine ⟨halloc ▸ hsized, fun v hv => ?_⟩
      rw [hinit] at hv
      rw [hon.typeOf_shared (hc.initial hv), halloc]
      exact htype v hv
    · exact hnew

theorem NamesApart.onward (h : c.NamesApart f) (hc : c.Orderly) (hon : c.Onward d)
    (hargs : (d.func f).args = (c.func f).args) (hblocks : (d.func f).blocks = (c.func f).blocks)
    (hnames : ∀ a ∈ (c.func f).args, (d.arg a).name = (c.arg a).name)
    (hinsts : ∀ b ∈ (c.func f).blocks, (d.block b).insts = (c.block b).insts) : d.NamesApart f := by
  have hlabels : (d.func f).blocks.toList.map (fun b => (d.block b).name) =
      (c.func f).blocks.toList.map fun b => (c.block b).name := by
    rw [hblocks]
    exact List.map_congr_left fun b hb =>
      (hon.block (hc.toPlaced.block_lt ⟨hb⟩)).2.1
  have hbodies : ((d.func f).blocks.toList.flatMap fun b => (d.block b).insts.toList) =
      (c.func f).blocks.toList.flatMap fun b => (c.block b).insts.toList := by
    rw [hblocks]
    exact List.flatMap_congr fun b hb => by rw [hinsts b ⟨hb⟩]
  have hinst : ∀ i ∈ ((c.func f).blocks.toList.flatMap fun b => (c.block b).insts.toList),
      (d.inst i).name = (c.inst i).name ∧ (d.inst i).type = (c.inst i).type := by
    intro i hi
    obtain ⟨b, -, hi⟩ := List.mem_flatMap.mp hi
    obtain ⟨-, -, hname, htype, -⟩ := hon.inst (hc.toPlaced.inst_lt ⟨hi⟩)
    exact ⟨hname, htype⟩
  have hresults : d.resultNames f = c.resultNames f := by
    unfold resultNames
    rw [hargs, hbodies]
    congr 1
    · exact List.map_congr_left fun a ha => hnames a ⟨ha⟩
    · rw [List.filter_congr fun i hi => by rw [(hinst i hi).2]]
      exact List.map_congr_left fun i hi => (hinst i (List.mem_of_mem_filter hi)).1
  rwa [NamesApart, hlabels, hresults, hblocks]

theorem namesApart_of_empty (h : (c.func f).blocks = #[]) : c.NamesApart f := by
  rw [NamesApart, h]
  exact ⟨List.nodup_nil, fun hne => by cases hne⟩

end Typing

end Context

theorem getElem?_insert_name {α : Type} (table : Std.TreeMap String α) (name n : String) (x : α) :
    (table.insert name x)[n]? = if name = n then some x else table[n]? := by
  rw [Std.TreeMap.getElem?_insert]
  simp only [Std.LawfulEqOrd.compare_eq_iff_eq]

/-- What a table holds once a name that it did not have is put into it. -/
theorem getElem?_insert_fresh {α : Type} {table : Std.TreeMap String α} {name : String}
    (hnone : table[name]? = none) (x : α) : (table.insert name x)[name]? = some x ∧
      (∀ {n : String} {y}, table[n]? = some y → (table.insert name x)[n]? = some y) ∧
        ∀ {n : String} {y}, (table.insert name x)[n]? = some y → table[n]? = some y ∨ name = n ∧
        x = y := by
  refine ⟨by rw [getElem?_insert_name, if_pos rfl], fun {n y} hn => ?_, fun {n y} hn => ?_⟩
  · rw [getElem?_insert_name, if_neg]
    · exact hn
    · rintro rfl
      cases hnone.symm.trans hn
  · rw [getElem?_insert_name] at hn
    split at hn
    · next hnn => exact .inr ⟨hnn, Option.some.inj hn⟩
    · exact .inl hn

open Context

namespace ParseState

/-! ## The state while reading -/

/-- A value that an operand refers to has its place, or its name is known to wait for it. -/
def Resolves (s : ParseState) : Value → Prop
  | .const k => k.type.isSized = true
  | .arg a => (s.context.arg a).index.isSome = true ∨ ∃ n : String, s.locals[n]? = some (.arg a)
  | .block b => (s.context.block b).linked = true ∨ ∃ n : String, s.labels[n]? = some b
  | .func f => (s.context.func f).linked = true ∨ ∃ n : String, s.forward[n]? = some f
  | _ => True

/-- The function was used before its declaration, under its name. It has no body before it is
linked. -/
structure Forwards (s : ParseState) (n : String) (f : FuncId) : Prop where
  lt : f.index < s.context.functions.size
  parent : (s.context.func f).parent = s.module
  name : (s.context.func f).name = n
  blocks : (s.context.func f).linked = false → (s.context.func f).blocks = #[]

/-- What is known of the function that is read: names and labels denote what stands in it. Values
that are still to be bound to their names are left out. -/
structure Current (s : ParseState) (pending : Value → Prop) (f : FuncId) : Prop where
  linked : (s.context.func f).linked = true
  parent : (s.context.func f).parent = s.module
  blocks : ∀ {b}, b ∈ (s.context.func f).blocks → s.labels[(s.context.block b).name]? = some b
  args : ∀ {a}, a ∈ (s.context.func f).args → ¬ pending (.arg a) →
    s.locals[(s.context.arg a).name]? = some (.arg a)
  insts : ∀ {i b}, (s.context.inst i).parent = some b → (s.context.block b).parent = f →
    (s.context.inst i).type ≠ .void → ¬ pending (.inst i) →
      s.locals[(s.context.inst i).name]? = some (.inst i)

theorem Current.lt {s : ParseState} {pending : Value → Prop} {f : FuncId}
    (h : s.Current pending f) :
    f.index < s.context.functions.size :=
  Context.func_lt_of_linked h.linked

/-- What holds while a source is read: the program is in order and well typed, what it refers to is
there or waits, and names tell values apart. -/
structure Coherent (s : ParseState) (pending : Value → Prop) : Prop where
  orderly : s.context.Orderly
  scanned : ∀ w ∈ s.ahead, w.Scanned
  module_lt : s.module.index < s.context.modules.size
  typed : s.context.WellTyped s.module
  resolved : ∀ {i b v}, (s.context.inst i).parent = some b →
    (s.context.func (s.context.block b).parent).parent = s.module →
      v ∈ (s.context.inst i).operands →
      ∃ w, v = some w ∧ s.Resolves w
  initial : ∀ {g v}, (s.context.global g).init = some v → (s.context.global g).parent = s.module →
    s.Resolves v
  forward : ∀ {n : String} {f}, s.forward[n]? = some f → s.Forwards n f
  apart : ∀ {f}, f.index < s.context.functions.size → (s.context.func f).parent = s.module →
    s.function ≠ some f → s.context.NamesApart f
  locals : ∀ {n : String} {v}, s.locals[n]? = some v → v.IsLocal ∧ s.context.nameOf v = n ∧
    ∃ f, s.function = some f ∧ s.context.Owns f v
  labels : ∀ {n : String} {b}, s.labels[n]? = some b → (s.context.block b).name = n ∧
    ∃ f, s.function = some f ∧ s.context.Owns f (.block b)
  current : ∀ {f}, s.function = some f → s.Current pending f

/-- An operand may refer to the value: in the function that is read, or in the module outside of
functions. -/
structure Usable (s : ParseState) (v : Value) : Prop where
  resolves : s.Resolves v
  owns : ∀ {f}, s.function = some f → s.context.Owns f v
  shared : s.function = none → s.context.Shared s.module v

/-- What reading an operand does: words are taken, and the program and what is known of names
grow. -/
structure Grows (s s' : ParseState) : Prop where
  context : s.context.Extends s'.context
  module : s'.module = s.module
  function : s'.function = s.function
  builder : s'.builder = s.builder
  suffix : s'.ahead <:+ s.ahead
  locals : ∀ {n : String} {v}, s.locals[n]? = some v → s'.locals[n]? = some v
  labels : ∀ {n : String} {b}, s.labels[n]? = some b → s'.labels[n]? = some b
  forward : ∀ {n : String} {f}, s.forward[n]? = some f → s'.forward[n]? = some f

variable {s s' s'' : ParseState} {pending : Value → Prop} {v : Value}

theorem Coherent.tracks_operand (h : s.Coherent pending) {i : InstId}
    (hv : some v ∈ (s.context.inst i).operands) : s.context.Tracks v := by
  obtain ⟨b, -, -, -, howns⟩ := h.orderly.exists_owns hv
  exact howns.tracks

theorem Resolves.mono (h : s.Resolves v) (hon : s.context.Onward s'.context)
    (hv : s.context.Tracks v)
    (hlocals : ∀ {n : String} {w}, s.locals[n]? = some w → s'.locals[n]? = some w)
    (hlabels : ∀ {n : String} {b}, s.labels[n]? = some b → s'.labels[n]? = some b)
    (hforward : ∀ {n : String} {f}, s.forward[n]? = some f → s'.forward[n]? = some f) :
    s'.Resolves v := by
  cases v with
  | const k => exact h
  | arg a =>
    rcases h with hindex | ⟨n, hn⟩
    · exact .inl ((hon.arg hv).2.2.2 ▸ hindex)
    · exact .inr ⟨n, hlocals hn⟩
  | inst i => trivial
  | block b =>
    rcases h with hlinked | ⟨n, hn⟩
    · exact .inl (hon.block_linked hlinked)
    · exact .inr ⟨n, hlabels hn⟩
  | func f =>
    rcases h with hlinked | ⟨n, hn⟩
    · exact .inl (hon.func_linked hlinked)
    · exact .inr ⟨n, hforward hn⟩
  | global g => trivial

namespace Grows

theorem refl (s : ParseState) : s.Grows s := ⟨.refl _, rfl, rfl, rfl, List.suffix_rfl, id, id, id⟩

theorem trans (h : s.Grows s') (h' : s'.Grows s'') : s.Grows s'' where
  context := h.context.trans h'.context
  module := h'.module.trans h.module
  function := h'.function.trans h.function
  builder := h'.builder.trans h.builder
  suffix := h'.suffix.trans h.suffix
  locals hn := h'.locals (h.locals hn)
  labels hn := h'.labels (h.labels hn)
  forward hn := h'.forward (h.forward hn)

theorem resolves (h : s.Grows s') (hv : s.context.Tracks v) (hr : s.Resolves v) : s'.Resolves v :=
  hr.mono h.context.onward hv h.locals h.labels h.forward

theorem nameOf (h : s.Grows s') (hv : s.context.Tracks v) :
    s'.context.nameOf v = s.context.nameOf v := by
  cases v with
  | const k => rfl
  | arg a => exact congrArg Argument.name (h.context.arg hv)
  | inst i => exact congrArg Instruction.name (h.context.inst i)
  | block b => exact congrArg Block.name (h.context.block hv)
  | func f => exact congrArg Function.name (h.context.func hv)
  | global g => exact congrArg Global.name (h.context.global g)

end Grows

theorem Usable.grows (h : s.Usable v) (hs : s.Coherent pending) (hg : s.Grows s') :
    s'.Usable v where
  resolves := by
    cases hf : s.function with
    | some f => exact hg.resolves (h.owns hf).tracks h.resolves
    | none => exact hg.resolves (h.shared hf).tracks h.resolves
  owns {f} hf := by
    rw [hg.function] at hf
    exact hg.context.onward.owns (hs.current hf).lt (h.owns hf)
  shared hf := by
    rw [hg.function] at hf
    rw [hg.module]
    exact hg.context.onward.shared (h.shared hf)

theorem usable_of_shared (hs : s.Coherent pending) (hr : s.Resolves v)
    (hv : s.context.Shared s.module v) : s.Usable v where
  resolves := hr
  owns {f} hf := by
    rw [← (hs.current hf).parent] at hv
    exact hv.owns
  shared _ := hv

theorem usable_of_owns {f : FuncId} (hf : s.function = some f) (hr : s.Resolves v)
    (hv : s.context.Owns f v) : s.Usable v where
  resolves := hr
  owns hf' := by
    cases hf.symm.trans hf'
    exact hv
  shared hnone := by cases hf.symm.trans hnone

theorem Current.onward {pending' : Value → Prop} {f : FuncId} (h : s.Current pending f)
    (hc : s.context.Orderly) (hon : s.context.Onward s'.context) (hmodule : s'.module = s.module)
    (hargs : (s'.context.func f).args = (s.context.func f).args)
    (hblocks : (s'.context.func f).blocks = (s.context.func f).blocks)
    (hnames : ∀ a ∈ (s.context.func f).args, (s'.context.arg a).name = (s.context.arg a).name)
    (hinst : ∀ {i b}, (s'.context.inst i).parent = some b →
      (s.context.inst i).parent = some b ∨ pending' (.inst i)) (hmono : ∀ v, pending v → pending' v)
    (hlocals : ∀ {n : String} {v}, s.locals[n]? = some v → s'.locals[n]? = some v)
    (hlabels : ∀ {n : String} {b}, s.labels[n]? = some b → s'.labels[n]? = some b) :
    s'.Current pending' f where
  linked := hon.func_linked h.linked
  parent := ((hon.func h.lt).2.2.1.trans h.parent).trans hmodule.symm
  blocks hb := by
    rw [hblocks] at hb
    rw [(hon.block (hc.toPlaced.block_lt hb)).2.1]
    exact hlabels (h.blocks hb)
  args ha hp := by
    rw [hargs] at ha
    rw [hnames _ ha]
    exact hlocals (h.args ha fun hp' => hp (hmono _ hp'))
  insts hi hb hne hp := by
    rcases hinst hi with hi' | hpend
    · obtain ⟨-, -, hname, htype, -⟩ := hon.inst (inst_lt_of_parent hi')
      rw [(hon.block (block_lt_of_linked (hc.inst_linked hi'))).2.2] at hb
      rw [hname]
      exact hlocals (h.insts hi' hb (htype ▸ hne) fun hp' => hp (hmono _ hp'))
    · exact absurd hpend hp

theorem Coherent.grow (h : s.Coherent pending) (hg : s.Grows s')
    (hlocals : ∀ {n : String} {v}, s'.locals[n]? = some v → s.locals[n]? = some v ∨ v.IsLocal ∧
      s'.context.nameOf v = n ∧ ∃ f, s.function = some f ∧ s'.context.Owns f v)
    (hlabels : ∀ {n : String} {b}, s'.labels[n]? = some b → s.labels[n]? = some b ∨
      (s'.context.block b).name = n ∧ ∃ f, s.function = some f ∧ s'.context.Owns f (.block b))
    (hforward : ∀ {n : String} {f}, s'.forward[n]? = some f → s.forward[n]? = some f ∨
      s'.Forwards n f)
    (hfunc : ∀ {f}, s.context.functions.size ≤ f.index → f.index < s'.context.functions.size →
      s'.context.Signed f) : s'.Coherent pending := by
  have hon := hg.context.onward
  have hc := h.orderly
  have hold : ∀ {f}, s.function = some f → f.index < s.context.functions.size :=
    fun hf => (h.current hf).lt
  refine ⟨hg.context.orderly hc, fun w hw => h.scanned w (hg.suffix.subset hw), ?_, ?_,
    fun {i b v} hi hm hv => ?_, fun {g v} hv hm => ?_, fun {n f} hn => ?_, fun {f} hf hm hne => ?_,
    fun {n v} hn => ?_, fun {n b} hn => ?_, fun {f} hf => ?_⟩
  · rw [hg.module, hg.context.modules]
    exact h.module_lt
  · rw [hg.module]
    refine h.typed.onward hc hon (fun {i b} hi hm => .inl ?_) (fun {f} hf hm => ?_)
      fun {g} hlt hm => .inl ?_
    · rw [hg.context.inst] at hi ⊢
      exact ⟨hi, rfl⟩
    · by_cases hlt : f.index < s.context.functions.size
      · exact .inl hlt
      · exact .inr (hfunc (not_lt.mp hlt) hf)
    · rwa [hg.context.globals] at hlt
  · rw [hg.context.inst] at hi hv
    have hb := Context.block_lt_of_linked (hc.inst_linked hi)
    rw [hg.context.block hb, hg.context.func (hc.block_parent hb), hg.module] at hm
    obtain ⟨w, rfl, hw⟩ := h.resolved hi hm hv
    exact ⟨w, rfl, hg.resolves (h.tracks_operand hv) hw⟩
  · rw [hg.context.global] at hv hm
    rw [hg.module] at hm
    exact hg.resolves (hc.initial hv).tracks (h.initial hv hm)
  · rcases hforward hn with hn | hnew
    · obtain ⟨hlt, hparent, hname, hblocks⟩ := h.forward hn
      have hfunc := hg.context.func hlt
      exact ⟨hlt.trans_le hg.context.functions, by rw [hfunc, hg.module]; exact hparent,
        hfunc ▸ hname, hfunc ▸ hblocks⟩
    · exact hnew
  · rw [hg.function] at hne
    rw [hg.module] at hm
    by_cases hlt : f.index < s.context.functions.size
    · rw [hg.context.func hlt] at hm
      refine (h.apart hlt hm hne).onward hc hon (by rw [hg.context.func hlt])
        (by rw [hg.context.func hlt]) (fun a ha => ?_) fun b _ => (hg.context.block_insts b).1
      obtain ⟨n, hn⟩ := Array.mem_iff_getElem?.mp ha
      rw [hg.context.arg (hc.mem_arg hn).1]
    · exact Context.namesApart_of_empty (hg.context.new_func (not_lt.mp hlt) hf).1
  · rw [hg.function]
    rcases hlocals hn with hn | hnew
    · obtain ⟨hlocal, hname, f, hf, howns⟩ := h.locals hn
      exact ⟨hlocal, (hg.nameOf howns.tracks).trans hname, f, hf, hon.owns (hold hf) howns⟩
    · exact hnew
  · rw [hg.function]
    rcases hlabels hn with hn | hnew
    · obtain ⟨hname, f, hf, howns⟩ := h.labels hn
      exact ⟨(hg.nameOf (v := .block b) howns.tracks).trans hname, f, hf, hon.owns (hold hf) howns⟩
    · exact hnew
  · rw [hg.function] at hf
    have hsame := hg.context.func (h.current hf).lt
    refine (h.current hf).onward hc hon hg.module (by rw [hsame]) (by rw [hsame]) (fun a ha => ?_)
      (fun {i b} hi => .inl ?_) (fun _ => id) hg.locals hg.labels
    · obtain ⟨n, hn⟩ := Array.mem_iff_getElem?.mp ha
      rw [hg.context.arg (hc.mem_arg hn).1]
    · rwa [hg.context.inst] at hi

theorem Coherent.settle {pending' : Value → Prop} (h : s.Coherent pending)
    (hargs : ∀ {f a}, s.function = some f → a ∈ (s.context.func f).args → pending (.arg a) →
      pending' (.arg a))
    (hinsts : ∀ {i}, (s.context.inst i).type ≠ .void → pending (.inst i) → pending' (.inst i)) :
    s.Coherent pending' :=
  { h with
    current := fun hf =>
      { h.current hf with
        args := fun ha hp => (h.current hf).args ha fun hp' => hp (hargs hf ha hp')
        insts := fun hi hb hne hp =>
          (h.current hf).insts hi hb hne fun hp' => hp (hinsts hne hp') } }

theorem Coherent.congr (h : s.Coherent pending) {builder : Builder} {headerSeen : Bool}
    {instPos : Position} :
    ({ s with builder, headerSeen, instPos } : ParseState).Coherent pending :=
  { h with
    forward := fun hn => { h.forward hn with }
    current := fun hf => { h.current hf with } }

theorem Moved.grows (h : s.Moved s') : s.Grows s' := by
  have hsame := h.same
  refine ⟨h.learned.toExtends, ?_, ?_, ?_, h.suffix, fun hn => ?_, fun hn => ?_, fun hn => ?_⟩
  all_goals rw [hsame]
  all_goals exact hn

theorem Coherent.moved (h : s.Coherent pending) (hm : s.Moved s') : s'.Coherent pending := by
  have hsame := hm.same
  refine h.grow hm.grows (fun {n v} hn => .inl ?_) (fun {n b} hn => .inl ?_)
    (fun {n f} hn => .inl ?_) fun {f} hle hlt => ?_
  · rwa [hsame] at hn
  · rwa [hsame] at hn
  · rwa [hsame] at hn
  · obtain ⟨_, _, hd⟩ := hm.learned.same
    rw [hd] at hlt
    exact absurd hlt (Nat.not_lt.mpr hle)

/-- Instructions of a changed program have the operands that they had, or are typed and read what
resolves. -/
structure Amends (s : ParseState) (d : Context) : Prop where
  typed : ∀ {i b}, (d.inst i).parent = some b → (d.func (d.block b).parent).parent = s.module →
    (s.context.inst i).parent = some b ∧ (d.inst i).operands = (s.context.inst i).operands ∨
      d.Typed (d.block b).parent (d.inst i)
  resolved : ∀ {i b v}, (d.inst i).parent = some b → v ∈ (d.inst i).operands →
    (s.context.inst i).parent = some b ∧ v ∈ (s.context.inst i).operands ∨
      ∃ w, v = some w ∧ s.Resolves w ∧ s.context.Tracks w

/-- Every change of the program alone is coherent that gives new and changed instructions operands
that resolve, and new functions no body. -/
theorem Coherent.alter {pending' : Value → Prop} (h : s.Coherent pending) {d : Context}
    (horderly : d.Orderly) (hon : s.context.Onward d) (ha : s.Amends d)
    (hfunc : ∀ {f}, f.index < d.functions.size → (d.func f).parent = s.module →
      s.function ≠ some f →
      f.index < s.context.functions.size ∧ (d.func f).args = (s.context.func f).args ∧
          (d.func f).blocks = (s.context.func f).blocks ∧
            (∀ a ∈ (s.context.func f).args, (d.arg a).name = (s.context.arg a).name) ∧
              (∀ b ∈ (s.context.func f).blocks, (d.block b).insts = (s.context.block b).insts) ∨
        d.Signed f ∧ (d.func f).blocks = #[])
    (hglobal : ∀ {g}, g.index < d.globals.size → (d.global g).parent = s.module →
      g.index < s.context.globals.size ∨ (d.global g).allocated.isSized = true ∧
        ∀ v, (d.global g).init = some v → d.typeOf v = some (d.global g).allocated ∧
          s.Resolves v ∧ s.context.Tracks v)
    (hforward : ∀ {n : String} {f}, s.forward[n]? = some f → (d.func f).linked = false →
      (d.func f).blocks = #[])
    (hcurrent : ∀ {f}, s.function = some f → (∀ a, (d.arg a).name = (s.context.arg a).name) ∧
      (s.within d).Current pending' f) : (s.within d).Coherent pending' := by
  have hc := h.orderly
  have hresolves : ∀ {v}, s.Resolves v → s.context.Tracks v → (s.within d).Resolves v :=
    fun hr hv => hr.mono hon hv id id id
  refine ⟨horderly, h.scanned, h.module_lt.trans_le hon.modules,
    h.typed.onward hc hon ha.typed (fun {g} hg hm => ?_) fun {g} hg hm => ?_,
    fun {i b v} hi hm hv => ?_, fun {g v} hv hm => ?_, fun {n g} hn => ?_, fun {g} hg hm hne => ?_,
    fun {n v} hn => ?_, fun {n b} hn => ?_, fun hf => (hcurrent hf).2⟩
  · by_cases hlt : g.index < s.context.functions.size
    · exact .inl hlt
    · rcases hfunc hg hm fun hf => hlt (h.current hf).lt with hold | hnew
      · exact absurd hold.1 hlt
      · exact .inr hnew.1
  · rcases hglobal hg hm with hlt | ⟨hsized, hinit⟩
    · exact .inl hlt
    · exact .inr ⟨hsized, fun v hv => (hinit v hv).1⟩
  · rcases ha.resolved hi hv with ⟨hi', hv'⟩ | ⟨w, hw, hr, ht⟩
    · have hb := block_lt_of_linked (hc.inst_linked hi')
      rw [show (s.within d).context = d from rfl, (hon.block hb).2.2,
        (hon.func (hc.block_parent hb)).2.2.1] at hm
      obtain ⟨w, rfl, hr⟩ := h.resolved hi' hm hv'
      exact ⟨w, rfl, hresolves hr (h.tracks_operand hv')⟩
    · exact ⟨w, hw, hresolves hr ht⟩
  · have hv : (d.global g).init = some v := hv
    have hm : (d.global g).parent = s.module := hm
    rcases hglobal (global_lt_of_init hv) hm with hlt | ⟨-, hinit⟩
    · obtain ⟨-, -, hparent, -, hsame⟩ := hon.global hlt
      rw [hsame] at hv
      exact hresolves (h.initial hv (hparent.symm.trans hm)) (hc.initial hv).tracks
    · exact hresolves (hinit v hv).2.1 (hinit v hv).2.2
  · obtain ⟨hlt, hparent, hname, -⟩ := h.forward hn
    obtain ⟨hlt', hname', hparent', -⟩ := hon.func hlt
    exact ⟨hlt', hparent'.trans hparent, hname'.trans hname, hforward hn⟩
  · have hm : (d.func g).parent = s.module := hm
    rcases hfunc hg hm hne with ⟨hlt, hargs, hblocks, hnames, hinsts⟩ | hnew
    · rw [(hon.func hlt).2.2.1] at hm
      exact (h.apart hlt hm hne).onward hc hon hargs hblocks hnames hinsts
    · exact namesApart_of_empty hnew.2
  · obtain ⟨hlocal, hname, g, hg, howns⟩ := h.locals hn
    refine ⟨hlocal, ?_, g, hg, hon.owns (h.current hg).lt howns⟩
    cases v with
    | arg a => exact ((hcurrent hg).1 a).trans hname
    | inst i => exact (hon.inst howns.tracks).2.2.1.trans hname
    | const | block | func | global => exact hlocal.elim
  · obtain ⟨hname, g, hg, howns⟩ := h.labels hn
    exact ⟨(hon.block howns.1).2.1.trans hname, g, hg, hon.owns (h.current hg).lt howns⟩

end ParseState

end SsaIr
