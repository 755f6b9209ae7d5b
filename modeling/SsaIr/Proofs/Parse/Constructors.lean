import SsaIr.Proofs.Syntax.Types

/-!
# What constructors do

Each constructor that reading uses, as the change of the context that it makes when it is not
refused. The head of a function is made in steps: `Context.withArgs` and
`Build.finalizeSignature_eq_ok` say what comes out.
-/

namespace SsaIr

open EStateM

namespace Context

/-- The signature of a function is fixed, and its arguments are those of the signature. -/
def Signed (c : Context) (f : FuncId) : Prop :=
  ∃ params variadic, (c.func f).signature = some (.function (c.func f).ret params variadic) ∧
    (c.func f).args.toList.map (fun a => (c.arg a).type) = params.map some

section Signatures

variable {c d : Context} {f : FuncId}

theorem Signed.onward (h : c.Signed f) (hc : c.Orderly) (hon : c.Onward d)
    (hf : f.index < c.functions.size) : d.Signed f := by
  obtain ⟨params, variadic, hsig, hargs⟩ := h
  obtain ⟨-, -, -, hret, hsame⟩ := hon.func hf
  refine ⟨params, variadic, hret ▸ (hsame hsig).1, ?_⟩
  rw [(hsame hsig).2, ← hargs]
  refine List.map_congr_left fun a ha => ?_
  obtain ⟨n, hn⟩ := List.mem_iff_getElem?.mp ha
  rw [Array.getElem?_toList] at hn
  exact (hon.arg (hc.mem_arg hn).1).2.1

theorem Signed.isSome (h : c.Signed f) : (c.func f).signature.isSome = true := by
  obtain ⟨params, variadic, hsig, -⟩ := h
  rw [hsig]
  rfl

def withArgs (c : Context) (f : FuncId) : List (String × Ty) → Context
  | [] => c
  | (name, t) :: rest => (c.withArg f name t).withArgs f rest

/-- What more arguments leave of the function, and which arguments it has then. -/
structure Extended (c d : Context) (f : FuncId) (ps : List (String × Ty)) : Prop where
  orderly : d.Orderly
  onward : c.Onward d
  insts : d.insts = c.insts
  blocks : d.blocks = c.blocks
  globals : d.globals = c.globals
  modules : d.modules = c.modules
  functions : d.functions.size = c.functions.size
  func : ∀ g, (d.func g).name = (c.func g).name ∧ (d.func g).parent = (c.func g).parent ∧
    (d.func g).ret = (c.func g).ret ∧ (d.func g).blocks = (c.func g).blocks ∧
      (d.func g).linked = (c.func g).linked
  signature : (d.func f).signature = none
  args : ∀ g, f ≠ g → (d.func g).args = (c.func g).args
  arg : ∀ {a}, a.index < c.args.size → d.arg a = c.arg a
  new : (d.func f).args.toList.map (fun a => ((d.arg a).name, (d.arg a).type)) =
    (c.func f).args.toList.map (fun a => ((c.arg a).name, (c.arg a).type)) ++
      ps.map fun p => (p.1, some p.2)

theorem Orderly.extended (h : c.Orderly) (hf : f.index < c.functions.size)
    (hopen : (c.func f).signature = none) {ps : List (String × Ty)}
    (hps : ∀ p ∈ ps, p.2.isSized = true) : c.Extended (c.withArgs f ps) f ps := by
  induction ps generalizing c with
  | nil =>
    exact ⟨h, .refl c, rfl, rfl, rfl, rfl, rfl, fun _ => ⟨rfl, rfl, rfl, rfl, rfl⟩, hopen,
      fun _ _ => rfl, fun _ => rfl, (List.append_nil _).symm⟩
  | cons p ps ih =>
    obtain ⟨name, t⟩ := p
    have hfunc := c.func_withArg f name t
    have hself : (c.withArg f name t).func f =
        { c.func f with args := (c.func f).args.push ⟨c.args.size⟩ } := by
      rw [hfunc, if_pos ⟨rfl, hf⟩]
    have hlt : f.index < (c.withArg f name t).functions.size := by
      rwa [functions_size_withArg]
    have hnext := ih (h.withArg hf hopen name (hps _ (.head _))) hlt
      (by rw [hself]; exact hopen) fun p hp => hps p (.tail _ hp)
    have hold : ∀ {a}, a.index < c.args.size → (c.withArg f name t).arg a = c.arg a := by
      intro a ha
      rw [arg_withArg, if_neg ha.ne]
    refine ⟨hnext.orderly, (onward_withArg hopen name t).trans hnext.onward, hnext.insts,
      hnext.blocks, hnext.globals, hnext.modules,
      hnext.functions.trans (functions_size_withArg c f name t), fun g => ?_, hnext.signature,
      fun g hg => ?_, fun {a} ha => ?_, ?_⟩
    · have hstep := hnext.func g
      obtain ⟨_, hfields⟩ := c.func_fields_withArg f name t g
      rwa [hfields] at hstep
    · rw [withArgs, hnext.args g hg, hfunc, if_neg fun hand => hg hand.1]
    · rw [withArgs, hnext.arg, hold ha]
      rw [args_size_withArg]
      exact Nat.lt_succ_of_lt ha
    · rw [withArgs, hnext.new, hself, Array.toList_push, List.map_append, List.append_assoc]
      congr 1
      · refine List.map_congr_left fun a ha => ?_
        obtain ⟨n, hn⟩ := Array.mem_iff_getElem?.mp ⟨ha⟩
        rw [hold (h.mem_arg hn).1]
      · simp [arg_withArg]

theorem Extends.withArgs (h : c.Extends d) (hle : c.functions.size ≤ f.index)
    (hlt : f.index < d.functions.size) {ps : List (String × Ty)}
    (hps : ∀ p ∈ ps, p.2.isSized = true) : c.Extends (d.withArgs f ps) := by
  induction ps generalizing d with
  | nil => exact h
  | cons p ps ih =>
    refine ih (h.withArg hle hlt p.1 (hps p (.head _))) ?_
      fun q hq => hps q (.tail _ hq)
    rwa [functions_size_withArg]

end Signatures

end Context

namespace Build

variable {c d : Context} {f : FuncId} {m : ModuleId} {name : String} {t : Option Ty} {k : Const}

theorem newDetachedFunction_eq_ok {r : Ty} (h : newDetachedFunction m name (some r) c = .ok f d) :
    r.isReturnable = true ∧ f = ⟨c.functions.size⟩ ∧
      d = c.pushFunc { name, parent := m, ret := r } := by
  obtain ⟨hr, h⟩ := require_bind_eq_ok_iff.mp h
  cases h
  exact ⟨hr, rfl, rfl⟩

theorem addArgument_eq_ok {t : Ty} {a : ArgId} (h : addArgument f (some t) name c = .ok a d) :
    (c.func f).signature = none ∧ t.isSized = true ∧ d = c.withArg f name t := by
  rw [addArgument, get_bind_apply] at h
  obtain ⟨hopen, h⟩ := require_bind_eq_ok_iff.mp h
  obtain ⟨hsized, h⟩ := require_bind_eq_ok_iff.mp h
  cases h
  exact ⟨Option.isNone_iff_eq_none.mp hopen, hsized, rfl⟩

theorem finalizeSignature_eq_ok {variadic : Bool} (h : finalizeSignature f variadic c = .ok () d) :
    (c.func f).signature = none ∧ ∃ params e, c.Learned e ∧
      (c.func f).args.toList.map (fun a => (c.arg a).type) = params.map some ∧
        d = e.withSignature f (.function (c.func f).ret params variadic) := by
  rw [finalizeSignature, get_bind_apply] at h
  obtain ⟨hopen, h⟩ := require_bind_eq_ok_iff.mp h
  obtain ⟨sig, c₁, hsig, h⟩ := bind_eq_ok_iff.mp h
  obtain ⟨-, hsig⟩ := require_bind_eq_ok_iff.mp hsig
  obtain ⟨params, c₂, hparams, hsig⟩ := bind_eq_ok_iff.mp hsig
  obtain ⟨-, htypes, rfl⟩ := allSized_eq_ok_iff.mp hparams
  obtain ⟨rfl, rfl⟩ := knowType_eq_ok_iff.mp hsig
  obtain ⟨_, c₃, hpointer, h⟩ := bind_eq_ok_iff.mp h
  cases hpointer
  cases h
  exact ⟨Option.isNone_iff_eq_none.mp hopen, params, _,
    (Context.learned_learn _ _).trans (Context.learned_learn _ _), htypes, rfl⟩

theorem finalizeSignature_signs {variadic : Bool} (hc : c.Orderly) (hf : f.index < c.functions.size)
    (h : finalizeSignature f variadic c = .ok () d) :
    d.Orderly ∧ c.Reworked d ∧ d.insts = c.insts ∧ d.Signed f ∧ (∀ a, d.arg a = c.arg a) ∧
      ∀ {b : Context}, b.Extends c → b.functions.size ≤ f.index → b.Extends d := by
  obtain ⟨hopen, params, e, hlearned, htypes, rfl⟩ := finalizeSignature_eq_ok h
  have hext := hlearned.toExtends
  have horderly := hext.orderly hc
  have hconst : ∀ {k}, c.Tracks (.const k) → e.Tracks (.const k) := hlearned.const
  obtain ⟨_, _, rfl⟩ := hlearned.same
  have hreworked := Context.reworked_withSignature hopen (.function (c.func f).ret params variadic)
  refine ⟨horderly.withSignature hopen _,
    ⟨hconst, hreworked.args, hreworked.insts, hreworked.blocks,
    hreworked.functions, hreworked.globals, hreworked.modules, hreworked.arg, hreworked.inst,
    hreworked.block, hreworked.func, hreworked.signature, hreworked.global, hreworked.module⟩, rfl,
    ⟨params, variadic, ?_, ?_⟩, fun _ => rfl, fun hb hle => (hb.trans hext).withSignature hle _⟩
  · rw [Context.func_withSignature, if_pos ⟨rfl, hf⟩]
    rfl
  · rwa [Context.func_withSignature, if_pos ⟨rfl, hf⟩]

theorem knowConst_eq_ok_iff {k' : Const} :
    knowConst k c = .ok k' d ↔ k = k' ∧ c.learnConst k = d := by
  simp only [knowConst, modify_bind_apply, pure_apply, EStateM.Result.ok.injEq]
  rfl

theorem undef_eq_ok {t : Ty} (h : undef (some t) c = .ok k d) :
    k.type.isSized = true ∧ c.learnConst k = d := by
  obtain ⟨hsized, h⟩ := require_bind_eq_ok_iff.mp h
  obtain ⟨rfl, hd⟩ := knowConst_eq_ok_iff.mp h
  exact ⟨hsized, hd⟩

theorem null_eq_ok (h : null t c = .ok k d) : k.type.isSized = true ∧ c.learnConst k = d := by
  unfold null at h
  split at h
  · obtain ⟨rfl, hd⟩ := knowConst_eq_ok_iff.mp h
    exact ⟨rfl, hd⟩
  · cases h

theorem constInt_eq_ok {v : Int64} (h : constInt t v c = .ok k d) :
    k.type.isSized = true ∧ c.learnConst k = d := by
  unfold constInt at h
  split at h
  · obtain ⟨rfl, hd⟩ := knowConst_eq_ok_iff.mp h
    exact ⟨rfl, hd⟩
  · cases h

theorem constFloat_eq_ok {bits : UInt64}
    (h : constFloat t bits c = .ok k d) : k.type.isSized = true ∧ c.learnConst k = d := by
  unfold constFloat at h
  split at h
  · next w =>
      obtain ⟨rfl, hd⟩ := knowConst_eq_ok_iff.mp h
      refine ⟨?_, hd⟩
      cases w <;> rfl
  · cases h

theorem define_eq_ok {s : Symbol} {u : Unit} (h : define m name s c = .ok u d) : name ≠ "" ∧
    c.lookup m name = none ∧ d = c.modifyModule m fun x =>
    { x with symbols := (name, s) :: x.symbols } := by
  obtain ⟨hname, h⟩ := require_bind_eq_ok_iff.mp h
  rw [get_bind_apply] at h
  obtain ⟨hfree, h⟩ := require_bind_eq_ok_iff.mp h
  cases h
  exact ⟨of_decide_eq_true hname, Option.isNone_iff_eq_none.mp hfree, rfl⟩

theorem linkFunction_eq_ok (h : linkFunction m f c = .ok () d) :
    (c.func f).parent = m ∧ (c.func f).linked = false ∧ (c.func f).name ≠ "" ∧
      c.lookup m (c.func f).name = none ∧ d = c.linkFunc m f := by
  rw [linkFunction, get_bind_apply] at h
  obtain ⟨hparent, h⟩ := require_bind_eq_ok_iff.mp h
  obtain ⟨hlinked, h⟩ := require_bind_eq_ok_iff.mp h
  obtain ⟨_, c₁, hdefine, h⟩ := bind_eq_ok_iff.mp h
  obtain ⟨hname, hfree, rfl⟩ := define_eq_ok hdefine
  cases h
  exact ⟨of_decide_eq_true hparent, by simpa using hlinked, hname, hfree, rfl⟩

theorem appendBlock_eq_ok {b : BlockId} (h : appendBlock f b c = .ok () d) :
    (c.block b).parent = f ∧ (c.block b).linked = false ∧ d = c.linkBlock f b := by
  rw [appendBlock, get_bind_apply] at h
  obtain ⟨hparent, h⟩ := require_bind_eq_ok_iff.mp h
  obtain ⟨hlinked, h⟩ := require_bind_eq_ok_iff.mp h
  cases h
  exact ⟨of_decide_eq_true hparent, by simpa using hlinked, rfl⟩

theorem checkInitializer_eq_ok {t : Ty} {init : Option Value} {u : Unit}
    (h : checkInitializer name t init c = .ok u d) :
    c = d ∧ ∀ v, init = some v → c.typeOf v = some t := by
  cases init with
  | none =>
    cases h
    exact ⟨rfl, nofun⟩
  | some v =>
    have hrequire : (do
        let t' := (← get).typeOf v
        require (t' = some t) (.initializerType name t' t) : Build Unit) c = .ok u d := by
      cases v with
      | const | func | global => exact h
      | _ => cases h
    rw [get_bind_apply] at hrequire
    obtain ⟨htype, rfl⟩ := require_eq_ok_iff.mp hrequire
    refine ⟨rfl, fun w hw => ?_⟩
    cases hw
    exact of_decide_eq_true htype

theorem newGlobal_eq_ok {t : Ty} {init : Option Value} {g : GlobalId}
    (h : newGlobal m name (some t) init c = .ok g d) : t.isSized = true ∧
      ∃ e, c.Learned e ∧ name ≠ "" ∧ e.lookup m name = none ∧
        (∀ v, init = some v → e.typeOf v = some t) ∧ d = e.withGlobal m name t init := by
  obtain ⟨hsized, h⟩ := require_bind_eq_ok_iff.mp h
  obtain ⟨_, c₁, hpointer, h⟩ := bind_eq_ok_iff.mp h
  have hlearned : c.Learned c₁ := by
    obtain ⟨_, hpointer, -⟩ := map_eq_ok_iff.mp hpointer
    obtain ⟨-, -, rfl⟩ := pointerTo_eq_ok_iff.mp hpointer
    exact Context.learned_learn _ _
  obtain ⟨_, c₂, hinit, h⟩ := bind_eq_ok_iff.mp h
  obtain ⟨rfl, htype⟩ := checkInitializer_eq_ok hinit
  rw [get_bind_apply] at h
  obtain ⟨_, c₃, hdefine, h⟩ := bind_eq_ok_iff.mp h
  obtain ⟨hname, hfree, rfl⟩ := define_eq_ok hdefine
  cases h
  exact ⟨hsized, c₁, hlearned, hname, hfree, htype, rfl⟩

end Build

end SsaIr
