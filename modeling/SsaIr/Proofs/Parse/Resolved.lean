import SsaIr.Proofs.Parse.Modules
import SsaIr.Proofs.Verify.Reports

/-!
# What is read is well typed and resolved

In a module that was read, every operand refers to something that is there: a constant, an argument,
a block or an instruction of the same function, or a function or a global of the same module. Read
`Context.Refers` and `Context.Resolved` first; `parseModule_resolved` says that every accepted
source gives such a module, and that the verifier can only object to the form of its functions.
-/

namespace SsaIr

open Context

namespace Context

/-- The value stands where an operand of the function may find it. -/
def Refers (c : Context) (f : FuncId) : Value → Prop
  | .const _ => True
  | .arg a => a ∈ (c.func f).args
  | .inst i => ∃ b ∈ (c.func f).blocks, i ∈ (c.block b).insts
  | .block b => b ∈ (c.func f).blocks
  | .func g => g ∈ (c.module (c.func f).parent).functions
  | .global g => g ∈ (c.module (c.func f).parent).globals

/-- Everything in a module has its type, refers to what stands where it should, and is told apart by
its name. -/
structure Resolved (c : Context) (m : ModuleId) : Prop where
  orderly : c.Orderly
  signed : ∀ {f}, f ∈ (c.module m).functions → c.Signed f
  global : ∀ {g}, g ∈ (c.module m).globals → c.GlobalWell m g
  fits : ∀ {f b i}, f ∈ (c.module m).functions → b ∈ (c.func f).blocks → i ∈ (c.block b).insts →
    c.Fits f (c.inst i)
  refers : ∀ {f b i v}, f ∈ (c.module m).functions → b ∈ (c.func f).blocks → i ∈ (c.block b).insts →
    v ∈ (c.inst i).operands → ∃ w, v = some w ∧ c.Refers f w
  apart : ∀ {f}, f ∈ (c.module m).functions → c.NamesApart f

namespace Resolved

variable {c : Context} {m : ModuleId} {f : FuncId} {b : BlockId}

variable (h : c.Resolved m)
include h

section

variable (hf : f ∈ (c.module m).functions)
include hf

theorem live {a : FlowAnalysis} {v : Value}
    (hv : c.Refers f v) : Site.Live ⟨c, f, a, b⟩ v := by
  have hc := h.orderly
  have hm := (hc.mem_func hf).1
  cases v with
  | const k => trivial
  | arg x =>
    obtain ⟨n, hn⟩ := Array.mem_iff_getElem?.mp hv
    obtain ⟨-, hparent, hindex, t, htype, -⟩ := hc.mem_arg hn
    exact ⟨Option.isSome_iff_exists.mpr ⟨t, htype⟩, Option.isSome_iff_exists.mpr ⟨n, hindex⟩,
      hparent⟩
  | inst i =>
    obtain ⟨b', hb', hi⟩ := hv
    exact ⟨b', hc.mem_parent hi, hc.mem_block hb'⟩
  | block b' => exact hc.mem_block hv
  | func g =>
    have hg : g ∈ (c.module m).functions := hm ▸ hv
    exact ⟨(h.signed hg).isSome, hc.mem_func hv⟩
  | global g => exact (hc.mem_global hv).2

theorem blockSuccessors (hb : b ∈ (c.func f).blocks) :
    ∃ bs, c.blockSuccessors b = some bs ∧ ∀ t ∈ bs, t ∈ (c.func f).blocks := by
  rw [Context.blockSuccessors]
  cases hterm : c.terminator b with
  | none => exact ⟨[], rfl, by simp⟩
  | some i =>
    obtain ⟨hlast, -⟩ := Option.filter_eq_some_iff.mp hterm
    have hi : i ∈ (c.block b).insts := Array.mem_of_back? hlast
    have htargets := Site.targetOperands_isBlock (h.fits hf hb hi default default)
    have hread : ∀ l : List (Option Value), (∀ v ∈ l, Site.IsBlock v) →
        ∃ bs, l.mapM (fun v => v.bind Value.block?) = some bs ∧ ∀ t ∈ bs, some (.block t) ∈ l := by
      intro l hl
      induction l with
      | nil => exact ⟨[], rfl, by simp⟩
      | cons v l ih =>
        obtain ⟨b', rfl⟩ := hl _ (.head _)
        obtain ⟨bs, hbs, hmem⟩ := ih fun v hv => hl v (.tail _ hv)
        refine ⟨b' :: bs, by simp [List.mapM_cons, hbs, Value.block?], fun t ht => ?_⟩
        rcases List.mem_cons.mp ht with rfl | ht
        · exact .head _
        · exact .tail _ (hmem t ht)
    obtain ⟨bs, hbs, hmem⟩ := hread _ htargets
    refine ⟨bs, hbs, fun t ht => ?_⟩
    obtain ⟨w, hw, hrefers⟩ := h.refers hf hb hi (Site.mem_operands_of_target (hmem t ht))
    cases hw
    exact hrefers

theorem stops_function :
    Verify.Stops (Verify.function c f) VerifyError.IsForm := by
  have hc := h.orderly
  obtain ⟨params, variadic, hsig, htypes⟩ := h.signed hf
  have hcount : params.length = (c.func f).args.size := by
    simpa using (congrArg List.length htypes).symm
  refine Verify.stops_function hsig rfl hcount (fun k a ha => ?_) fun hne => ?_
  · obtain ⟨-, hparent, hindex, t, htype, hsized⟩ := hc.mem_arg ha
    have hat := congrArg (·[k]?) htypes
    simp only [List.getElem?_map, Array.getElem?_toList, ha, Option.map_some] at hat
    refine ⟨hparent, hindex, by rw [htype]; exact hsized, ?_⟩
    cases hk : params[k]? with
    | none => simp [hk] at hat
    | some p =>
      simp only [hk, Option.map_some, Option.some.injEq] at hat
      exact hat.trans hk.symm
  · obtain ⟨cf, hcf⟩ := ControlFlow.exists_ofFunction hne fun b hb => h.blockSuccessors hf hb
    refine ⟨FlowAnalysis.ofFlow cf, Except.bind_eq_ok_iff.mpr ⟨cf, hcf, rfl⟩, fun b hb => ?_⟩
    refine Verify.stops_block (hc.mem_block hb).1 (hc.mem_block hb).2 fun i hi =>
      ⟨hc.mem_parent hi, fun v hv => ?_, h.fits hf hb hi _ b⟩
    obtain ⟨w, rfl, hw⟩ := h.refers hf hb hi hv
    exact ⟨w, rfl, h.live hf hw⟩

end

theorem stops_module : Verify.Stops (Verify.module c m) VerifyError.IsForm := by
  have hfunctions : ∀ (fs : List FuncId) (previous : String),
    (∀ f ∈ fs, f ∈ (c.module m).functions) →
      Verify.Stops (Verify.functions c m previous fs) VerifyError.IsForm := by
    intro fs
    induction fs with
    | nil => exact fun _ _ => Verify.stops_pure ()
    | cons f rest ih =>
      intro previous hfs
      have hf := hfs f (.head _)
      obtain ⟨hparent, hlinked⟩ := h.orderly.mem_func hf
      have hhere : ((c.func f).parent = m && (c.func f).linked) = true := by
        rw [decide_eq_true hparent, hlinked]
        rfl
      exact Verify.Stops.seq (.passed hhere) fun _ =>
        (h.stops_function hf).seq fun _ => ih _ fun g hg => hfs g (.tail _ hg)
  refine ((Verify.checks_globals c m _).stops (a := ()) fun g hg => ?_).seq fun _ =>
    hfunctions _ _ fun f hf => ⟨hf⟩
  exact h.global ⟨hg⟩

theorem verifyModule_error {e : VerifyError} (he : (verifyModule c m).1 = .error e) :
    ∃ v, e = .violation v ∧ v.kind ≠ .typeMismatch ∧ v.cause.isLoose = false := by
  have hform : e.IsForm := by
    unfold verifyModule Verify.outcome at he
    cases hrun : Verify.module c m [] with simp only [hrun] at he
    | ok u ts => cases he
    | error e' ts =>
      cases he
      exact h.stops_module [] e ts hrun
  obtain ⟨v, rfl, hv⟩ := hform
  exact ⟨v, rfl, ViolationCause.isForm_spec hv⟩

end Resolved

end Context

namespace ParseState

variable {s : ParseState} {m : ModuleId}

section

variable (h : s.Reads m none fun _ => False)
include h

theorem Reads.refers
    (hforward : ∀ {n : String} {f}, s.forward[n]? = some f → (s.context.func f).linked = true)
    {f : FuncId} {v : Value} (howns : s.context.Owns f v) (hv : s.Resolves v) :
    s.context.Refers f v := by
  have hc := h.orderly
  cases v with
  | const k => trivial
  | arg a =>
    have hindex : (s.context.arg a).index.isSome = true := by
      rcases hv with hindex | ⟨n, hn⟩
      · exact hindex
      · obtain ⟨-, -, g, hg, -⟩ := h.locals hn
        cases h.function.symm.trans hg
    obtain ⟨n, hn⟩ := Option.isSome_iff_exists.mp hindex
    have hmem := hc.arg_mem hn
    rw [howns.2.1] at hmem
    exact Array.mem_iff_getElem?.mpr ⟨n, hmem⟩
  | inst i =>
    obtain ⟨-, b, hparent, -, hb⟩ := howns
    have hmem := hc.block_mem_of_inst hparent
    rw [hb] at hmem
    exact ⟨b, hmem, hc.inst_mem hparent⟩
  | block b =>
    have hlinked : (s.context.block b).linked = true := by
      rcases hv with hlinked | ⟨n, hn⟩
      · exact hlinked
      · obtain ⟨-, g, hg, -⟩ := h.labels hn
        cases h.function.symm.trans hg
    have hmem := hc.block_mem hlinked
    rwa [howns.2] at hmem
  | func g =>
    have hmem := hc.func_mem (hv.elim id fun ⟨n, hn⟩ => hforward hn)
    rwa [howns.2.1] at hmem
  | global g =>
    have hmem := hc.global_mem howns.1
    rwa [howns.2] at hmem

theorem Reads.not_awaits
    (hforward : ∀ {n : String} {f}, s.forward[n]? = some f → (s.context.func f).linked = true)
    {i : InstId} {b : BlockId} (hi : (s.context.inst i).parent = some b)
    (hm : (s.context.func (s.context.block b).parent).parent = s.module) :
    ¬ s.context.Awaits (s.context.inst i) := by
  rintro ⟨v, hv, hvoid⟩
  have howns := h.orderly.owned hi hv
  obtain ⟨w, hvw, hr⟩ := h.resolved hi hm hv
  cases hvw
  have hrefers := h.refers hforward howns hr
  cases v with
  | const k => exact Ty.ne_void_of_isSized hr (Option.some.inj hvoid)
  | arg a =>
    obtain ⟨n, hn⟩ := Array.mem_iff_getElem?.mp hrefers
    obtain ⟨-, -, -, t, htype, hsized⟩ := h.orderly.mem_arg hn
    have hvoid : (s.context.arg a).type = some .void := hvoid
    rw [htype] at hvoid
    exact Ty.ne_void_of_isSized hsized (Option.some.inj hvoid)
  | inst j => exact howns.1 (Option.some.inj hvoid)
  | block t => cases hvoid
  | func g =>
    obtain ⟨sig, -, hsig⟩ := Option.map_eq_some_iff.mp hvoid
    cases hsig
  | global g => cases hvoid

theorem Reads.finish
    (hforward : ∀ {n : String} {f}, s.forward[n]? = some f → (s.context.func f).linked = true) :
    s.context.Resolved m := by
  have hc := h.orderly
  have hmodule := h.module
  -- An instruction of a function of the module stands in a block of it.
  have hplace : ∀ {f b i}, f ∈ (s.context.module m).functions → b ∈ (s.context.func f).blocks →
      i ∈ (s.context.block b).insts → (s.context.inst i).parent = some b ∧
        (s.context.block b).parent = f ∧ (s.context.func f).parent = s.module :=
    fun hf hb hi => ⟨hc.mem_parent hi, (hc.mem_block hb).1, (hc.mem_func hf).1.trans hmodule.symm⟩
  refine ⟨hc, fun {f} hf => ?_, fun {g} hg => ?_, fun {f b i} hf hb hi => ?_,
    fun {f b i v} hf hb hi hv => ?_, fun {f} hf => ?_⟩
  · obtain ⟨hparent, hlinked⟩ := hc.mem_func hf
    exact h.typed.func (func_lt_of_linked hlinked) (hparent.trans hmodule.symm)
  · obtain ⟨hlt, hparent⟩ := hc.mem_global hg
    obtain ⟨hsized, hinit⟩ := h.typed.global hlt (hparent.trans hmodule.symm)
    refine ⟨hparent, hsized, fun v hv => ⟨?_, hinit v hv⟩⟩
    have hshared := hc.initial hv
    have hr := h.initial hv (hparent.trans hmodule.symm)
    rw [hparent] at hshared
    cases v with
    | const k => trivial
    | func f => exact ⟨hshared.2.1, hr.elim id fun ⟨n, hn⟩ => hforward hn⟩
    | global g' => exact hshared.2
    | arg | inst | block => exact hshared.elim
  · obtain ⟨hparent, rfl, hm⟩ := hplace hf hb hi
    exact (h.typed.inst hparent hm).resolve_right (h.not_awaits hforward hparent hm)
  · obtain ⟨hparent, rfl, hm⟩ := hplace hf hb hi
    obtain ⟨w, rfl, hr⟩ := h.resolved hparent hm hv
    exact ⟨w, rfl, h.refers hforward (hc.owned hparent hv) hr⟩
  · obtain ⟨hparent, hlinked⟩ := hc.mem_func hf
    refine h.apart (func_lt_of_linked hlinked) (hparent.trans hmodule.symm) ?_
    rw [h.function]
    exact nofun

end

theorem reads_start {c : Context} (hc : c.Orderly) (name : String) {stream : TokenStream}
    (budget : Nat)
    (hstream : ∀ t ∈ stream.current :: stream.following, t.word.Scanned) :
    ({ stream, context := c.pushModule name, module := ⟨c.modules.size⟩, budget } :
      ParseState).Reads
      ⟨c.modules.size⟩ none fun _ => False := by
  have hfresh :
      ∀ {f : FuncId}, f.index < c.functions.size → (c.func f).parent ≠ ⟨c.modules.size⟩ := by
    intro f hf heq
    have hlt := hc.func_parent hf
    rw [heq] at hlt
    exact lt_irrefl _ hlt
  have hinst : ∀ {i b}, (c.inst i).parent = some b →
      (c.func (c.block b).parent).parent ≠ ⟨c.modules.size⟩ :=
    fun hi => hfresh (hc.block_parent (block_lt_of_linked (hc.inst_linked hi)))
  have hglobal : ∀ {g : GlobalId}, g.index < c.globals.size →
      (c.global g).parent ≠ ⟨c.modules.size⟩ := by
    intro g hg heq
    have hlt := module_lt_of_lists (x := .global g) (hc.global_mem hg)
    rw [heq] at hlt
    exact lt_irrefl _ hlt
  have hempty : ∀ {β : Type} {n : String} {v : β}, ({} : Std.TreeMap String β)[n]? ≠ some v := by
    intro β n v hn
    rw [Std.TreeMap.getElem?_emptyc] at hn
    cases hn
  refine ⟨⟨hc.pushModule name, fun w hw => ?_, ?_, ⟨fun hi hm => absurd hm (hinst hi),
    fun hf hm => absurd hm (hfresh hf), fun hg hm => absurd hm (hglobal hg)⟩,
    fun hi hm _ => absurd hm (hinst hi), fun hv hm => absurd hm (hglobal (global_lt_of_init hv)),
    fun hn => absurd hn hempty, fun hf hm _ => absurd hm (hfresh hf), fun hn => absurd hn hempty,
    fun hn => absurd hn hempty, nofun⟩, rfl, rfl⟩
  · obtain ⟨t, ht, rfl⟩ := List.mem_map.mp hw
    exact hstream t ht
  · simp [pushModule]

end ParseState

theorem resolved_of_parseModule {file text : String} {c d : Context} {m : ModuleId} (hc : c.Orderly)
    (h : parseModule file text c = (.ok m, d)) : d.Resolved m := by
  have hscanned : ∀ t ∈ (TokenStream.ofTokens (scan file text)).current ::
      (TokenStream.ofTokens (scan file text)).following, t.word.Scanned := by
    have hall : ∀ t ∈ scan file text, t.word.Scanned := scanFrom_scanned _ _
    cases hscan : scan file text with
    | nil =>
      intro t ht
      cases List.mem_singleton.mp ht
      exact .of_plain (by simp [Token.word, TokenStream.ofTokens])
    | cons t ts =>
      rwa [hscan] at hall
  have hstart := ParseState.reads_start hc file (4 * (scan file text).length + 4) hscanned
  unfold parseModule at h
  simp only [Build.newModule, EStateM.get_bind_apply, EStateM.modify_bind_apply, EStateM.pure_apply]
    at h
  split at h
  · next u s hsource =>
      cases h
      obtain ⟨hreads, hforward⟩ := Parse.source_eq_ok hstart hsource
      exact hreads.finish hforward
  · cases h

theorem Context.orderly_new : new.Orderly where
  inst_mem h := by cases h
  mem_parent h := by cases Array.not_mem_empty _ h
  insts_nodup _ := List.nodup_nil
  block_mem h := by cases h
  mem_block h := by cases Array.not_mem_empty _ h
  blocks_nodup _ := List.nodup_nil
  operands_parent h := absurd rfl h
  linked := by
    refine ⟨fun {v} _ => ?_, fun {v} _ u => ?_⟩
    · rw [users_new]
      exact List.nodup_nil
    · rw [users_new]
      exact ⟨fun h => absurd h List.not_mem_nil, nofun⟩
  truths b := by
    show (new.constIndex? (.ofBool b)).isSome = true
    cases b <;> decide +kernel
  named _ h := by cases h
  inst_linked h := by cases h
  owned h := by cases h
  initial h := by cases h
  arg_mem h := by cases h
  mem_arg h := by cases h
  func_mem h := by cases h
  mem_func h := by cases Array.not_mem_empty _ h
  functions_nodup _ := List.nodup_nil
  global_mem h := absurd h (Nat.not_lt_zero _)
  mem_global h := by cases Array.not_mem_empty _ h
  globals_nodup _ := List.nodup_nil
  lookup_iff {m n x} := by
    refine ⟨nofun, fun h => ?_⟩
    cases x with
    | func f => cases Array.not_mem_empty _ h.1
    | global g => cases Array.not_mem_empty _ h.1
  arg_parent h := absurd h (Nat.not_lt_zero _)
  block_parent h := absurd h (Nat.not_lt_zero _)
  func_parent h := absurd h (Nat.not_lt_zero _)

/-- Whatever is read is well typed and resolved. Every operand of every instruction is a constant,
an argument, a block or an instruction of the same function, or a function or global of the same
module, and knows of its use; labels and names of results tell blocks and values apart; and the
verifier never reports a mismatch of types, a broken link, an unresolved value or a reference to the
outside. -/
theorem parseModule_resolved {file text : String} {c d : Context} {m : ModuleId} (hc : c.Orderly)
    (h : parseModule file text c = (.ok m, d)) :
    d.Orderly ∧
      (∀ f ∈ (d.module m).functions, d.NamesApart f ∧
        ∀ b ∈ (d.func f).blocks, ∀ i ∈ (d.block b).insts, d.Fits f (d.inst i) ∧
          ∀ n < (d.inst i).operands.size, ∃ v, (d.inst i).operand n = some v ∧ d.Refers f v ∧
            ⟨i, n⟩ ∈ d.users v) ∧
      ∀ e, (verifyModule d m).1 = .error e →
        ∃ v, e = .violation v ∧ v.kind ≠ .typeMismatch ∧ v.cause.isLoose = false := by
  have hresolved := resolved_of_parseModule hc h
  refine ⟨hresolved.orderly, fun f hf => ⟨hresolved.apart hf, fun b hb i hi =>
    ⟨hresolved.fits hf hb hi, fun n hn => ?_⟩⟩, fun e he => hresolved.verifyModule_error he⟩
  have hmem : (d.inst i).operand n ∈ (d.inst i).operands := by
    rw [Instruction.operand, Array.getD_of_lt _ hn]
    exact Array.getElem_mem hn
  obtain ⟨v, hv, hrefers⟩ := hresolved.refers hf hb hi hmem
  exact ⟨v, hv, hrefers, (hresolved.orderly.linked.mem_users trivial ⟨i, n⟩).mpr hv⟩

/-- A caller that comes before what it calls, and jumps to a label further down. -/
def forwardCalling : String :=
  "define i32 @f(%a: i32) \x7b\n" ++
  "$entry:\n  br $next\n" ++
  "$next:\n  %s: i32 = add %a: i32, %a: i32\n" ++
  "  %r: i32 = call <i32 (i32)> @g(%s: i32)\n  ret %r: i32\n" ++
  "\x7d\n\n" ++
  "declare i32 @g(i32)\n"

def forwardCalled : Context := (parseModule "calls" forwardCalling Context.new).2

/-- The first function calls the second, which knows of it. -/
theorem parseModule_resolved_forwardCalled :
    forwardCalled.Orderly ∧ forwardCalled.NamesApart ⟨0⟩ ∧
      forwardCalled.Fits ⟨0⟩ (forwardCalled.inst ⟨2⟩) ∧
      (∃ v, (forwardCalled.inst ⟨2⟩).operand 0 = some v ∧ forwardCalled.Refers ⟨0⟩ v ∧
        ⟨⟨2⟩, 0⟩ ∈ forwardCalled.users v) ∧
      (forwardCalled.inst ⟨2⟩).operand 0 = some (.func ⟨1⟩) := by
  have hfacts : (parseModule "calls" forwardCalling Context.new).1.toOption = some ⟨0⟩ ∧
      ⟨0⟩ ∈ (forwardCalled.module ⟨0⟩).functions ∧ ⟨1⟩ ∈ (forwardCalled.func ⟨0⟩).blocks ∧
      ⟨2⟩ ∈ (forwardCalled.block ⟨1⟩).insts ∧ 0 < (forwardCalled.inst ⟨2⟩).operands.size ∧
      (forwardCalled.inst ⟨2⟩).operand 0 = some (.func ⟨1⟩) := by decide +kernel
  obtain ⟨hread, hf, hb, hi, hsize, hcallee⟩ := hfacts
  obtain ⟨horderly, hfunctions, -⟩ := parseModule_resolved Context.orderly_new
    (Prod.ext (Except.eq_ok_of_toOption hread) rfl)
  obtain ⟨hnames, hinsts⟩ := hfunctions ⟨0⟩ hf
  obtain ⟨hfits, hoperands⟩ := hinsts ⟨1⟩ hb ⟨2⟩ hi
  exact ⟨horderly, hnames, hfits, hoperands 0 hsize, hcallee⟩

end SsaIr
