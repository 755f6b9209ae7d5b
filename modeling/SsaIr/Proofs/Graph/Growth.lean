import SsaIr.Proofs.Graph.Orderly

/-!
# Growing a program

Making arguments, blocks, functions, globals and instructions keeps a context in order. While the
operands of an instruction are read the program grows without changing: `Context.Extends` collects
all that can happen then. Linking a block or a function and making an instruction are described one
by one.
-/

namespace SsaIr

namespace Context

/-! ## Growth that changes nothing -/

/-- One context is another with new arguments, new blocks that are not linked yet, and new functions
that are not listed yet. Everything else is the same. -/
structure Extends (c d : Context) : Prop where
  const : ∀ {k}, c.Tracks (.const k) → d.Tracks (.const k)
  users : ∀ v, d.users v = c.users v
  namedStructs : d.namedStructs = c.namedStructs
  insts : d.insts = c.insts
  globals : d.globals = c.globals
  modules : d.modules = c.modules
  args : c.args.size ≤ d.args.size
  blocks : c.blocks.size ≤ d.blocks.size
  functions : c.functions.size ≤ d.functions.size
  arg : ∀ {a}, a.index < c.args.size → d.arg a = c.arg a
  block : ∀ {b}, b.index < c.blocks.size → d.block b = c.block b
  func : ∀ {f}, f.index < c.functions.size → d.func f = c.func f
  new_arg : ∀ {a}, c.args.size ≤ a.index → a.index < d.args.size →
    (d.arg a).parent.index < d.functions.size ∧
      ∀ n, (d.arg a).index = some n → c.functions.size ≤ (d.arg a).parent.index ∧
        (d.func (d.arg a).parent).args[n]? = some a
  new_block : ∀ {b}, c.blocks.size ≤ b.index → b.index < d.blocks.size →
    (d.block b).insts = #[] ∧ (d.block b).linked = false ∧
      (d.block b).parent.index < d.functions.size
  new_func : ∀ {f}, c.functions.size ≤ f.index → f.index < d.functions.size →
    (d.func f).blocks = #[] ∧ (d.func f).linked = false ∧
      (d.func f).parent.index < c.modules.size ∧
        ∀ {n a}, (d.func f).args[n]? = some a → c.args.size ≤ a.index ∧ a.index < d.args.size ∧
          (d.arg a).parent = f ∧ (d.arg a).index = some n ∧
            ∃ t, (d.arg a).type = some t ∧ t.isSized = true

namespace Extends

variable {c d e : Context}

theorem refl (c : Context) : c.Extends c where
  const := id
  users _ := rfl
  namedStructs := rfl
  insts := rfl
  globals := rfl
  modules := rfl
  args := le_rfl
  blocks := le_rfl
  functions := le_rfl
  arg _ := rfl
  block _ := rfl
  func _ := rfl
  new_arg h h' := absurd h' (Nat.not_lt.mpr h)
  new_block h h' := absurd h' (Nat.not_lt.mpr h)
  new_func h h' := absurd h' (Nat.not_lt.mpr h)

section Readings

variable (h : c.Extends d)
include h

theorem inst (i : InstId) : d.inst i = c.inst i := by rw [Context.inst, Context.inst, h.insts]

theorem global (g : GlobalId) : d.global g = c.global g := by
  rw [Context.global, Context.global, h.globals]

theorem module (m : ModuleId) : d.module m = c.module m := by
  rw [Context.module, Context.module, h.modules]

theorem block_insts (b : BlockId) : (d.block b).insts = (c.block b).insts ∧
    (d.block b).linked = (c.block b).linked := by
  by_cases hb : b.index < c.blocks.size
  · rw [h.block hb]
    exact ⟨rfl, rfl⟩
  · rw [show c.block b = default from Array.getD_of_not_lt _ hb _]
    by_cases hd : b.index < d.blocks.size
    · obtain ⟨hinsts, hlinked, -⟩ := h.new_block (not_lt.mp hb) hd
      exact ⟨hinsts, hlinked⟩
    · rw [show d.block b = default from Array.getD_of_not_lt _ hd _]
      exact ⟨rfl, rfl⟩

theorem func_blocks (f : FuncId) : (d.func f).blocks = (c.func f).blocks ∧
    (d.func f).linked = (c.func f).linked := by
  by_cases hf : f.index < c.functions.size
  · rw [h.func hf]
    exact ⟨rfl, rfl⟩
  · rw [show c.func f = default from Array.getD_of_not_lt _ hf _]
    by_cases hd : f.index < d.functions.size
    · obtain ⟨hblocks, hlinked, -⟩ := h.new_func (not_lt.mp hf) hd
      exact ⟨hblocks, hlinked⟩
    · rw [show d.func f = default from Array.getD_of_not_lt _ hd _]
      exact ⟨rfl, rfl⟩

theorem onward : c.Onward d where
  const := h.const
  arg ha := ⟨ha.trans_le h.args, by rw [h.arg ha], by rw [h.arg ha], by rw [h.arg ha]⟩
  inst hi := by
    rw [h.insts, h.inst]
    exact ⟨hi, rfl, rfl, rfl, rfl⟩
  block hb := ⟨hb.trans_le h.blocks, by rw [h.block hb], by rw [h.block hb]⟩
  func hf := ⟨hf.trans_le h.functions, by rw [h.func hf], by rw [h.func hf],
    by rw [h.func hf], fun hsig => by rw [h.func hf]; exact ⟨hsig, rfl⟩⟩
  global hg := by
    rw [h.globals, h.global]
    exact ⟨hg, rfl, rfl, rfl, rfl⟩
  modules := by rw [h.modules]
  block_linked hb := (h.block_insts _).2.trans hb
  func_linked hf := (h.func_blocks _).2.trans hf

theorem filed (hc : c.Filed) : d.Filed where
  toStanding := hc.toStanding.congr (fun i => by rw [h.inst]) (fun b => (h.block_insts b).1)
    (fun b => (h.block_insts b).2) (fun b hb => by rw [h.block (block_lt_of_linked hb)])
    fun f => (h.func_blocks f).1
  arg_mem {a n} hn := by
    by_cases ha : a.index < c.args.size
    · rw [h.arg ha] at hn ⊢
      have hmem := hc.arg_mem hn
      rwa [h.func (func_lt_of_arg hmem)]
    · exact ((h.new_arg (not_lt.mp ha) (arg_lt_of_index hn)).2 n hn).2
  func_mem hf := by
    rw [(h.func_blocks _).2] at hf
    rw [h.module, h.func (func_lt_of_linked hf)]
    exact hc.func_mem hf
  global_mem hg := by
    rw [h.globals] at hg
    rw [h.global, h.module]
    exact hc.global_mem hg

theorem orderly (hc : c.Orderly) : d.Orderly where
  toPlaced := hc.toPlaced.of_insts h.inst (fun b => (h.block_insts b).1)
    (fun b => (h.block_insts b).2)
    (fun b hb => by rw [h.block (block_lt_of_linked hb)]) fun f => (h.func_blocks f).1
  linked := hc.linked.of_insts h.inst h.users
  truths b := h.const (hc.truths b)
  named := by
    rw [h.namedStructs]
    exact hc.named
  inst_linked hi := by
    rw [h.inst] at hi
    rw [(h.block_insts _).2]
    exact hc.inst_linked hi
  owned hi hv := by
    rw [h.inst] at hi hv
    have hlt := block_lt_of_linked (hc.inst_linked hi)
    rw [h.block hlt]
    exact h.onward.owns (hc.block_parent hlt) (hc.owned hi hv)
  initial hg := by
    rw [h.global] at hg ⊢
    exact h.onward.shared (hc.initial hg)
  arg_mem := (h.filed hc.toFiled).arg_mem
  mem_arg {f n a} hn := by
    by_cases hf : f.index < c.functions.size
    · rw [h.func hf] at hn
      have ha := hc.mem_arg hn
      rw [h.arg ha.1]
      exact ⟨ha.1.trans_le h.args, ha.2⟩
    · exact ((h.new_func (not_lt.mp hf) (func_lt_of_arg hn)).2.2.2 hn).2
  func_mem := (h.filed hc.toFiled).func_mem
  mem_func hf := by
    rw [h.module] at hf
    rw [h.func (func_lt_of_linked (hc.mem_func hf).2)]
    exact hc.mem_func hf
  functions_nodup m := by
    rw [h.module]
    exact hc.functions_nodup m
  global_mem := (h.filed hc.toFiled).global_mem
  mem_global hg := by
    rw [h.module] at hg
    rw [h.globals, h.global]
    exact hc.mem_global hg
  globals_nodup m := by
    rw [h.module]
    exact hc.globals_nodup m
  lookup_iff {m n x} := by
    have hlookup : d.lookup m n = c.lookup m n := by rw [lookup, lookup, h.module]
    have hlists : d.Lists m x ↔ c.Lists m x := by cases x <;> simp only [Lists, h.module]
    have hname : c.Lists m x → d.nameOf x.value = c.nameOf x.value := by
      intro hx
      cases x with
      | func f => exact congrArg Function.name (h.func (func_lt_of_linked (hc.mem_func hx).2))
      | global g => exact congrArg Global.name (h.global g)
    rw [hlookup, hlists, hc.lookup_iff]
    exact and_congr_right fun hx => by rw [hname hx]
  arg_parent {a} ha := by
    by_cases hlt : a.index < c.args.size
    · rw [h.arg hlt]
      exact (hc.arg_parent hlt).trans_le h.functions
    · exact (h.new_arg (not_lt.mp hlt) ha).1
  block_parent {b} hb := by
    by_cases hlt : b.index < c.blocks.size
    · rw [h.block hlt]
      exact (hc.block_parent hlt).trans_le h.functions
    · exact (h.new_block (not_lt.mp hlt) hb).2.2
  func_parent {f} hf := by
    rw [h.modules]
    by_cases hlt : f.index < c.functions.size
    · rw [h.func hlt]
      exact hc.func_parent hlt
    · exact (h.new_func (not_lt.mp hlt) hf).2.2.1

end Readings

theorem trans (h : c.Extends d) (h' : d.Extends e) : c.Extends e where
  const hk := h'.const (h.const hk)
  users v := (h'.users v).trans (h.users v)
  namedStructs := h'.namedStructs.trans h.namedStructs
  insts := h'.insts.trans h.insts
  globals := h'.globals.trans h.globals
  modules := h'.modules.trans h.modules
  args := h.args.trans h'.args
  blocks := h.blocks.trans h'.blocks
  functions := h.functions.trans h'.functions
  arg ha := (h'.arg (ha.trans_le h.args)).trans (h.arg ha)
  block hb := (h'.block (hb.trans_le h.blocks)).trans (h.block hb)
  func hf := (h'.func (hf.trans_le h.functions)).trans (h.func hf)
  new_arg {a} hle hlt := by
    by_cases ha : a.index < d.args.size
    · obtain ⟨hparent, hindex⟩ := h.new_arg hle ha
      rw [h'.arg ha, h'.func hparent]
      exact ⟨hparent.trans_le h'.functions, hindex⟩
    · obtain ⟨hparent, hindex⟩ := h'.new_arg (not_lt.mp ha) hlt
      exact ⟨hparent, fun n hn => ⟨h.functions.trans (hindex n hn).1, (hindex n hn).2⟩⟩
  new_block {b} hle hlt := by
    by_cases hb : b.index < d.blocks.size
    · obtain ⟨hinsts, hlinked, hparent⟩ := h.new_block hle hb
      rw [h'.block hb]
      exact ⟨hinsts, hlinked, hparent.trans_le h'.functions⟩
    · exact h'.new_block (not_lt.mp hb) hlt
  new_func {f} hle hlt := by
    by_cases hf : f.index < d.functions.size
    · obtain ⟨hblocks, hlinked, hparent, hargs⟩ := h.new_func hle hf
      rw [h'.func hf]
      refine ⟨hblocks, hlinked, hparent, fun hn => ?_⟩
      obtain ⟨ha, hlt, hrest⟩ := hargs hn
      rw [h'.arg hlt]
      exact ⟨ha, hlt.trans_le h'.args, hrest⟩
    · obtain ⟨hblocks, hlinked, hparent, hargs⟩ := h'.new_func (not_lt.mp hf) hlt
      rw [h.modules] at hparent
      exact ⟨hblocks, hlinked, hparent, fun hn => ⟨h.args.trans (hargs hn).1, (hargs hn).2⟩⟩

end Extends

/-! ## New arguments, blocks and functions -/

/-- A context with one more argument, in no list of arguments. -/
def pushArg (c : Context) (x : Argument) : Context := { c with args := c.args.push x }

def pushBlock (c : Context) (x : Block) : Context := { c with blocks := c.blocks.push x }

def pushFunc (c : Context) (x : Function) : Context := { c with functions := c.functions.push x }

def withArg (c : Context) (f : FuncId) (name : String) (t : Ty) : Context :=
  (c.pushArg { name, type := some t, parent := f, index := some (c.func f).args.size }).modifyFunc f
    fun x => { x with args := x.args.push ⟨c.args.size⟩ }

def withSignature (c : Context) (f : FuncId) (sig : Ty) : Context :=
  c.modifyFunc f fun x => { x with signature := some sig }

section Push

variable (c : Context)

theorem arg_pushArg (x : Argument) (a : ArgId) :
    (c.pushArg x).arg a = if a.index = c.args.size then x else c.arg a :=
  Array.getD_push _ _ _ _

theorem block_pushBlock (x : Block) (b : BlockId) :
    (c.pushBlock x).block b = if b.index = c.blocks.size then x else c.block b :=
  Array.getD_push _ _ _ _

theorem func_pushFunc (x : Function) (f : FuncId) :
    (c.pushFunc x).func f = if f.index = c.functions.size then x else c.func f :=
  Array.getD_push _ _ _ _

section

variable (f : FuncId)

theorem arg_withArg (name : String) (t : Ty) (a : ArgId) :
    (c.withArg f name t).arg a = if a.index = c.args.size then
      { name, type := some t, parent := f, index := some (c.func f).args.size } else c.arg a :=
  c.arg_pushArg _ a

theorem func_withArg (name : String) (t : Ty) (g : FuncId) :
    (c.withArg f name t).func g = if f = g ∧ f.index < c.functions.size then
      { c.func g with args := (c.func g).args.push ⟨c.args.size⟩ } else c.func g :=
  func_modifyFunc _ f g _

theorem func_withSignature (sig : Ty) (g : FuncId) :
    (c.withSignature f sig).func g = if f = g ∧ f.index < c.functions.size then
      { c.func g with signature := some sig } else c.func g :=
  func_modifyFunc _ f g _

theorem args_size_withArg (name : String) (t : Ty) :
    (c.withArg f name t).args.size = c.args.size + 1 := Array.size_push _

theorem functions_size_withArg (name : String) (t : Ty) :
    (c.withArg f name t).functions.size = c.functions.size := Array.size_modify

theorem functions_size_withSignature (sig : Ty) :
    (c.withSignature f sig).functions.size = c.functions.size := Array.size_modify

theorem users_withArg (name : String) (t : Ty) (v : Value) :
    (c.withArg f name t).users v = c.users v := by
  cases v with
  | arg a => exact Array.apply_getD_push Argument.users c.args (by rfl) a.index
  | func g =>
    exact Array.apply_getD_modify Function.users _ (fun _ => by rfl) f.index g.index default
  | _ => rfl

theorem func_fields_withArg (name : String) (t : Ty) (g : FuncId) :
    ∃ args, (c.withArg f name t).func g = { c.func g with args } := by
  rw [func_withArg]
  split <;> exact ⟨_, rfl⟩

theorem users_withSignature (sig : Ty) (v : Value) :
    (c.withSignature f sig).users v = c.users v := by
  cases v with
  | func g =>
    exact Array.apply_getD_modify Function.users _ (fun _ => by rfl) f.index g.index default
  | _ => rfl

end

end Push

theorem args_withArg {c : Context} {f : FuncId} (hf : f.index < c.functions.size) (name : String)
    (t : Ty) {g : FuncId} {n : Nat}
    {a : ArgId} : ((c.withArg f name t).func g).args[n]? = some a ↔
      (c.func g).args[n]? = some a ∨ f = g ∧ n = (c.func g).args.size ∧ a = ⟨c.args.size⟩ := by
  rw [func_withArg]
  by_cases hfg : f = g
  · rw [if_pos ⟨hfg, hf⟩]
    rcases Nat.lt_trichotomy n (c.func g).args.size with hlt | rfl | hgt
    · rw [Array.getElem?_push_lt hlt, ← Array.getElem?_eq_getElem hlt]
      simp [hlt.ne]
    · simp [hfg, eq_comm]
    · rw [Array.getElem?_eq_none (by simp; omega), Array.getElem?_eq_none (by omega)]
      simp [Nat.ne_of_gt hgt]
  · simp [hfg]

section NewEntities

variable {c d : Context}

theorem extends_pushArg {x : Argument} (hindex : x.index = none) (husers : x.users = [])
    (hparent : x.parent.index < c.functions.size) : c.Extends (c.pushArg x) :=
  { Extends.refl c with
    users
      | .arg a => Array.apply_getD_push Argument.users c.args husers a.index
      | .const _ | .inst _ | .block _ | .func _ | .global _ => rfl
    args := by simp [pushArg]
    arg := fun ha => by rw [arg_pushArg, if_neg ha.ne]
    new_arg := fun {a} hle hlt => by
      have ha : a.index = c.args.size := by
        simp only [pushArg, Array.size_push] at hlt
        omega
      rw [arg_pushArg, if_pos ha, hindex]
      exact ⟨hparent, fun n hn => by cases hn⟩
    new_func := fun h h' => absurd h' (Nat.not_lt.mpr h) }

theorem extends_pushBlock {x : Block} (hinsts : x.insts = #[]) (hlinked : x.linked = false)
    (husers : x.users = []) (hparent : x.parent.index < c.functions.size) :
    c.Extends (c.pushBlock x) :=
  { Extends.refl c with
    users
      | .block b => Array.apply_getD_push Block.users c.blocks husers b.index
      | .const _ | .arg _ | .inst _ | .func _ | .global _ => rfl
    blocks := by simp [pushBlock]
    block := fun hb => by rw [block_pushBlock, if_neg hb.ne]
    new_block := fun {b} hle hlt => by
      have hb : b.index = c.blocks.size := by
        simp only [pushBlock, Array.size_push] at hlt
        omega
      rw [block_pushBlock, if_pos hb]
      exact ⟨hinsts, hlinked, hparent⟩ }

theorem extends_pushFunc {x : Function} (hblocks : x.blocks = #[]) (hlinked : x.linked = false)
    (hargs : x.args = #[]) (husers : x.users = []) (hparent : x.parent.index < c.modules.size) :
    c.Extends (c.pushFunc x) :=
  { Extends.refl c with
    users
      | .func f => Array.apply_getD_push Function.users c.functions husers f.index
      | .const _ | .arg _ | .inst _ | .block _ | .global _ => rfl
    functions := by simp [pushFunc]
    func := fun hf => by rw [func_pushFunc, if_neg hf.ne]
    new_arg := fun h h' => absurd h' (Nat.not_lt.mpr h)
    new_block := fun h h' => absurd h' (Nat.not_lt.mpr h)
    new_func := fun {f} hle hlt => by
      have hf : f.index = c.functions.size := by
        simp only [pushFunc, Array.size_push] at hlt
        omega
      rw [func_pushFunc, if_pos hf, hargs]
      exact ⟨hblocks, hlinked, hparent, fun hn => by simp at hn⟩ }

theorem Extends.withArg (h : c.Extends d) {f : FuncId} (hle : c.functions.size ≤ f.index)
    (hlt : f.index < d.functions.size) (name : String) {t : Ty} (ht : t.isSized = true) :
    c.Extends (d.withArg f name t) where
  const := h.const
  users v := (d.users_withArg f name t v).trans (h.users v)
  namedStructs := h.namedStructs
  insts := h.insts
  globals := h.globals
  modules := h.modules
  args := by
    rw [args_size_withArg]
    exact Nat.le_succ_of_le h.args
  blocks := h.blocks
  functions := by
    rw [functions_size_withArg]
    exact h.functions
  arg ha := by
    rw [arg_withArg, if_neg ((ha.trans_le h.args).ne), h.arg ha]
  block hb := h.block hb
  func {g} hg := by
    have hne : f ≠ g := fun heq => absurd hg (heq ▸ Nat.not_lt.mpr hle)
    rw [func_withArg, if_neg (fun hand => hne hand.1), h.func hg]
  new_arg {a} hnew ha := by
    rw [args_size_withArg] at ha
    rw [functions_size_withArg, arg_withArg]
    split
    · next heq =>
      refine ⟨hlt, fun n hn => ⟨hle, (args_withArg hlt name t).mpr (.inr ?_)⟩⟩
      exact ⟨rfl, (Option.some.inj hn).symm, congrArg ArgId.mk heq⟩
    · obtain ⟨hparent, hindex⟩ := h.new_arg hnew (by omega)
      refine ⟨hparent, fun n hn => ⟨(hindex n hn).1, ?_⟩⟩
      exact (args_withArg hlt name t).mpr (.inl (hindex n hn).2)
  new_block hnew hb := by
    rw [functions_size_withArg]
    exact h.new_block hnew hb
  new_func {g} hnew hg := by
    rw [functions_size_withArg] at hg
    obtain ⟨hblocks, hlinked, hparent, hargs⟩ := h.new_func hnew hg
    obtain ⟨args, hfunc⟩ := d.func_fields_withArg f name t g
    have hnew' : ∀ {n a}, ((d.withArg f name t).func g).args[n]? = some a → c.args.size ≤ a.index ∧
        a.index < (d.withArg f name t).args.size ∧ ((d.withArg f name t).arg a).parent = g ∧
          ((d.withArg f name t).arg a).index = some n ∧
            ∃ u, ((d.withArg f name t).arg a).type = some u ∧ u.isSized = true := by
      intro n a hn
      rw [args_size_withArg, arg_withArg]
      rcases (args_withArg hlt name t).mp hn with hn | ⟨rfl, rfl, rfl⟩
      · obtain ⟨ha, ha', hrest⟩ := hargs hn
        rw [if_neg ha'.ne]
        exact ⟨ha, Nat.lt_succ_of_lt ha', hrest⟩
      · rw [if_pos rfl]
        exact ⟨h.args, Nat.lt_succ_self _, rfl, rfl, t, rfl, ht⟩
    rw [hfunc] at hnew' ⊢
    exact ⟨hblocks, hlinked, hparent, hnew'⟩

theorem Extends.withSignature (h : c.Extends d) {f : FuncId} (hle : c.functions.size ≤ f.index)
    (sig : Ty) : c.Extends (d.withSignature f sig) := by
  have hfunc : ∀ g, ∃ signature, (d.withSignature f sig).func g = { d.func g with signature } := by
    intro g
    rw [func_withSignature]
    split <;> exact ⟨_, rfl⟩
  choose signature hfunc using hfunc
  exact { h with
    users := fun v => (d.users_withSignature f sig v).trans (h.users v)
    functions := by
      rw [functions_size_withSignature]
      exact h.functions
    func := fun {g} hg => by
      have hne : f ≠ g := fun heq => absurd hg (heq ▸ Nat.not_lt.mpr hle)
      rw [func_withSignature, if_neg (fun hand => hne hand.1), h.func hg]
    new_arg := fun hnew ha => by
      obtain ⟨hparent, hindex⟩ := h.new_arg hnew ha
      refine ⟨functions_size_withSignature d f sig ▸ hparent, fun n hn => ?_⟩
      rw [hfunc]
      exact hindex n hn
    new_block := fun hnew hb => by
      rw [functions_size_withSignature]
      exact h.new_block hnew hb
    new_func := fun hnew hg => by
      rw [functions_size_withSignature] at hg
      rw [hfunc]
      exact h.new_func hnew hg }

end NewEntities

end Context

end SsaIr
