import SsaIr.Proofs.Graph.Placed

/-!
# Entities stand where they belong

What every context keeps that only constructors made: arguments, functions and globals stand in the
lists that they should, symbols name what is listed, instructions stand in linked blocks, and what
an instruction refers to belongs to its own function or module. `Context.Onward` says what never
changes while a program grows, and `Context.Reworked` what changes in place leave alone. Read
`Context.Orderly` first.
-/

namespace SsaIr

variable {f : FuncId} {i : InstId} {m : ModuleId}

namespace Context

variable {c d e : Context} {v : Value}

/-! ## Belonging -/

/-- The value can be used in the whole module: a constant, or a function or global of it that has a
type. -/
def Shared (c : Context) (m : ModuleId) : Value → Prop
  | .const k => c.Tracks (.const k)
  | .func g => g.index < c.functions.size ∧ (c.func g).parent = m ∧
      (c.func g).signature.isSome = true
  | .global g => g.index < c.globals.size ∧ (c.global g).parent = m
  | _ => False

/-- The value can be used in the function: it belongs to it or is shared in its module. An
instruction counts only if it has a result. -/
def Owns (c : Context) (f : FuncId) : Value → Prop
  | .arg a => a.index < c.args.size ∧ (c.arg a).parent = f ∧ (c.arg a).type.isSome = true
  | .inst i => (c.inst i).type ≠ .void ∧
      ∃ b, (c.inst i).parent = some b ∧ b.index < c.blocks.size ∧ (c.block b).parent = f
  | .block b => b.index < c.blocks.size ∧ (c.block b).parent = f
  | v => c.Shared (c.func f).parent v

def Lists (c : Context) (m : ModuleId) : Symbol → Prop
  | .func f => f ∈ (c.module m).functions
  | .global g => g ∈ (c.module m).globals

/-- Arguments, functions and globals stand in the lists that they should, too. -/
structure Filed (c : Context) : Prop extends c.Standing where
  arg_mem : ∀ {a n}, (c.arg a).index = some n → (c.func (c.arg a).parent).args[n]? = some a
  func_mem : ∀ {f}, (c.func f).linked = true → f ∈ (c.module (c.func f).parent).functions
  global_mem : ∀ {g}, g.index < c.globals.size → g ∈ (c.module (c.global g).parent).globals

/-- What constructors keep up: everything stands where it belongs and refers to what is near. -/
structure Orderly (c : Context) : Prop extends c.Placed, c.Filed where
  linked : c.Linked fun _ => True
  truths : ∀ b, c.Tracks (.const (.ofBool b))
  named : ∀ t ∈ c.namedStructs, t.isNamed = true
  inst_linked : ∀ {i b}, (c.inst i).parent = some b → (c.block b).linked = true
  owned : ∀ {i b v}, (c.inst i).parent = some b → some v ∈ (c.inst i).operands →
    c.Owns (c.block b).parent v
  initial : ∀ {g v}, (c.global g).init = some v → c.Shared (c.global g).parent v
  mem_arg : ∀ {f n a}, (c.func f).args[n]? = some a → a.index < c.args.size ∧
    (c.arg a).parent = f ∧ (c.arg a).index = some n ∧
      ∃ t, (c.arg a).type = some t ∧ t.isSized = true
  mem_func : ∀ {m f}, f ∈ (c.module m).functions → (c.func f).parent = m ∧ (c.func f).linked = true
  functions_nodup : ∀ m, (c.module m).functions.toList.Nodup
  mem_global : ∀ {m g}, g ∈ (c.module m).globals →
    g.index < c.globals.size ∧ (c.global g).parent = m
  globals_nodup : ∀ m, (c.module m).globals.toList.Nodup
  lookup_iff : ∀ {m n x}, c.lookup m n = some x ↔ c.Lists m x ∧ c.nameOf x.value = n
  arg_parent : ∀ {a}, a.index < c.args.size → (c.arg a).parent.index < c.functions.size
  block_parent : ∀ {b}, b.index < c.blocks.size → (c.block b).parent.index < c.functions.size
  func_parent : ∀ {f}, f.index < c.functions.size → (c.func f).parent.index < c.modules.size

theorem Orderly.sound (h : c.Orderly) : c.Sound :=
  ⟨h.toPlaced, h.linked.mono fun _ _ => trivial⟩

/-! ## What is there -/

theorem global_lt_of_init {g : GlobalId} (h : (c.global g).init = some v) :
    g.index < c.globals.size :=
  Array.lt_size_of_getD (p := fun x => x.init = some v) h nofun

theorem module_lt_of_lists {x : Symbol} (h : c.Lists m x) : m.index < c.modules.size := by
  cases x with
  | func f => exact Array.lt_size_of_getD (p := fun x => f ∈ x.functions) h (Array.not_mem_empty f)
  | global g => exact Array.lt_size_of_getD (p := fun x => g ∈ x.globals) h (Array.not_mem_empty g)

theorem Orderly.block_mem_of_inst (h : c.Orderly) {b : BlockId}
    (hi : (c.inst i).parent = some b) : b ∈ (c.func (c.block b).parent).blocks :=
  h.block_mem (h.inst_linked hi)

theorem Orderly.args_nodup (h : c.Orderly) (f : FuncId) : (c.func f).args.toList.Nodup := by
  refine List.nodup_iff_getElem?_ne_getElem?.mpr fun m n hmn hn heq => hmn.ne ?_
  obtain ⟨a, ha⟩ : ∃ a, (c.func f).args[n]? = some a :=
    ⟨_, Array.getElem?_eq_getElem (by simpa using hn)⟩
  rw [Array.getElem?_toList, Array.getElem?_toList, ha] at heq
  have hm := (h.mem_arg heq).2.2.1
  rw [(h.mem_arg ha).2.2.1] at hm
  exact (Option.some.inj hm).symm

theorem Orderly.exists_owns (h : c.Orderly) (hv : some v ∈ (c.inst i).operands) :
    ∃ b, (c.inst i).parent = some b ∧ b.index < c.blocks.size ∧
      (c.block b).parent.index < c.functions.size ∧ c.Owns (c.block b).parent v := by
  obtain ⟨b, hb⟩ := h.toPlaced.exists_parent hv
  have hlt := block_lt_of_linked (h.inst_linked hb)
  exact ⟨b, hb, hlt, h.block_parent hlt, h.owned hb hv⟩

/-! ## Onward -/

/-- One context is another after some construction: what was there is still there, with its type and
in its place. Only arguments may have got other names, and functions arguments until their signature
is fixed. -/
structure Onward (c d : Context) : Prop where
  const : ∀ {k}, c.Tracks (.const k) → d.Tracks (.const k)
  arg : ∀ {a}, a.index < c.args.size → a.index < d.args.size ∧ (d.arg a).type = (c.arg a).type ∧
    (d.arg a).parent = (c.arg a).parent ∧ (d.arg a).index = (c.arg a).index
  inst : ∀ {i}, i.index < c.insts.size → i.index < d.insts.size ∧ (d.inst i).op = (c.inst i).op ∧
    (d.inst i).name = (c.inst i).name ∧ (d.inst i).type = (c.inst i).type ∧
      (d.inst i).parent = (c.inst i).parent
  block : ∀ {b}, b.index < c.blocks.size → b.index < d.blocks.size ∧
    (d.block b).name = (c.block b).name ∧ (d.block b).parent = (c.block b).parent
  func : ∀ {f}, f.index < c.functions.size → f.index < d.functions.size ∧
    (d.func f).name = (c.func f).name ∧ (d.func f).parent = (c.func f).parent ∧
      (d.func f).ret = (c.func f).ret ∧
        ∀ {sig}, (c.func f).signature = some sig →
          (d.func f).signature = some sig ∧ (d.func f).args = (c.func f).args
  global : ∀ {g}, g.index < c.globals.size → g.index < d.globals.size ∧
    (d.global g).name = (c.global g).name ∧ (d.global g).parent = (c.global g).parent ∧
      (d.global g).allocated = (c.global g).allocated ∧ (d.global g).init = (c.global g).init
  modules : c.modules.size ≤ d.modules.size
  block_linked : ∀ {b}, (c.block b).linked = true → (d.block b).linked = true
  func_linked : ∀ {f}, (c.func f).linked = true → (d.func f).linked = true

namespace Onward

theorem refl (c : Context) : c.Onward c :=
  ⟨id, fun h => ⟨h, rfl, rfl, rfl⟩, fun h => ⟨h, rfl, rfl, rfl, rfl⟩, fun h => ⟨h, rfl, rfl⟩,
    fun h => ⟨h, rfl, rfl, rfl, fun hsig => ⟨hsig, rfl⟩⟩, fun h => ⟨h, rfl, rfl, rfl, rfl⟩, le_rfl,
    id, id⟩

section

variable (h : c.Onward d)
include h

theorem trans (h' : d.Onward e) : c.Onward e where
  const hk := h'.const (h.const hk)
  arg ha := by simp only [h'.arg (h.arg ha).1, h.arg ha, and_self]
  inst hi := by simp only [h'.inst (h.inst hi).1, h.inst hi, and_self]
  block hb := by simp only [h'.block (h.block hb).1, h.block hb, and_self]
  func hf := by
    obtain ⟨h1, h2, h3, h4, h5⟩ := h.func hf
    obtain ⟨k1, k2, k3, k4, k5⟩ := h'.func h1
    refine ⟨k1, k2.trans h2, k3.trans h3, k4.trans h4, fun hsig => ?_⟩
    exact ⟨(k5 (h5 hsig).1).1, (k5 (h5 hsig).1).2.trans (h5 hsig).2⟩
  global hg := by simp only [h'.global (h.global hg).1, h.global hg, and_self]
  modules := h.modules.trans h'.modules
  block_linked hb := h'.block_linked (h.block_linked hb)
  func_linked hf := h'.func_linked (h.func_linked hf)

theorem shared (hv : c.Shared m v) : d.Shared m v := by
  cases v with
  | const k => exact h.const hv
  | func g =>
    obtain ⟨hlt, hparent, hsome⟩ := hv
    obtain ⟨sig, hsig⟩ := Option.isSome_iff_exists.mp hsome
    obtain ⟨hlt', -, hparent', -, hsame⟩ := h.func hlt
    exact ⟨hlt', hparent'.trans hparent, by rw [(hsame hsig).1]; rfl⟩
  | global g => exact ⟨(h.global hv.1).1, (h.global hv.1).2.2.1.trans hv.2⟩
  | arg | inst | block => exact hv.elim

theorem owns (hf : f.index < c.functions.size) (hv : c.Owns f v) : d.Owns f v := by
  have hparent := (h.func hf).2.2.1
  cases v with
  | arg a =>
    obtain ⟨hlt, htype, hparent', -⟩ := h.arg hv.1
    exact ⟨hlt, hparent'.trans hv.2.1, htype ▸ hv.2.2⟩
  | block b => exact ⟨(h.block hv.1).1, (h.block hv.1).2.2.trans hv.2⟩
  | inst i =>
    obtain ⟨hne, b, hb, hlt, hbf⟩ := hv
    obtain ⟨-, -, -, htype, hib⟩ := h.inst (inst_lt_of_parent hb)
    exact ⟨htype ▸ hne, b, hib.trans hb, (h.block hlt).1, (h.block hlt).2.2.trans hbf⟩
  | const k => exact h.const hv
  | func g =>
    have hs : d.Shared (d.func f).parent (.func g) := hparent.symm ▸ h.shared (v := .func g) hv
    exact hs
  | global g =>
    have hs : d.Shared (d.func f).parent (.global g) :=
      hparent.symm ▸ h.shared (v := .global g) hv
    exact hs

theorem typeOf_shared (hv : c.Shared m v) : d.typeOf v = c.typeOf v := by
  cases v with
  | const k => rfl
  | func g =>
    obtain ⟨sig, hsig⟩ := Option.isSome_iff_exists.mp hv.2.2
    rw [Context.typeOf, Context.typeOf, hsig, ((h.func hv.1).2.2.2.2 hsig).1]
  | global g => exact congrArg (fun t => some (Ty.pointer t)) (h.global hv.1).2.2.2.1
  | arg | inst | block => exact hv.elim

theorem typeOf (hv : c.Owns f v) : d.typeOf v = c.typeOf v := by
  cases v with
  | arg a => exact (h.arg hv.1).2.1
  | inst i =>
    obtain ⟨-, b, hb, -⟩ := hv
    exact congrArg some (h.inst (inst_lt_of_parent hb)).2.2.2.1
  | block b => rfl
  | const k => rfl
  | func g => exact h.typeOf_shared (v := .func g) hv
  | global g => exact h.typeOf_shared (v := .global g) hv

end

end Onward

theorem Orderly.owned_onward {d : Context} (h : c.Orderly) (hon : c.Onward d)
    {b : BlockId} (hi : (c.inst i).parent = some b) (hv : some v ∈ (c.inst i).operands) :
    d.Owns (c.block b).parent v :=
  hon.owns (h.block_parent (block_lt_of_linked (h.inst_linked hi))) (h.owned hi hv)

theorem Orderly.lookup_iff_of_names (h : c.Orderly) (d : Context)
    (hfunc : ∀ f, (d.func f).name = (c.func f).name)
    (hglobal : ∀ g, (d.global g).name = (c.global g).name)
    (hmodule : ∀ m, (d.module m).functions = (c.module m).functions ∧
      (d.module m).globals = (c.module m).globals ∧ (d.module m).symbols = (c.module m).symbols)
    {n : String} {x : Symbol} :
    d.lookup m n = some x ↔ d.Lists m x ∧ d.nameOf x.value = n := by
  have hlookup : d.lookup m n = c.lookup m n := by rw [lookup, lookup, (hmodule m).2.2]
  have hlists : d.Lists m x ↔ c.Lists m x := by
    cases x <;> simp only [Lists, (hmodule m).1, (hmodule m).2.1]
  have hname : d.nameOf x.value = c.nameOf x.value := by
    cases x with
    | func f => exact hfunc f
    | global g => exact hglobal g
  rw [hlookup, hlists, hname]
  exact h.lookup_iff

theorem Shared.tracks (h : c.Shared m v) : c.Tracks v := by
  cases v with
  | const k => exact h
  | func | global => exact h.1
  | arg | inst | block => exact h.elim

theorem Shared.owns (h : c.Shared (c.func f).parent v) : c.Owns f v := by
  cases v with
  | const | func | global => exact h
  | arg | inst | block => exact h.elim

theorem Owns.tracks (h : c.Owns f v) : c.Tracks v := by
  cases v with
  | const k => exact h
  | arg a => exact h.1
  | inst i => exact inst_lt_of_parent h.2.choose_spec.1
  | block | func | global => exact h.1

/-! ## Changes that leave instructions alone -/

theorem Placed.of_insts (h : c.Placed) (hinst : ∀ i, d.inst i = c.inst i)
    (hinsts : ∀ b, (d.block b).insts = (c.block b).insts)
    (hlinked : ∀ b, (d.block b).linked = (c.block b).linked)
    (hparent : ∀ b, (c.block b).linked = true → (d.block b).parent = (c.block b).parent)
    (hblocks : ∀ f, (d.func f).blocks = (c.func f).blocks) : d.Placed where
  toStanding := h.toStanding.congr (fun i => by rw [hinst]) hinsts hlinked hparent hblocks
  operands_parent hi := by
    rw [hinst] at hi ⊢
    exact h.operands_parent hi

theorem Linked.of_insts {T : Value → Prop} (h : c.Linked T) (hinst : ∀ i, d.inst i = c.inst i)
    (husers : ∀ v, d.users v = c.users v) : d.Linked T :=
  h.congr (fun v _ => husers v) fun u => by rw [slot, slot, hinst]

/-! ## Changes in place -/

/-- One context is another with other operands, names of arguments, signatures where there were
none, and names and structs of modules, and perhaps a module more. -/
structure Reworked (c d : Context) : Prop where
  const : ∀ {k}, c.Tracks (.const k) → d.Tracks (.const k)
  args : d.args.size = c.args.size
  insts : d.insts.size = c.insts.size
  blocks : d.blocks.size = c.blocks.size
  functions : d.functions.size = c.functions.size
  globals : d.globals.size = c.globals.size
  modules : c.modules.size ≤ d.modules.size
  arg : ∀ a, (d.arg a).type = (c.arg a).type ∧ (d.arg a).parent = (c.arg a).parent ∧
    (d.arg a).index = (c.arg a).index
  inst : ∀ i, (d.inst i).op = (c.inst i).op ∧ (d.inst i).name = (c.inst i).name ∧
    (d.inst i).type = (c.inst i).type ∧ (d.inst i).parent = (c.inst i).parent
  block : ∀ b, (d.block b).name = (c.block b).name ∧ (d.block b).parent = (c.block b).parent ∧
    (d.block b).linked = (c.block b).linked ∧ (d.block b).insts = (c.block b).insts
  func : ∀ f, (d.func f).name = (c.func f).name ∧ (d.func f).parent = (c.func f).parent ∧
    (d.func f).ret = (c.func f).ret ∧ (d.func f).args = (c.func f).args ∧
      (d.func f).blocks = (c.func f).blocks ∧ (d.func f).linked = (c.func f).linked
  signature : ∀ {f sig}, (c.func f).signature = some sig → (d.func f).signature = some sig
  global : ∀ g, (d.global g).name = (c.global g).name ∧ (d.global g).parent = (c.global g).parent ∧
    (d.global g).allocated = (c.global g).allocated ∧ (d.global g).init = (c.global g).init
  module : ∀ m, (d.module m).functions = (c.module m).functions ∧
    (d.module m).globals = (c.module m).globals ∧ (d.module m).symbols = (c.module m).symbols

namespace Reworked

variable (h : c.Reworked d)
include h

theorem onward : c.Onward d where
  const := h.const
  arg ha := ⟨h.args ▸ ha, h.arg _⟩
  inst hi := ⟨h.insts ▸ hi, h.inst _⟩
  block hb := ⟨h.blocks ▸ hb, (h.block _).1, (h.block _).2.1⟩
  func hf := ⟨h.functions ▸ hf, (h.func _).1, (h.func _).2.1, (h.func _).2.2.1,
    fun hsig => ⟨h.signature hsig, (h.func _).2.2.2.1⟩⟩
  global hg := ⟨h.globals ▸ hg, h.global _⟩
  modules := h.modules
  block_linked hb := (h.block _).2.2.1.trans hb
  func_linked hf := (h.func _).2.2.2.2.2.trans hf

omit h in
theorem refl (c : Context) : c.Reworked c where
  const := id
  args := rfl
  insts := rfl
  blocks := rfl
  functions := rfl
  globals := rfl
  modules := le_rfl
  arg _ := ⟨rfl, rfl, rfl⟩
  inst _ := ⟨rfl, rfl, rfl, rfl⟩
  block _ := ⟨rfl, rfl, rfl, rfl⟩
  func _ := ⟨rfl, rfl, rfl, rfl, rfl, rfl⟩
  signature := id
  global _ := ⟨rfl, rfl, rfl, rfl⟩
  module _ := ⟨rfl, rfl, rfl⟩

omit h in
theorem trans {e : Context} (h : c.Reworked d) (h' : d.Reworked e) : c.Reworked e where
  const hk := h'.const (h.const hk)
  args := h'.args.trans h.args
  insts := h'.insts.trans h.insts
  blocks := h'.blocks.trans h.blocks
  functions := h'.functions.trans h.functions
  globals := h'.globals.trans h.globals
  modules := h.modules.trans h'.modules
  arg a := by simp only [h'.arg a, h.arg a, and_self]
  inst i := by simp only [h'.inst i, h.inst i, and_self]
  block b := by simp only [h'.block b, h.block b, and_self]
  func f := by simp only [h'.func f, h.func f, and_self]
  signature hs := h'.signature (h.signature hs)
  global g := by simp only [h'.global g, h.global g, and_self]
  module m := by simp only [h'.module m, h.module m, and_self]

theorem filed (hc : c.Filed) : d.Filed where
  toStanding := hc.toStanding.congr (fun i => (h.inst i).2.2.2) (fun b => (h.block b).2.2.2)
    (fun b => (h.block b).2.2.1) (fun b _ => (h.block b).2.1) fun f => (h.func f).2.2.2.2.1
  arg_mem hn := by
    simp only [h.arg, h.func] at hn ⊢
    exact hc.arg_mem hn
  func_mem hf := by
    simp only [h.func, h.module] at hf ⊢
    exact hc.func_mem hf
  global_mem hg := by
    simp only [h.globals, h.global, h.module] at hg ⊢
    exact hc.global_mem hg

theorem orderly (hc : c.Orderly) (hplaced : d.Placed) (hlinked : d.Linked fun _ => True)
    (hnamed : ∀ t ∈ d.namedStructs, t.isNamed = true)
    (hops : ∀ {i b v}, (c.inst i).parent = some b → some v ∈ (d.inst i).operands →
      c.Owns (c.block b).parent v) : d.Orderly where
  toPlaced := hplaced
  linked := hlinked
  truths b := h.const (hc.truths b)
  named := hnamed
  inst_linked hi := by
    simp only [h.inst, h.block] at hi ⊢
    exact hc.inst_linked hi
  owned hi hv := by
    simp only [h.inst, h.block] at hi ⊢
    exact h.onward.owns (hc.block_parent (block_lt_of_linked (hc.inst_linked hi))) (hops hi hv)
  initial hg := by
    simp only [h.global] at hg ⊢
    exact h.onward.shared (hc.initial hg)
  arg_mem := (h.filed hc.toFiled).arg_mem
  mem_arg hn := by
    simp only [h.func, h.args, h.arg] at hn ⊢
    exact hc.mem_arg hn
  func_mem := (h.filed hc.toFiled).func_mem
  mem_func hf := by
    simp only [h.module, h.func] at hf ⊢
    exact hc.mem_func hf
  functions_nodup m := (h.module m).1 ▸ hc.functions_nodup m
  global_mem := (h.filed hc.toFiled).global_mem
  mem_global hg := by
    simp only [h.module, h.globals, h.global] at hg ⊢
    exact hc.mem_global hg
  globals_nodup m := (h.module m).2.1 ▸ hc.globals_nodup m
  lookup_iff := hc.lookup_iff_of_names d (fun f => (h.func f).1) (fun g => (h.global g).1) h.module
  arg_parent ha := by
    simp only [h.args, h.arg, h.functions] at ha ⊢
    exact hc.arg_parent ha
  block_parent hb := by
    simp only [h.blocks, h.block, h.functions] at hb ⊢
    exact hc.block_parent hb
  func_parent hf := by
    simp only [h.functions, h.func] at hf ⊢
    exact (hc.func_parent hf).trans_le h.modules

theorem orderly_of_insts (hc : c.Orderly) (hinst : ∀ i, d.inst i = c.inst i)
    (husers : ∀ v, d.users v = c.users v)
    (hnamed : ∀ t ∈ d.namedStructs, t.isNamed = true) : d.Orderly := by
  refine h.orderly hc (hc.toPlaced.of_insts hinst (fun b => (h.block b).2.2.2)
    (fun b => (h.block b).2.2.1) (fun b _ => (h.block b).2.1) fun f => (h.func f).2.2.2.2.1)
    (hc.linked.of_insts hinst husers) hnamed fun hi hv => ?_
  rw [hinst] at hv
  exact hc.owned hi hv

end Reworked

/-! ## Changes of operands -/

section

variable (h : d.frame = c.frame)
include h

theorem sizes_of_frame : d.args.size = c.args.size ∧
    d.functions.size = c.functions.size ∧ d.globals.size = c.globals.size ∧
      d.modules = c.modules := by
  have hargs : ∀ e : Context, e.frame.args.size = e.args.size := fun e => Array.size_map
  have hfunctions : ∀ e : Context, e.frame.functions.size = e.functions.size :=
    fun e => Array.size_map
  have hglobals : ∀ e : Context, e.frame.globals.size = e.globals.size := fun e => Array.size_map
  have hmodules : ∀ e : Context, e.frame.modules = e.modules := fun e => rfl
  refine ⟨?_, ?_, ?_, ?_⟩
  · rw [← hargs, h, hargs]
  · rw [← hfunctions, h, hfunctions]
  · rw [← hglobals, h, hglobals]
  · rw [← hmodules, h, hmodules]

theorem reworked_of_frame (hconst : ∀ {k}, c.Tracks (.const k) → d.Tracks (.const k)) :
    c.Reworked d where
  const := hconst
  args := (sizes_of_frame h).1
  insts := insts_size_of_frame h
  blocks := blocks_size_of_frame h
  functions := (sizes_of_frame h).2.1
  globals := (sizes_of_frame h).2.2.1
  modules := by rw [(sizes_of_frame h).2.2.2]
  arg a := (Argument.of_code (arg_of_frame h a)).2
  inst := inst_of_frame h
  block := block_of_frame h
  func f := by
    obtain ⟨hblocks, hargs, hname, hret, -, hparent, hlinked⟩ :=
      Function.of_code (func_of_frame h f)
    exact ⟨hname, hparent, hret, hargs, hblocks, hlinked⟩
  signature hs := (Function.of_code (func_of_frame h _)).2.2.2.2.1.trans hs
  global g := Global.of_code (global_of_frame h g)
  module m := by
    rw [module, (sizes_of_frame h).2.2.2]
    exact ⟨rfl, rfl, rfl⟩

end

theorem Orderly.of_frame (hc : c.Orderly) (h : d.frame = c.frame)
    (hconst : ∀ {k}, c.Tracks (.const k) → d.Tracks (.const k))
    (hlinked : d.Linked fun _ => True)
    (hops : ∀ {i v}, v ∈ (d.inst i).operands → ∃ b, (c.inst i).parent = some b ∧
      ∀ w, v = some w → c.Owns (c.block b).parent w) : d.Orderly := by
  have hplaced : d.Placed := by
    refine hc.toPlaced.of_frame h fun i hi => ?_
    have hpos : 0 < (d.inst i).operands.size := Nat.pos_of_ne_zero hi
    obtain ⟨b, hb, -⟩ := hops (Array.getElem_mem hpos)
    exact Option.isSome_iff_exists.mpr ⟨b, hb⟩
  have hnamed : d.namedStructs = c.namedStructs := (congrArg namedStructs h :)
  refine (reworked_of_frame h hconst).orderly hc hplaced hlinked (hnamed ▸ hc.named)
    fun {i b v} hi hv => ?_
  obtain ⟨b', hb', how⟩ := hops hv
  cases hi.symm.trans hb'
  exact how v rfl

end Context

end SsaIr
