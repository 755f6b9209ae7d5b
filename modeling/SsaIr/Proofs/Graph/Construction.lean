import SsaIr.Proofs.Graph.Growth

/-!
# Constructors keep programs in order

Linking a block or a function, making a global or an instruction, and adding an argument keep a
context in order, and whatever was there stays. Read `Context.Orderly` and `Context.Onward` first.
-/

namespace SsaIr

namespace Context

/-! ## Getting to know types and constants -/

/-- A context that knows more types and constants, and is the same in all else. -/
structure Learned (c d : Context) : Prop where
  same : ∃ types constants,
    d = { c with types := c.types ++ types, constants := c.constants ++ constants }
  const : ∀ {k}, c.Tracks (.const k) → d.Tracks (.const k)
  users : ∀ k, d.users (.const k) = c.users (.const k)

namespace Learned

variable {c d e : Context}

theorem refl (c : Context) : c.Learned c :=
  ⟨⟨[], #[], by rw [List.append_nil, Array.append_empty]⟩, id, fun _ => rfl⟩

theorem trans (h : c.Learned d) (h' : d.Learned e) : c.Learned e := by
  refine ⟨?_, fun hk => h'.const (h.const hk), fun k => (h'.users k).trans (h.users k)⟩
  obtain ⟨ts, ks, rfl⟩ := h.same
  obtain ⟨ts', ks', rfl⟩ := h'.same
  exact ⟨ts ++ ts', ks ++ ks', by rw [List.append_assoc, Array.append_assoc]⟩

theorem toExtends (h : c.Learned d) : c.Extends d := by
  have hconst : ∀ {k}, c.Tracks (.const k) → d.Tracks (.const k) := h.const
  have husers := h.users
  obtain ⟨types, constants, rfl⟩ := h.same
  exact { Extends.refl c with
    const := hconst
    users
      | .const k => husers k
      | .arg _ | .inst _ | .block _ | .func _ | .global _ => rfl }

theorem typeOf? (h : c.Learned d) (v : Option Value) : d.typeOf? v = c.typeOf? v := by
  obtain ⟨types, constants, rfl⟩ := h.same
  cases v with
  | none => rfl
  | some v => cases v <;> rfl

end Learned

section

variable (c : Context)

theorem learned_learn (t : Ty) : c.Learned (c.learn t) := by
  unfold learn
  split
  · exact .refl c
  · exact ⟨⟨[t], #[], by rw [Array.append_empty]⟩, id, fun _ => rfl⟩

def learnConst (c : Context) (k : Const) : Context :=
  match c.constIndex? k with
  | some _ => c
  | none => { c with constants := c.constants.push { const := k } }

theorem tracks_learnConst (k : Const) : (c.learnConst k).Tracks (.const k) := by
  unfold learnConst
  cases hk : c.constIndex? k with
  | some i => exact Option.isSome_iff_exists.mpr ⟨i, hk⟩
  | none =>
    show (Array.findIdx? _ _).isSome = true
    simp

theorem learned_learnConst (k : Const) : c.Learned (c.learnConst k) := by
  unfold learnConst
  cases hk : c.constIndex? k with
  | some i => exact .refl c
  | none =>
    have hindex :
      ∀ k', ({ c with constants := c.constants.push { const := k } } : Context).constIndex? k' =
        (c.constIndex? k').or (if k = k' then some c.constants.size else none) := fun k' => by
      simp [constIndex?, Array.findIdx?_push]
    refine ⟨⟨[], #[{ const := k }], by rw [List.append_nil]; rfl⟩, fun {k'} hk' => ?_, fun k' => ?_⟩
    · have hk' : (c.constIndex? k').isSome = true := hk'
      show (Option.isSome _) = true
      rw [hindex, Option.isSome_or, hk', Bool.true_or]
    · cases hi : c.constIndex? k' with
      | some i =>
        have hlt : i < c.constants.size := (Array.findIdx?_eq_some_iff_getElem.mp hi).1
        simp only [users, hindex, hi, Option.some_or, Array.getD_push, if_neg hlt.ne]
      | none =>
        by_cases hkk : k = k'
        · subst hkk
          simp [users, hindex, hi]
        · simp [users, hindex, hi, hkk]

end

/-! ## Linking a block -/

/-- A context in which a block stands at the end of its function. -/
def linkBlock (c : Context) (f : FuncId) (b : BlockId) : Context :=
  (c.modifyBlock b fun x => { x with linked := true }).modifyFunc f
    fun x => { x with blocks := x.blocks.push b }

section LinkBlock

variable (c : Context) (f : FuncId) (b : BlockId)

theorem block_linkBlock (b' : BlockId) : (c.linkBlock f b).block b' =
      if b = b' ∧ b.index < c.blocks.size then { c.block b' with linked := true } else c.block b' :=
  c.block_modifyBlock b b' _

theorem func_linkBlock (g : FuncId) :
    (c.linkBlock f b).func g = if f = g ∧ f.index < c.functions.size then
      { c.func g with blocks := (c.func g).blocks.push b } else c.func g :=
  func_modifyFunc _ f g _

theorem block_fields_linkBlock (b' : BlockId) :
    ∃ linked, (c.linkBlock f b).block b' = { c.block b' with linked } := by
  rw [block_linkBlock]
  split <;> exact ⟨_, rfl⟩

theorem func_fields_linkBlock (g : FuncId) :
    ∃ blocks, (c.linkBlock f b).func g = { c.func g with blocks } := by
  rw [func_linkBlock]
  split <;> exact ⟨_, rfl⟩

theorem onward_linkBlock : c.Onward (c.linkBlock f b) := by
  choose linked hblock using c.block_fields_linkBlock f b
  choose blocks hfunc using c.func_fields_linkBlock f b
  exact { Onward.refl c with
    block := fun hb => by
      rw [hblock]
      exact ⟨Array.size_modify.symm ▸ hb, rfl, rfl⟩
    func := fun hg => by
      rw [hfunc]
      exact ⟨Array.size_modify.symm ▸ hg, rfl, rfl, rfl, fun hsig => ⟨hsig, rfl⟩⟩
    block_linked := fun hb => by
      rw [block_linkBlock]
      split
      · rfl
      · exact hb
    func_linked := fun hg => by
      rw [hfunc]
      exact hg }

theorem users_linkBlock (v : Value) : (c.linkBlock f b).users v = c.users v := by
  cases v with
  | block b' =>
    exact Array.apply_getD_modify Block.users _ (fun _ => by rfl) b.index b'.index default
  | func g =>
    exact Array.apply_getD_modify Function.users _ (fun _ => by rfl) f.index g.index default
  | _ => rfl

variable {c f b}

theorem mem_blocks_linkBlock (hf : f.index < c.functions.size) {g : FuncId} {b' : BlockId} :
    b' ∈ ((c.linkBlock f b).func g).blocks ↔ b' ∈ (c.func g).blocks ∨ f = g ∧ b' = b := by
  rw [func_linkBlock]
  by_cases hfg : f = g
  · rw [if_pos ⟨hfg, hf⟩]
    simp [hfg]
  · simp [hfg]

theorem linked_linkBlock (hb : b.index < c.blocks.size) {b' : BlockId} :
    ((c.linkBlock f b).block b').linked = true ↔ (c.block b').linked = true ∨ b' = b := by
  rw [block_linkBlock]
  by_cases hbb : b = b'
  · rw [if_pos ⟨hbb, hb⟩]
    simp [hbb]
  · rw [if_neg fun h => hbb h.1]
    simp [Ne.symm hbb]

theorem Filed.linkBlock (h : c.Filed) (hb : b.index < c.blocks.size)
    (hf : f.index < c.functions.size) (hparent : (c.block b).parent = f)
    (hnot : (c.block b).linked = false) : (c.linkBlock f b).Filed := by
  choose linked hblock using c.block_fields_linkBlock f b
  have hinsts : ∀ b', ((c.linkBlock f b).block b').insts = (c.block b').insts := fun b' => by
    rw [hblock]
  have hparents : ∀ b', ((c.linkBlock f b).block b').parent = (c.block b').parent := fun b' => by
    rw [hblock]
  choose blocks hfunc using c.func_fields_linkBlock f b
  refine ⟨⟨fun hi => hinsts _ ▸ h.inst_mem hi, fun hi => h.mem_parent (hinsts _ ▸ hi),
    fun b' => hinsts b' ▸ h.insts_nodup b', fun {b'} hl => ?_, fun {b' g} hm => ?_, fun g => ?_⟩,
    fun hn => ?_, fun hg => ?_, h.global_mem⟩
  · rw [hparents, mem_blocks_linkBlock hf]
    rcases (linked_linkBlock hb).mp hl with hl | rfl
    · exact .inl (h.block_mem hl)
    · exact .inr ⟨hparent.symm, rfl⟩
  · rw [hparents, linked_linkBlock hb]
    rcases (mem_blocks_linkBlock hf).mp hm with hm | ⟨rfl, rfl⟩
    · exact ⟨(h.mem_block hm).1, .inl (h.mem_block hm).2⟩
    · exact ⟨hparent, .inr rfl⟩
  · rw [func_linkBlock]
    split
    · refine Array.nodup_push (h.blocks_nodup g) fun hm => ?_
      cases hnot.symm.trans (h.mem_block hm).2
    · exact h.blocks_nodup g
  · rw [hfunc]
    exact h.arg_mem hn
  · rw [hfunc] at hg ⊢
    exact h.func_mem hg

theorem Orderly.linkBlock (h : c.Orderly) (hb : b.index < c.blocks.size)
    (hparent : (c.block b).parent = f) (hnot : (c.block b).linked = false) :
    (c.linkBlock f b).Orderly := by
  have hf : f.index < c.functions.size := hparent ▸ h.block_parent hb
  have hon := c.onward_linkBlock f b
  choose linked hblock using c.block_fields_linkBlock f b
  choose blocks hfunc using c.func_fields_linkBlock f b
  have hsize : (c.linkBlock f b).functions.size = c.functions.size := Array.size_modify
  have hbsize : (c.linkBlock f b).blocks.size = c.blocks.size := Array.size_modify
  exact { h.toFiled.linkBlock hb hf hparent hnot, h with
    linked := h.linked.of_insts (fun _ => rfl) (c.users_linkBlock f b)
    inst_linked := fun hi => (linked_linkBlock hb).mpr (.inl (h.inst_linked hi))
    owned := fun hi hv => by
      rw [hblock]
      exact h.owned_onward hon hi hv
    initial := fun hg => hon.shared (h.initial hg)
    mem_arg := fun hn => by
      rw [hfunc] at hn
      exact h.mem_arg hn
    mem_func := fun hg => by
      rw [hfunc]
      exact h.mem_func hg
    lookup_iff := h.lookup_iff_of_names (c.linkBlock f b) (fun g => by rw [hfunc]) (fun _ => rfl)
      fun _ => ⟨rfl, rfl, rfl⟩
    arg_parent := fun ha => hsize ▸ h.arg_parent ha
    block_parent := fun hb' => by
      rw [hblock, hsize]
      exact h.block_parent (hbsize ▸ hb')
    func_parent := fun hg => by
      rw [hfunc]
      exact h.func_parent (hsize ▸ hg) }

end LinkBlock

/-! ## Arguments and signatures -/

section Arguments

variable {c : Context} {f : FuncId}

theorem onward_withArg (hopen : (c.func f).signature = none) (name : String) (t : Ty) :
    c.Onward (c.withArg f name t) :=
  { Onward.refl c with
    arg := fun ha => by
      rw [arg_withArg, if_neg ha.ne, args_size_withArg]
      exact ⟨Nat.lt_succ_of_lt ha, rfl, rfl, rfl⟩
    func := fun {g} hg => by
      rw [functions_size_withArg, func_withArg]
      refine ⟨hg, ?_⟩
      split
      · next hfg =>
        refine ⟨rfl, rfl, rfl, fun hsig => ?_⟩
        rw [← hfg.1, hopen] at hsig
        cases hsig
      · exact ⟨rfl, rfl, rfl, fun hsig => ⟨hsig, rfl⟩⟩
    func_linked := fun hg => by
      rw [func_withArg]
      split <;> exact hg }

theorem Filed.withArg (h : c.Filed) (hf : f.index < c.functions.size) (name : String) (t : Ty) :
    (c.withArg f name t).Filed := by
  choose args hfunc using c.func_fields_withArg f name t
  exact
    { toStanding := h.toStanding.congr (fun _ => rfl) (fun _ => rfl) (fun _ => rfl) (fun _ _ => rfl)
        fun g => by rw [hfunc]
      arg_mem := fun hn => by
        rw [args_withArg hf]
        rw [arg_withArg] at hn ⊢
        split at hn
        · next ha =>
          rw [if_pos ha]
          exact .inr ⟨rfl, (Option.some.inj hn).symm, congrArg ArgId.mk ha⟩
        · next ha =>
          rw [if_neg ha]
          exact .inl (h.arg_mem hn)
      func_mem := fun hg => by
        rw [hfunc] at hg ⊢
        exact h.func_mem hg
      global_mem := h.global_mem }

theorem Orderly.withArg (h : c.Orderly) (hf : f.index < c.functions.size)
    (hopen : (c.func f).signature = none) (name : String) {t : Ty} (ht : t.isSized = true) :
    (c.withArg f name t).Orderly := by
  have hon := onward_withArg hopen name t
  choose args hfunc using c.func_fields_withArg f name t
  have hsize := c.functions_size_withArg f name t
  have hasize := c.args_size_withArg f name t
  exact { h.toFiled.withArg hf name t, h with
    linked := h.linked.of_insts (fun _ => rfl) (c.users_withArg f name t)
    owned := h.owned_onward hon
    initial := fun hg => hon.shared (h.initial hg)
    mem_arg := fun hn => by
      rw [hasize, arg_withArg]
      rcases (args_withArg hf name t).mp hn with hn | ⟨rfl, rfl, rfl⟩
      · obtain ⟨hlt, hrest⟩ := h.mem_arg hn
        rw [if_neg hlt.ne]
        exact ⟨Nat.lt_succ_of_lt hlt, hrest⟩
      · rw [if_pos rfl]
        exact ⟨Nat.lt_succ_self _, rfl, rfl, t, rfl, ht⟩
    mem_func := fun hg => by
      rw [hfunc]
      exact h.mem_func hg
    lookup_iff := h.lookup_iff_of_names (c.withArg f name t) (fun g => by rw [hfunc]) (fun _ => rfl)
      fun _ => ⟨rfl, rfl, rfl⟩
    arg_parent := fun ha => by
      rw [hsize, arg_withArg]
      split
      · exact hf
      · exact h.arg_parent (by omega)
    block_parent := fun hb => hsize ▸ h.block_parent hb
    func_parent := fun hg => by
      rw [hfunc]
      exact h.func_parent (hsize ▸ hg) }

theorem reworked_withSignature (hopen : (c.func f).signature = none) (sig : Ty) :
    c.Reworked (c.withSignature f sig) :=
  { Reworked.refl c with
    functions := functions_size_withSignature c f sig
    func := fun g => by
      rw [func_withSignature]
      split <;> exact ⟨rfl, rfl, rfl, rfl, rfl, rfl⟩
    signature := fun hsig => by
      rw [func_withSignature]
      split
      · next hfg =>
        rw [← hfg.1, hopen] at hsig
        cases hsig
      · exact hsig }

theorem Orderly.withSignature (h : c.Orderly) (hopen : (c.func f).signature = none) (sig : Ty) :
    (c.withSignature f sig).Orderly :=
  (reworked_withSignature hopen sig).orderly_of_insts h (fun _ => rfl) (c.users_withSignature f sig)
    h.named

def renameArg (c : Context) (a : ArgId) (name : String) : Context :=
  c.modifyArg a fun x => { x with name }

theorem arg_renameArg (c : Context) (a a' : ArgId) (name : String) : (c.renameArg a name).arg a' =
      if a = a' ∧ a.index < c.args.size then { c.arg a' with name } else c.arg a' :=
  c.arg_modifyArg a a' _

theorem reworked_renameArg (c : Context) (a : ArgId) (name : String) :
    c.Reworked (c.renameArg a name) :=
  { Reworked.refl c with
    args := Array.size_modify
    arg := fun a' => by
      rw [arg_renameArg]
      split <;> exact ⟨rfl, rfl, rfl⟩ }

theorem Orderly.renameArg (h : c.Orderly) (a : ArgId) (name : String) :
    (c.renameArg a name).Orderly := by
  refine (c.reworked_renameArg a name).orderly_of_insts h (fun _ => rfl) (fun v => ?_) h.named
  cases v with
  | arg a' =>
    exact Array.apply_getD_modify Argument.users _ (fun _ => by rfl) a.index a'.index default
  | _ => rfl

end Arguments

/-! ## Modules and their symbols -/

section Modules

variable {c : Context} {m : ModuleId} {g : Module → Module} {name : String}

theorem module_modifyModule (c : Context) (m n : ModuleId) (g : Module → Module) :
    (c.modifyModule m g).module n =
      if m = n ∧ m.index < c.modules.size then g (c.module n) else c.module n := by
  cases m with | mk m => cases n with | mk n =>
  simp only [modifyModule, module, Array.getD_modify, ModuleId.mk.injEq]

theorem reworked_modifyModule (c : Context) (m : ModuleId)
    (hg : ∀ x, (g x).functions = x.functions ∧ (g x).globals = x.globals ∧
      (g x).symbols = x.symbols) : c.Reworked (c.modifyModule m g) :=
  { Reworked.refl c with
    modules := Array.size_modify.symm.le
    module := fun n => by
      rw [module_modifyModule]
      split
      · exact hg _
      · exact ⟨rfl, rfl, rfl⟩ }

theorem Orderly.modifyModule (h : c.Orderly) (m : ModuleId)
    (hg : ∀ x, (g x).functions = x.functions ∧ (g x).globals = x.globals ∧
      (g x).symbols = x.symbols) : (c.modifyModule m g).Orderly :=
  (c.reworked_modifyModule m hg).orderly_of_insts h (fun _ => rfl)
    (fun v => by cases v <;> rfl) h.named

def pushModule (c : Context) (name : String) : Context :=
  { c with modules := c.modules.push { name }, live := c.live ++ [⟨c.modules.size⟩] }

theorem reworked_pushModule (c : Context) (name : String) : c.Reworked (c.pushModule name) :=
  { Reworked.refl c with
    modules := by simp [pushModule]
    module := fun n => ⟨Array.apply_getD_push Module.functions c.modules (by rfl) n.index,
      Array.apply_getD_push Module.globals c.modules (by rfl) n.index,
      Array.apply_getD_push Module.symbols c.modules (by rfl) n.index⟩ }

theorem Orderly.pushModule (h : c.Orderly) (name : String) : (c.pushModule name).Orderly :=
  (c.reworked_pushModule name).orderly_of_insts h (fun _ => rfl)
    (fun v => by cases v <;> rfl) h.named

def pushStruct (c : Context) (t : Ty) : Context :=
  { c with types := c.types ++ [t], namedStructs := c.namedStructs ++ [t] }

theorem reworked_pushStruct (c : Context) (t : Ty) : c.Reworked (c.pushStruct t) :=
  { Reworked.refl c with }

theorem Orderly.pushStruct (h : c.Orderly) {t : Ty} (ht : t.isNamed = true) :
    (c.pushStruct t).Orderly := by
  refine (c.reworked_pushStruct t).orderly_of_insts h (fun _ => rfl) (fun v => by cases v <;> rfl)
    fun u hu => ?_
  rcases List.mem_append.mp hu with hu | hu
  · exact h.named u hu
  · rwa [List.mem_singleton.mp hu]

/-- A context in which a module lists one of its functions, under its name. -/
def linkFunc (c : Context) (m : ModuleId) (f : FuncId) : Context :=
  ((c.modifyModule m fun x =>
    { x with symbols := ((c.func f).name, .func f) :: x.symbols }).modifyFunc f
    fun x => { x with linked := true }).modifyModule m fun x =>
      { x with functions := x.functions.push f }

def withGlobal (c : Context) (m : ModuleId) (name : String) (t : Ty) (init : Option Value) :
    Context :=
  let d := c.modifyModule m fun x =>
    { x with symbols := (name, .global ⟨c.globals.size⟩) :: x.symbols }
  ({ d with globals := d.globals.push { name, parent := m, allocated := t, init } } :
    Context).modifyModule m fun x => { x with globals := x.globals.push ⟨c.globals.size⟩ }

theorem module_modifyModule_twice {c d : Context} (m n : ModuleId)
    (hd : d.modules = (c.modifyModule m g).modules) (g' : Module → Module) :
    (d.modifyModule m g').module n =
      if m = n ∧ m.index < c.modules.size then g' (g (c.module n)) else c.module n := by
  have hinner := c.module_modifyModule m n g
  have hread : d.module n = (c.modifyModule m g).module n := by rw [module, module, hd]
  have hsize : d.modules.size = c.modules.size := by rw [hd, modifyModule, Array.size_modify]
  rw [module_modifyModule, hread, hinner, hsize]
  split <;> rfl

section

variable (c : Context) (m : ModuleId)

theorem module_linkFunc (f : FuncId) (n : ModuleId) :
    (c.linkFunc m f).module n = if m = n ∧ m.index < c.modules.size then
      { c.module n with
        symbols := ((c.func f).name, .func f) :: (c.module n).symbols
        functions := (c.module n).functions.push f }
    else c.module n :=
  module_modifyModule_twice
    (g := fun x => { x with symbols := ((c.func f).name, .func f) :: x.symbols })
    m n (by rfl) _

theorem func_linkFunc (f g : FuncId) : (c.linkFunc m f).func g =
    if f = g ∧ f.index < c.functions.size then { c.func g with linked := true } else c.func g :=
  func_modifyFunc _ f g _

theorem module_withGlobal (name : String) (t : Ty) (init : Option Value)
    (n : ModuleId) : (c.withGlobal m name t init).module n =
      if m = n ∧ m.index < c.modules.size then
        { c.module n with
          symbols := (name, .global ⟨c.globals.size⟩) :: (c.module n).symbols
          globals := (c.module n).globals.push ⟨c.globals.size⟩ }
      else c.module n :=
  module_modifyModule_twice
    (g := fun x => { x with symbols := (name, .global ⟨c.globals.size⟩) :: x.symbols }) m n
      (by rfl) _

theorem global_withGlobal (name : String) (t : Ty) (init : Option Value)
    (g : GlobalId) : (c.withGlobal m name t init).global g =
      if g.index = c.globals.size then { name, parent := m, allocated := t, init }
      else c.global g :=
  Array.getD_push _ _ _ _

end

theorem lookup_cons {c d : Context} {x : Symbol} (hm : m.index < c.modules.size)
    (h : ∀ n, (d.module n).symbols = if m = n ∧ m.index < c.modules.size
      then (name, x) :: (c.module n).symbols else (c.module n).symbols) (n : ModuleId)
      (s : String) :
    d.lookup n s = if m = n ∧ name = s then some x else c.lookup n s := by
  unfold lookup
  rw [h n]
  by_cases hmn : m = n
  · rw [if_pos ⟨hmn, hm⟩, List.lookup_cons]
    by_cases hs : name = s
    · subst hs
      simp [hmn]
    · have hbeq : (s == name) = false := beq_false_of_ne (Ne.symm hs)
      simp [hbeq, hs]
  · rw [if_neg fun h => hmn h.1, if_neg fun h => hmn h.1]

theorem lookup_iff_cons {c d : Context} {x : Symbol}
    (hc : ∀ {n s y}, c.lookup n s = some y ↔ c.Lists n y ∧ c.nameOf y.value = s)
    (hfree : c.lookup m name = none)
    (hlookup : ∀ n s, d.lookup n s = if m = n ∧ name = s then some x else c.lookup n s)
    (hlists : ∀ n y, d.Lists n y ↔ c.Lists n y ∨ m = n ∧ y = x)
    (hold : ∀ n y, c.Lists n y → d.nameOf y.value = c.nameOf y.value)
    (hname : d.nameOf x.value = name) {n : ModuleId} {s : String} {y : Symbol} :
    d.lookup n s = some y ↔ d.Lists n y ∧ d.nameOf y.value = s := by
  rw [hlookup, hlists]
  by_cases hnew : m = n ∧ name = s
  · rw [if_pos hnew]
    obtain ⟨rfl, rfl⟩ := hnew
    constructor
    · intro h
      cases h
      exact ⟨.inr ⟨rfl, rfl⟩, hname⟩
    · rintro ⟨hy | ⟨-, rfl⟩, hs⟩
      · -- The name was free, so nothing listed had it.
        rw [hold _ _ hy] at hs
        cases hfree.symm.trans (hc.mpr ⟨hy, hs⟩)
      · rfl
  · rw [if_neg hnew, hc]
    constructor
    · rintro ⟨hy, hs⟩
      exact ⟨.inl hy, (hold _ _ hy).trans hs⟩
    · rintro ⟨hy | ⟨rfl, rfl⟩, hs⟩
      · exact ⟨hy, (hold _ _ hy).symm.trans hs⟩
      · exact absurd ⟨rfl, hname.symm.trans hs⟩ hnew

section

variable (c : Context) (m : ModuleId)

theorem func_fields_linkFunc (f g : FuncId) :
    ∃ linked, (c.linkFunc m f).func g = { c.func g with linked } := by
  rw [func_linkFunc]
  split <;> exact ⟨_, rfl⟩

theorem modules_size_linkFunc (f : FuncId) :
    (c.linkFunc m f).modules.size = c.modules.size :=
  Array.size_modify.trans Array.size_modify

theorem onward_linkFunc (f : FuncId) : c.Onward (c.linkFunc m f) :=
  { Onward.refl c with
    func := fun {g} hg => by
      obtain ⟨_, hfunc⟩ := c.func_fields_linkFunc m f g
      rw [hfunc]
      exact ⟨Array.size_modify.symm ▸ hg, rfl, rfl, rfl, fun hsig => ⟨hsig, rfl⟩⟩
    modules := Nat.le_of_eq (c.modules_size_linkFunc m f).symm
    func_linked := fun hg => by
      rw [func_linkFunc]
      split
      · rfl
      · exact hg }

theorem users_linkFunc (f : FuncId) (v : Value) :
    (c.linkFunc m f).users v = c.users v := by
  cases v with
  | func g =>
    exact Array.apply_getD_modify Function.users _ (fun _ => by rfl) f.index g.index default
  | _ => rfl

end

section

variable {f : FuncId}

theorem linked_linkFunc (hf : f.index < c.functions.size) (g : FuncId) :
    ((c.linkFunc m f).func g).linked = true ↔ (c.func g).linked = true ∨ g = f := by
  rw [func_linkFunc]
  by_cases hfg : f = g
  · rw [if_pos ⟨hfg, hf⟩]
    simp [hfg]
  · rw [if_neg fun hand => hfg hand.1]
    simp [Ne.symm hfg]

theorem mem_functions_linkFunc (hm : m.index < c.modules.size) (n : ModuleId) (g : FuncId) :
    g ∈ ((c.linkFunc m f).module n).functions ↔ g ∈ (c.module n).functions ∨ m = n ∧ g = f := by
  rw [module_linkFunc]
  by_cases hmn : m = n
  · rw [if_pos ⟨hmn, hm⟩]
    simp [hmn]
  · simp [hmn]

theorem globals_linkFunc (n : ModuleId) :
    ((c.linkFunc m f).module n).globals = (c.module n).globals := by
  rw [module_linkFunc]
  split <;> rfl

theorem Filed.linkFunc (h : c.Filed) (hf : f.index < c.functions.size)
    (hm : m.index < c.modules.size) (hparent : (c.func f).parent = m) : (c.linkFunc m f).Filed := by
  choose linked hfunc using c.func_fields_linkFunc m f
  exact
    { toStanding := h.toStanding.congr (fun _ => rfl) (fun _ => rfl) (fun _ => rfl) (fun _ _ => rfl)
        fun g => by rw [hfunc]
      arg_mem := fun hn => by
        rw [hfunc]
        exact h.arg_mem hn
      func_mem := fun {g} hg => by
        rw [show ((c.linkFunc m f).func g).parent = (c.func g).parent by rw [hfunc],
          mem_functions_linkFunc hm]
        rcases (linked_linkFunc hf g).mp hg with hg | rfl
        · exact .inl (h.func_mem hg)
        · exact .inr ⟨hparent.symm, rfl⟩
      global_mem := fun hg => by
        rw [globals_linkFunc]
        exact h.global_mem hg }

end

theorem Orderly.linkFunc (h : c.Orderly) {f : FuncId} (hf : f.index < c.functions.size)
    (hparent : (c.func f).parent = m) (hnot : (c.func f).linked = false)
    (hfree : c.lookup m (c.func f).name = none) : (c.linkFunc m f).Orderly := by
  have hm : m.index < c.modules.size := hparent ▸ h.func_parent hf
  have hon := c.onward_linkFunc m f
  choose linked hfunc using c.func_fields_linkFunc m f
  have hsize : (c.linkFunc m f).functions.size = c.functions.size := Array.size_modify
  have hlinked := linked_linkFunc (c := c) (m := m) hf
  have hmem := mem_functions_linkFunc (c := c) (f := f) hm
  have hglobals := globals_linkFunc (c := c) (m := m) (f := f)
  have hname : ∀ g, ((c.linkFunc m f).func g).name = (c.func g).name := fun g => by rw [hfunc]
  have hparents : ∀ g, ((c.linkFunc m f).func g).parent = (c.func g).parent :=
    fun g => by rw [hfunc]
  exact { h.toFiled.linkFunc hf hm hparent, h with
    linked := h.linked.of_insts (fun _ => rfl) (c.users_linkFunc m f)
    owned := h.owned_onward hon
    initial := fun hg => hon.shared (h.initial hg)
    mem_arg := fun hn => by
      rw [hfunc] at hn
      exact h.mem_arg hn
    mem_func := fun {n g} hg => by
      rw [hparents, hlinked]
      rcases (hmem n g).mp hg with hg | ⟨rfl, rfl⟩
      · exact ⟨(h.mem_func hg).1, .inl (h.mem_func hg).2⟩
      · exact ⟨hparent, .inr rfl⟩
    functions_nodup := fun n => by
      rw [module_linkFunc]
      split
      · refine Array.nodup_push (h.functions_nodup n) fun hf => ?_
        cases hnot.symm.trans (h.mem_func hf).2
      · exact h.functions_nodup n
    mem_global := fun hg => h.mem_global (hglobals _ ▸ hg)
    globals_nodup := fun n => hglobals n ▸ h.globals_nodup n
    lookup_iff := by
      intro n s y
      refine lookup_iff_cons (x := .func f) h.lookup_iff hfree (lookup_cons hm fun n => ?_)
        (fun n y => ?_) (fun n y _ => ?_) (hname f)
      · rw [module_linkFunc]
        split <;> rfl
      · cases y with
        | func g => simp only [Lists, hmem, Symbol.func.injEq]
        | global g => simp [Lists, hglobals]
      · cases y with
        | func g => exact hname g
        | global g => rfl
    arg_parent := fun ha => hsize ▸ h.arg_parent ha
    block_parent := fun hb => hsize ▸ h.block_parent hb
    func_parent := fun hg => by
      rw [hparents, modules_size_linkFunc]
      exact h.func_parent (hsize ▸ hg) }

section

variable (c : Context) (m : ModuleId) (name : String) (t : Ty) (init : Option Value)

theorem globals_size_withGlobal : (c.withGlobal m name t init).globals.size = c.globals.size + 1 :=
  Array.size_push _

theorem modules_size_withGlobal : (c.withGlobal m name t init).modules.size = c.modules.size :=
  Array.size_modify.trans Array.size_modify

theorem onward_withGlobal :
    c.Onward (c.withGlobal m name t init) :=
  { Onward.refl c with
    global := fun hg => by
      rw [globals_size_withGlobal, global_withGlobal, if_neg hg.ne]
      exact ⟨Nat.lt_succ_of_lt hg, rfl, rfl, rfl, rfl⟩
    modules := Nat.le_of_eq (c.modules_size_withGlobal m name t init).symm }

theorem users_withGlobal (v : Value) : (c.withGlobal m name t init).users v = c.users v := by
  cases v with
  | global g => exact Array.apply_getD_push Global.users c.globals (by rfl) g.index
  | _ => rfl

end

section

variable {t : Ty} {init : Option Value}

theorem functions_withGlobal (n : ModuleId) :
    ((c.withGlobal m name t init).module n).functions = (c.module n).functions := by
  rw [module_withGlobal]
  split <;> rfl

theorem mem_globals_withGlobal (hm : m.index < c.modules.size) (n : ModuleId) (g : GlobalId) :
    g ∈ ((c.withGlobal m name t init).module n).globals ↔
      g ∈ (c.module n).globals ∨ m = n ∧ g = ⟨c.globals.size⟩ := by
  rw [module_withGlobal]
  by_cases hmn : m = n
  · rw [if_pos ⟨hmn, hm⟩]
    simp [hmn]
  · simp [hmn]

theorem Filed.withGlobal (h : c.Filed) (hm : m.index < c.modules.size) :
    (c.withGlobal m name t init).Filed where
  toStanding := h.toStanding.congr (fun _ => rfl) (fun _ => rfl) (fun _ => rfl) (fun _ _ => rfl)
    fun _ => rfl
  arg_mem := h.arg_mem
  func_mem hg := by
    rw [functions_withGlobal]
    exact h.func_mem hg
  global_mem hg := by
    rw [globals_size_withGlobal] at hg
    rw [mem_globals_withGlobal hm, global_withGlobal]
    split
    · next heq => exact .inr ⟨rfl, congrArg GlobalId.mk heq⟩
    · exact .inl (h.global_mem (by omega))

end

theorem Orderly.withGlobal (h : c.Orderly) (hm : m.index < c.modules.size)
    (hfree : c.lookup m name = none) (t : Ty) {init : Option Value}
    (hinit : ∀ v, init = some v → c.Shared m v) : (c.withGlobal m name t init).Orderly := by
  have hon := c.onward_withGlobal m name t init
  have hfunctions : ∀ n, ((c.withGlobal m name t init).module n).functions =
      (c.module n).functions := functions_withGlobal
  have hmem : ∀ n g, g ∈ ((c.withGlobal m name t init).module n).globals ↔
      g ∈ (c.module n).globals ∨ m = n ∧ g = ⟨c.globals.size⟩ := mem_globals_withGlobal hm
  exact { h.toFiled.withGlobal hm, h with
    linked := h.linked.of_insts (fun _ => rfl) (c.users_withGlobal m name t init)
    owned := h.owned_onward hon
    initial := fun {g v} hg => by
      rw [global_withGlobal] at hg ⊢
      split at hg
      · next heq =>
        rw [if_pos heq]
        exact hon.shared (hinit v hg)
      · next hne =>
        rw [if_neg hne]
        exact hon.shared (h.initial hg)
    mem_func := fun hg => h.mem_func (hfunctions _ ▸ hg)
    functions_nodup := fun n => hfunctions n ▸ h.functions_nodup n
    mem_global := fun {n g} hg => by
      rw [globals_size_withGlobal, global_withGlobal]
      rcases (hmem n g).mp hg with hg | ⟨rfl, rfl⟩
      · obtain ⟨hlt, hparent⟩ := h.mem_global hg
        rw [if_neg hlt.ne]
        exact ⟨Nat.lt_succ_of_lt hlt, hparent⟩
      · rw [if_pos rfl]
        exact ⟨Nat.lt_succ_self _, rfl⟩
    globals_nodup := fun n => by
      rw [module_withGlobal]
      split
      · exact Array.nodup_push (h.globals_nodup n) fun hg => lt_irrefl _ (h.mem_global hg).1
      · exact h.globals_nodup n
    lookup_iff := by
      intro n s y
      refine lookup_iff_cons (x := .global ⟨c.globals.size⟩) h.lookup_iff hfree
        (lookup_cons hm fun n => ?_) (fun n y => ?_) (fun n y hy => ?_) ?_
      · rw [module_withGlobal]
        split <;> rfl
      · cases y with
        | func g => simp [Lists, hfunctions]
        | global g => simp only [Lists, hmem, Symbol.global.injEq]
      · cases y with
        | func g => rfl
        | global g =>
          show ((c.withGlobal m name t init).global g).name = (c.global g).name
          rw [global_withGlobal, if_neg (Nat.ne_of_lt (h.mem_global hy).1)]
      · show ((c.withGlobal m name t init).global ⟨c.globals.size⟩).name = name
        rw [global_withGlobal, if_pos rfl]
    func_parent := fun hg => by
      rw [modules_size_withGlobal]
      exact h.func_parent hg }

end Modules

/-! ## Instructions -/

section Instructions

variable {c : Context} {b : BlockId} {operands : List (Option Value)}

theorem Linked.emitted {T : Value → Prop} (h : c.Linked T) (b : BlockId) (op : Operation)
    (name : String) (type : Ty) (hops : ∀ v, some v ∈ operands → T v → c.Tracks v) :
    (c.emitted b op name type operands).Linked T := by
  let x : Instruction := { op, name, type, parent := some b }
  have hlinked : (c.withInst x).Linked T :=
    h.congr (fun v _ => c.users_withInst rfl v) (c.slot_withInst rfl)
  obtain ⟨-, hlinked', -, -⟩ :=
    addOperands_spec hlinked (i := ⟨c.insts.size⟩) (c.lt_withInst x) operands
    fun v hv hT => tracks_withInst (hops v hv hT)
  -- Entering the instruction into the list of its block changes no users.
  refine hlinked'.congr (fun v _ => ?_) fun u => rfl
  cases v with
  | block b' =>
    exact Array.apply_getD_modify Block.users _ (fun _ => by rfl) b.index b'.index default
  | _ => rfl

section

variable (hb : b.index < c.blocks.size) (op : Operation) (name : String) (type : Ty)
include hb

theorem block_fields_emitted_nil (b' : BlockId) :
    ∃ insts, (c.emitted b op name type []).block b' = { c.block b' with insts } := by
  rw [block_emitted_nil hb]
  split
  · next hbb => exact hbb ▸ ⟨_, rfl⟩
  · exact ⟨_, rfl⟩

theorem onward_emitted_nil :
    c.Onward (c.emitted b op name type []) := by
  choose insts hblock using block_fields_emitted_nil hb op name type
  exact { Onward.refl c with
    inst := fun {i} hi => by
      rw [inst_emitted_nil, if_neg hi.ne]
      refine ⟨?_, rfl, rfl, rfl, rfl⟩
      show i.index < (c.insts.push _).size
      rw [Array.size_push]
      exact Nat.lt_succ_of_lt hi
    block := fun hb' => by
      rw [hblock]
      exact ⟨Array.size_modify.symm ▸ hb', rfl, rfl⟩
    block_linked := fun hb' => by
      rw [hblock]
      exact hb' }

end

section

variable (h : c.Orderly)
include h

omit h in
theorem Filed.emitted_nil (h : c.Filed) (hb : b.index < c.blocks.size) (op : Operation)
    (name : String) (type : Ty) : (c.emitted b op name type []).Filed :=
  { h with toStanding := h.toStanding.emitted_nil hb op name type }

theorem Orderly.emitted_nil (hb : (c.block b).linked = true) (op : Operation)
    (name : String) (type : Ty) : (c.emitted b op name type []).Orderly := by
  have hlt := block_lt_of_linked hb
  have hon := onward_emitted_nil hlt op name type
  choose insts hblock using block_fields_emitted_nil hlt op name type
  have hbsize : (c.emitted b op name type []).blocks.size = c.blocks.size := Array.size_modify
  exact { h with
    toPlaced := h.toPlaced.emitted_nil hlt op name type
    linked := h.linked.emitted b op name type fun v hv => by cases hv
    inst_linked := fun hi => by
      rw [hblock]
      rw [inst_emitted_nil] at hi
      split at hi
      · cases hi
        exact hb
      · exact h.inst_linked hi
    owned := fun hi hv => by
      rw [hblock]
      rw [inst_emitted_nil] at hi hv
      split at hv
      · cases Array.not_mem_empty _ hv
      · next hne =>
        rw [if_neg hne] at hi
        exact h.owned_onward hon hi hv
    initial := fun hg => hon.shared (h.initial hg)
    lookup_iff := h.lookup_iff_of_names (c.emitted b op name type []) (fun _ => rfl) (fun _ => rfl)
      fun _ => ⟨rfl, rfl, rfl⟩
    block_parent := fun hb' => by
      rw [hblock]
      exact h.block_parent (hbsize ▸ hb') }

section

variable (op : Operation) (name : String) (type : Ty)
  (hops : ∀ v, some v ∈ operands → c.Owns (c.block b).parent v)
include hops

theorem Orderly.emitted_edited :
    (c.emitted b op name type operands).frame = (c.emitted b op name type []).frame ∧
      (∀ v, c.Tracks v → (c.emitted b op name type operands).Tracks v) ∧
        ∀ j, ((c.emitted b op name type operands).inst j).operands =
          if j.index = c.insts.size then operands.toArray else (c.inst j).operands := by
  obtain ⟨hspec, -⟩ := emitted_spec h.sound.linked b op name type operands
    fun v hv _ => (hops v hv).tracks
  obtain ⟨hnil, -⟩ := emitted_spec h.sound.linked b op name type [] fun v hv => by cases hv
  exact ⟨hspec.frame_eq.trans hnil.frame_eq.symm, hspec.tracks, hspec.operands_eq⟩

theorem Orderly.reworked_emitted :
    (c.emitted b op name type []).Reworked (c.emitted b op name type operands) := by
  obtain ⟨hframe, htracks, -⟩ := h.emitted_edited op name type hops
  exact reworked_of_frame hframe fun {k} hk => htracks (.const k) hk

end

section

variable (hb : (c.block b).linked = true) (op : Operation) (name : String) (type : Ty)
  (hops : ∀ v, some v ∈ operands → c.Owns (c.block b).parent v)
include hb hops

theorem Orderly.onward_emitted :
    c.Onward (c.emitted b op name type operands) :=
  (onward_emitted_nil (block_lt_of_linked hb) op name type).trans
    (h.reworked_emitted op name type hops).onward

theorem Orderly.emitted :
    (c.emitted b op name type operands).Orderly := by
  have hlt := block_lt_of_linked hb
  have hnil := h.emitted_nil hb op name type
  have hon := onward_emitted_nil hlt op name type
  choose insts hblock using block_fields_emitted_nil hlt op name type
  obtain ⟨hframe, htracks, hoperands⟩ := h.emitted_edited op name type hops
  refine hnil.of_frame hframe (fun {k} hk => htracks (.const k) hk)
    (h.linked.emitted b op name type fun v hv _ => (hops v hv).tracks) fun {i v} hv => ?_
  have hparent := h.block_parent hlt
  rw [hoperands] at hv
  rw [inst_emitted_nil]
  split at hv
  · next hi =>
      rw [if_pos hi]
      refine ⟨b, rfl, fun w hw => ?_⟩
      rw [hblock]
      exact hon.owns hparent (hops w (hw ▸ List.mem_toArray.mp hv))
  · next hi =>
      rw [if_neg hi]
      cases v with
      | none =>
        obtain ⟨b', hb'⟩ := h.toPlaced.exists_parent hv
        exact ⟨b', hb', fun w hw => by cases hw⟩
      | some v =>
        obtain ⟨b', hb', hblt, hflt, howns⟩ := h.exists_owns hv
        refine ⟨b', hb', fun w hw => ?_⟩
        cases hw
        rw [hblock]
        exact hon.owns hflt howns

end

theorem Orderly.addOperands {i : InstId} (hi : (c.inst i).parent = some b)
    {vs : List (Option Value)} (hops : ∀ v, some v ∈ vs → c.Owns (c.block b).parent v) :
    (c.addOperands i vs).Orderly ∧ c.Reworked (c.addOperands i vs) ∧
      ∀ j, ((c.addOperands i vs).inst j).operands =
        if i = j then (c.inst i).operands ++ vs.toArray else (c.inst j).operands := by
  obtain ⟨hframe, hlinked, htracks, hoperands⟩ :=
    addOperands_spec h.linked (inst_lt_of_parent hi) vs
    fun v hv _ => (hops v hv).tracks
  have hconst : ∀ {k}, c.Tracks (.const k) → (c.addOperands i vs).Tracks (.const k) :=
    fun {k} hk => (htracks (.const k)).mpr hk
  refine ⟨h.of_frame hframe hconst hlinked fun {j v} hv => ?_,
    reworked_of_frame hframe hconst, hoperands⟩
  rw [hoperands] at hv
  have hold : v ∈ (c.inst j).operands → ∃ b', (c.inst j).parent = some b' ∧
      ∀ w, v = some w → c.Owns (c.block b').parent w := by
    intro hv
    obtain ⟨b', hb'⟩ := h.toPlaced.exists_parent hv
    exact ⟨b', hb', fun w hw => h.owned hb' (hw ▸ hv)⟩
  split at hv
  · next hij =>
      subst hij
      rcases Array.mem_append.mp hv with hv | hv
      · exact hold hv
      · exact ⟨b, hi, fun w hw => hops w (hw ▸ List.mem_toArray.mp hv)⟩
  · exact hold hv

end

theorem Orderly.moveUsers (h : c.Orderly) {old new : Value} (hnew : c.Tracks new)
    (hreach : ∀ {i b}, (c.inst i).parent = some b → some old ∈ (c.inst i).operands →
      c.Owns (c.block b).parent new) :
    (c.moveUses (c.users old) new).Orderly ∧ c.Reworked (c.moveUses (c.users old) new) ∧
      ∀ i, ((c.moveUses (c.users old) new).inst i).operands =
        (c.inst i).operands.map (substOperand old new) := by
  obtain ⟨hwire, hlinked, hoperands⟩ :=
    @moveUsers_spec _ c h.linked old new trivial fun _ => hnew
  have hconst : ∀ {k}, c.Tracks (.const k) → (c.moveUses (c.users old) new).Tracks (.const k) :=
    fun {k} hk => (hwire.tracks (.const k)).mpr hk
  refine ⟨h.of_frame hwire.frame hconst hlinked fun {j v} hv => ?_,
    reworked_of_frame hwire.frame hconst, hoperands⟩
  rw [hoperands, Array.mem_map] at hv
  obtain ⟨w, hw, rfl⟩ := hv
  obtain ⟨b, hb⟩ := h.toPlaced.exists_parent hw
  refine ⟨b, hb, fun x hx => ?_⟩
  unfold substOperand at hx
  split at hx
  · next hold =>
      cases hx
      exact hreach hb (hold ▸ hw)
  · exact h.owned hb (hx ▸ hw)

end Instructions

end Context

end SsaIr
