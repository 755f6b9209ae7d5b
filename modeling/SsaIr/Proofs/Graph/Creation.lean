import SsaIr.Proofs.Graph.Construction

/-!
# What constructors and builders leave alone

Constructors of entities change neither the uses nor which modules are listed, whether they are
refused or not. `Build.Keeps` says so of a computation; the relation that is kept is a parameter,
and its instances follow the constructors step by step. A builder leaves uses alone until it makes
an instruction of the operands that it was given (`Builder.Makes`). The calls of a builder are
listed in `Creation`.
-/

namespace SsaIr

/-! ## What leaves uses alone -/

/-- Entities stay in their places with their uses; new ones have none. -/
structure UsesKept {α : Type} [Inhabited α] (uses : α → List Use) (xs ys : Array α) : Prop where
  size_le : xs.size ≤ ys.size
  uses_eq : ∀ n, uses (ys.getD n default) = uses (xs.getD n default)

namespace UsesKept

variable {α : Type} [Inhabited α] {uses : α → List Use}

theorem refl (xs : Array α) : UsesKept uses xs xs := ⟨Nat.le_refl _, fun _ => rfl⟩

theorem push (xs : Array α) {x : α} (hx : uses x = uses default) :
    UsesKept uses xs (xs.push x) := by
  exact ⟨by rw [Array.size_push]; exact Nat.le_succ _, Array.apply_getD_push uses xs hx⟩

theorem modify (xs : Array α) (i : Nat) {f : α → α} (hf : ∀ x, uses (f x) = uses x) :
    UsesKept uses xs (xs.modify i f) := by
  exact ⟨Array.size_modify.symm.le, fun n => Array.apply_getD_modify uses xs hf i n default⟩

end UsesKept

namespace Context

/-- The modules that the context lists, and how many it ever had. -/
def roster (c : Context) : List ModuleId × Nat := (c.live, c.modules.size)

def SameRoster (c d : Context) : Prop := d.roster = c.roster

/-- The uses and the instructions stay, and so does what is tracked. -/
structure SameUses (c d : Context) : Prop where
  users : ∀ v, d.users v = c.users v
  slot : ∀ u, d.slot u = c.slot u
  tracks : ∀ {v}, c.Tracks v → d.Tracks v
  insts : d.insts.size = c.insts.size

structure Calm (c d : Context) : Prop extends c.SameUses d where
  roster : c.SameRoster d

section

variable {c d e : Context}

theorem SameUses.trans (h : c.SameUses d) (h' : d.SameUses e) : c.SameUses e :=
  ⟨fun v => (h'.users v).trans (h.users v), fun u => (h'.slot u).trans (h.slot u),
    fun hv => h'.tracks (h.tracks hv), h'.insts.trans h.insts⟩

theorem Learned.calm (h : c.Learned d) : c.Calm d := by
  have hext := h.toExtends
  refine ⟨⟨hext.users, fun u => ?_, fun {v} hv => ?_, ?_⟩, ?_⟩
  · rw [slot, slot, hext.inst]
  · obtain ⟨types, constants, hd⟩ := h.same
    cases v with
    | const k => exact h.const hv
    | _ => rw [hd]; exact hv
  · rw [hext.insts]
  · obtain ⟨types, constants, rfl⟩ := h.same
    rfl

theorem sameUses_of_kept (hinsts : d.insts = c.insts) (hconstants : d.constants = c.constants)
    (hargs : UsesKept Argument.users c.args d.args)
    (hblocks : UsesKept Block.users c.blocks d.blocks)
    (hfuncs : UsesKept Function.users c.functions d.functions)
    (hglobals : UsesKept Global.users c.globals d.globals) : c.SameUses d := by
  refine ⟨fun v => ?_, fun u => ?_, fun {v} hv => ?_, by rw [hinsts]⟩
  · cases v with
    | const k => simp only [users, constIndex?, hconstants]
    | arg a => exact hargs.uses_eq a.index
    | inst i => simp only [users, inst, hinsts]
    | block b => exact hblocks.uses_eq b.index
    | func f => exact hfuncs.uses_eq f.index
    | global g => exact hglobals.uses_eq g.index
  · simp only [slot, inst, hinsts]
  · cases v with
    | const k => simpa only [Tracks, constIndex?, hconstants] using hv
    | arg a => exact hv.trans_le hargs.size_le
    | inst i => simpa only [Tracks, hinsts] using hv
    | block b => exact hv.trans_le hblocks.size_le
    | func f => exact hv.trans_le hfuncs.size_le
    | global g => exact hv.trans_le hglobals.size_le

end

/-- A relation that holds whenever types and constants get known, also step by step. -/
class Learns (R : Context → Context → Prop) : Prop extends IsPreorder Context R where
  learned : ∀ {c d}, c.Learned d → R c d

/-- A relation that holds whenever uses and the modules listed stay, also step by step. -/
class Frame (R : Context → Context → Prop) : Prop extends Learns R where
  calm : ∀ {c d}, c.Calm d → R c d

instance : Learns Learned where
  refl := .refl
  trans _ _ _ := .trans
  learned := id

instance : Frame SameUses where
  refl c := (Learned.refl c).calm.toSameUses
  trans _ _ _ := .trans
  learned h := h.calm.toSameUses
  calm := Calm.toSameUses

instance : Frame SameRoster where
  refl _ := rfl
  trans _ _ _ h h' := h'.trans h
  learned h := h.calm.roster
  calm := Calm.roster

/-- The change keeps the relation. -/
class Keeps (R : Context → Context → Prop) (f : Context → Context) : Prop where
  run : ∀ c, R c (f c)

instance {α β : Type} {h : α → β} : Fact (∀ x, h x = h x) := ⟨fun _ => rfl⟩

instance : Fact (([] : List Use) = []) := ⟨rfl⟩

section Changes

variable {R : Context → Context → Prop}

instance {t : Ty} [hR : Learns R] : Keeps R (·.learn t) := ⟨fun c => hR.learned (c.learned_learn t)⟩

variable [hR : Frame R]

instance {m : ModuleId} {g : Module → Module} : Keeps R (·.modifyModule m g) :=
  ⟨fun _ => hR.calm ⟨sameUses_of_kept rfl rfl (.refl _) (.refl _) (.refl _) (.refl _),
    by simp [SameRoster, roster, modifyModule]⟩⟩

instance {a : ArgId} {g : Argument → Argument} [h : Fact (∀ x, (g x).users = x.users)] :
    Keeps R (·.modifyArg a g) :=
  ⟨fun _ => hR.calm
    ⟨sameUses_of_kept rfl rfl (.modify _ _ h.out) (.refl _) (.refl _) (.refl _), rfl⟩⟩

instance {b : BlockId} {g : Block → Block} [h : Fact (∀ x, (g x).users = x.users)] :
    Keeps R (·.modifyBlock b g) :=
  ⟨fun _ => hR.calm
    ⟨sameUses_of_kept rfl rfl (.refl _) (.modify _ _ h.out) (.refl _) (.refl _), rfl⟩⟩

instance {f : FuncId} {g : Function → Function} [h : Fact (∀ x, (g x).users = x.users)] :
    Keeps R (·.modifyFunc f g) :=
  ⟨fun _ => hR.calm
    ⟨sameUses_of_kept rfl rfl (.refl _) (.refl _) (.modify _ _ h.out) (.refl _), rfl⟩⟩

instance {v : GlobalId} {g : Global → Global} [h : Fact (∀ x, (g x).users = x.users)] :
    Keeps R (·.modifyGlobal v g) :=
  ⟨fun _ => hR.calm
    ⟨sameUses_of_kept rfl rfl (.refl _) (.refl _) (.refl _) (.modify _ _ h.out), rfl⟩⟩

instance {x : Argument} [h : Fact (x.users = [])] :
    Keeps R fun c => { c with args := c.args.push x } :=
  ⟨fun _ => hR.calm ⟨sameUses_of_kept rfl rfl (.push _ h.out) (.refl _) (.refl _) (.refl _), rfl⟩⟩

instance {x : Block} [h : Fact (x.users = [])] :
    Keeps R fun c => { c with blocks := c.blocks.push x } :=
  ⟨fun _ => hR.calm ⟨sameUses_of_kept rfl rfl (.refl _) (.push _ h.out) (.refl _) (.refl _), rfl⟩⟩

instance {x : Function} [h : Fact (x.users = [])] :
    Keeps R fun c => { c with functions := c.functions.push x } :=
  ⟨fun _ => hR.calm ⟨sameUses_of_kept rfl rfl (.refl _) (.refl _) (.push _ h.out) (.refl _), rfl⟩⟩

instance {x : Global} [h : Fact (x.users = [])] :
    Keeps R fun c => { c with globals := c.globals.push x } :=
  ⟨fun _ => hR.calm ⟨sameUses_of_kept rfl rfl (.refl _) (.refl _) (.refl _) (.push _ h.out), rfl⟩⟩

instance {ts : List Ty} : Keeps R fun c =>
    { c with types := c.types ++ ts, namedStructs := c.namedStructs ++ ts } :=
  ⟨fun _ => hR.calm ⟨sameUses_of_kept rfl rfl (.refl _) (.refl _) (.refl _) (.refl _), rfl⟩⟩

end Changes

end Context

set_option synthInstance.maxSize 1024

namespace Build

variable {σ α β : Type}

/-- The computation keeps the relation, whether it is refused or not. -/
class Keeps (R : σ → σ → Prop) (x : EStateM ContractError σ α) : Prop where
  run : ∀ s, match x s with
    | .ok _ t | .error _ t => R s t

section Sequences

variable {R : σ → σ → Prop} [hR : IsPreorder σ R]

instance {a : α} : Keeps R (pure a) := ⟨hR.refl⟩

instance {e : ContractError} : Keeps R (throw e : EStateM ContractError σ α) := ⟨hR.refl⟩

instance : Keeps R (get : EStateM ContractError σ σ) := ⟨hR.refl⟩

theorem Keeps.bind {x : EStateM ContractError σ α} {f : α → EStateM ContractError σ β}
    (hx : Keeps R x) (hf : ∀ a, Keeps R (f a)) : Keeps R (x >>= f) where
  run s := by
    have hfirst := hx.run s
    cases hrun : x s with rw [hrun] at hfirst
    | ok a t =>
      rw [EStateM.bind_of_ok hrun]
      have hsecond := (hf a).run t
      cases hrest : f a t <;> rw [hrest] at hsecond <;> exact hR.trans _ _ _ hfirst hsecond
    | error e t =>
      rwa [EStateM.bind_of_error hrun]

instance {x : EStateM ContractError σ α} {f : α → EStateM ContractError σ β} [Keeps R x]
    [∀ a, Keeps R (f a)] : Keeps R (x >>= f) :=
  .bind inferInstance inferInstance

instance {x : EStateM ContractError σ α} [Keeps R x] : Keeps R (discard x) :=
  .bind inferInstance fun _ => inferInstanceAs (Keeps R (pure ()))

instance {p : Prop} [Decidable p] {x y : EStateM ContractError σ α} [Keeps R x] [Keeps R y] :
    Keeps R (if p then x else y) := by
  split <;> assumption

instance {p : Bool} {e : ContractError} : Keeps R (require p e) := by
  unfold require; infer_instance

end Sequences

variable {R : Context → Context → Prop}

instance {f : Context → Context} [hf : Context.Keeps R f] : Keeps R (modify f : Build Unit) :=
  ⟨hf.run⟩

section Learns

variable [hR : Context.Learns R]

/-! ## Types, constants and entities -/

variable {name : String} {t : Option Ty} {ts : List (Option Ty)} {v : Option Value}
  {variadic : Bool}

instance {t : Ty} : Keeps R (knowType t) := by unfold knowType; infer_instance

instance : Keeps R (pointerTo t) := by unfold pointerTo; split <;> infer_instance

instance {n : Int} : Keeps R (arrayOf t n) := by unfold arrayOf; split <;> infer_instance

instance {refusal : Nat → Option Ty → ContractError} {n : Nat} :
    Keeps R (allSized refusal n ts) := by
  fun_induction allSized <;> infer_instance

instance : Keeps R (anonStruct ts) := by unfold anonStruct; infer_instance

instance : Keeps R (funcType t ts variadic) := by unfold funcType; split <;> infer_instance

instance {k : Const} : Keeps R (knowConst k) := by
  have : Context.Keeps R fun c => c.learnConst k := ⟨fun c => hR.learned (c.learned_learnConst k)⟩
  exact inferInstanceAs (Keeps R (modify (·.learnConst k) >>= fun _ => pure k))

instance {n : Int64} : Keeps R (constInt t n) := by unfold constInt; split <;> infer_instance

instance {bits : UInt64} : Keeps R (constFloat t bits) := by
  unfold constFloat; split <;> infer_instance

instance : Keeps R (undef t) := by unfold undef; split <;> infer_instance

instance : Keeps R (null t) := by unfold null; split <;> infer_instance

instance {t : Ty} : Keeps R (checkInitializer name t v) := by
  unfold checkInitializer
  split
  · infer_instance
  · split <;> infer_instance

end Learns

variable [hR : Context.Frame R] {m : ModuleId} {f : FuncId} {b : BlockId} {name : String}
  {t : Option Ty}
  {ts : List (Option Ty)} {v : Option Value} {variadic : Bool}

instance : Keeps R (namedStruct name ts) := by
  refine .bind inferInstance fun _ => .bind inferInstance fun _ => .bind inferInstance fun c => ?_
  split <;> infer_instance

instance : Keeps Context.SameUses (newModule name) := by
  refine .bind inferInstance fun _ => .bind ⟨fun c => ?_⟩ inferInstance
  exact Context.sameUses_of_kept rfl rfl (.refl _) (.refl _) (.refl _) (.refl _)

instance : Keeps R (declareStruct m t) := by unfold declareStruct; split <;> infer_instance

instance : Keeps R (renameModule m name) := by unfold renameModule; infer_instance

instance {s : Symbol} : Keeps R (define m name s) := by unfold define; infer_instance

instance : Keeps R (newDetachedFunction m name t) := by
  unfold newDetachedFunction; split <;> infer_instance

instance : Keeps R (linkFunction m f) := by unfold linkFunction; infer_instance

instance : Keeps R (newFunction m name t) := by unfold newFunction; infer_instance

instance : Keeps R (newGlobal m name t v) := by unfold newGlobal; split <;> infer_instance

instance {g : GlobalId} : Keeps R (setInitializer g v) := by unfold setInitializer; infer_instance

instance : Keeps R (addArgument f t name) := by unfold addArgument; infer_instance

instance : Keeps R (finalizeSignature f variadic) := by unfold finalizeSignature; infer_instance

instance : Keeps R (newPlaceholder f t name) := by unfold newPlaceholder; infer_instance

instance : Keeps R (newDetachedBlock f name) := by unfold newDetachedBlock; infer_instance

instance : Keeps R (appendBlock f b) := by unfold appendBlock; infer_instance

instance : Keeps R (newBlock f name) := by unfold newBlock; infer_instance

instance {a : ArgId} : Keeps R (setName (.arg a) name) := by unfold setName; infer_instance

end Build

/-! ## Creating instructions -/

/-- The context gets to know types and constants; the builder stays. -/
def Bench.Learned (s t : Bench) : Prop := s.context.Learned t.context ∧ t.builder = s.builder

instance : IsPreorder Bench Bench.Learned where
  refl _ := ⟨.refl _, rfl⟩
  trans _ _ _ h h' := ⟨h.1.trans h'.1, h'.2.trans h.2⟩

namespace Builder

variable {α : Type} {operands : List (Option Value)} {v : Option Value} {what : String}

instance {x : Build α} [hx : Build.Keeps Context.Learned x] :
    Build.Keeps Bench.Learned (liftM x : Building α) where
  run s := by
    have hkept := hx.run s.context
    have hlift : (liftM x : Building α) s = Building.ofBuild x s := rfl
    rw [hlift, Building.ofBuild]
    cases hrun : x s.context <;> rw [hrun] at hkept <;> exact ⟨hkept, rfl⟩

instance : Build.Keeps Bench.Learned function := by
  refine .bind inferInstance fun s => ?_
  split <;> infer_instance

instance : Build.Keeps Bench.Learned (operandType v what) := by
  refine .bind inferInstance fun s => ?_
  split <;> infer_instance

instance {r : Except ContractError Unit} : Build.Keeps Bench.Learned (ensure r) := by
  unfold ensure; split <;> infer_instance

/-- The work only gets to know types until it makes an instruction of the operands, or it is refused
and the builder is as it was. -/
class Makes (operands : List (Option Value)) (x : Building InstId) : Prop where
  run : ∀ s, match x s with
    | .ok _ t => ∃ e block op name type, s.context.Learned e ∧
        t.context = e.emitted block op name type operands
    | .error _ t => s.Learned t

instance {e : ContractError} : Makes operands (throw e) := ⟨refl_of Bench.Learned⟩

theorem Makes.bind {x : Building α} {f : α → Building InstId} (hx : Build.Keeps Bench.Learned x)
    (hf : ∀ a, Makes operands (f a)) : Makes operands (x >>= f) where
  run s := by
    have hfirst := hx.run s
    cases hrun : x s with rw [hrun] at hfirst
    | ok a t =>
      rw [EStateM.bind_of_ok hrun]
      have hsecond := (hf a).run t
      cases hrest : f a t with rw [hrest] at hsecond
      | ok i u =>
        obtain ⟨e, block, op, name, type, hlearned, hu⟩ := hsecond
        exact ⟨e, block, op, name, type, hfirst.1.trans hlearned, hu⟩
      | error e u => exact trans_of Bench.Learned hfirst hsecond
    | error e t =>
      rwa [EStateM.bind_of_error hrun]

instance {x : Building α} {f : α → Building InstId} [Build.Keeps Bench.Learned x]
    [∀ a, Makes operands (f a)] : Makes operands (x >>= f) := .bind inferInstance inferInstance

instance {op : Operation} {type : Ty} {hint : String} :
    Makes operands (emit op type hint operands) where
  run s := by
    cases hb : s.builder.block with
    | none =>
      rw [emit, EStateM.get_bind_apply, hb]
      exact refl_of Bench.Learned s
    | some block =>
      rw [emit_eq hb]
      exact ⟨s.context, block, op, _, type, .refl _, rfl⟩

end Builder

/-- A call that creates an instruction. -/
inductive Creation where
  | ret (v : Option Value)
  | retVoid
  | br (dest : Option BlockId)
  | condBr (cond : Option Value) (yes no : Option BlockId)
  | switch (cond : Option Value) (default : Option BlockId)
  | binary (op : Opcode) (lhs rhs : Option Value) (name : String)
  | icmp (p : Predicate) (lhs rhs : Option Value) (name : String)
  | fcmp (p : Predicate) (lhs rhs : Option Value) (name : String)
  | alloca (t : Option Ty) (name : String)
  | load (ptr : Option Value) (name : String)
  | store (v ptr : Option Value)
  | gep (source : Option Ty) (base : Option Value) (inBounds : Bool) (indices : List (Option Value))
      (name : String)
  | cast (op : Opcode) (v : Option Value) (target : Option Ty) (name : String)
  | phi (t : Option Ty) (name : String)
  | call (callee : Option Value) (args : List (Option Value)) (name : String)

namespace Creation

def build : Creation → Building InstId
  | ret v => Builder.ret v
  | retVoid => Builder.retVoid
  | br dest => Builder.br dest
  | condBr cond yes no => Builder.condBr cond yes no
  | switch cond default => Builder.switch cond default
  | binary op lhs rhs name => Builder.binary op lhs rhs name
  | icmp p lhs rhs name => Builder.icmp p lhs rhs name
  | fcmp p lhs rhs name => Builder.fcmp p lhs rhs name
  | alloca t name => Builder.alloca t name
  | load ptr name => Builder.load ptr name
  | store v ptr => Builder.store v ptr
  | gep source base inBounds indices name => Builder.gep source base inBounds indices name
  | cast op v target name => Builder.cast op v target name
  | phi t name => Builder.phi t name
  | call callee args name => Builder.call callee args name

def operands : Creation → List (Option Value)
  | ret v => [v]
  | retVoid => []
  | br dest => [dest.map .block]
  | condBr cond yes no => [cond, yes.map .block, no.map .block]
  | switch cond default => [cond, default.map .block]
  | binary _ lhs rhs _ => [lhs, rhs]
  | icmp _ lhs rhs _ => [lhs, rhs]
  | fcmp _ lhs rhs _ => [lhs, rhs]
  | alloca _ _ => []
  | load ptr _ => [ptr]
  | store v ptr => [v, ptr]
  | gep _ base _ indices _ => base :: indices
  | cast _ v _ _ => [v]
  | phi _ _ => []
  | call callee args _ => callee :: args

theorem makes_build (i : Creation) : Builder.Makes i.operands i.build := by
  cases i <;> dsimp only [build, operands]
  case ret => unfold Builder.ret; infer_instance
  case retVoid => unfold Builder.retVoid; infer_instance
  case br dest => cases dest <;> dsimp only [Builder.br, Option.map] <;> infer_instance
  case condBr yes no =>
    cases yes <;> cases no <;> dsimp only [Builder.condBr, Option.map] <;> infer_instance
  case switch default =>
    cases default <;> dsimp only [Builder.switch, Option.map] <;> infer_instance
  case binary op _ _ _ => cases op <;> unfold Builder.binary <;> infer_instance
  case icmp => unfold Builder.icmp; split <;> infer_instance
  case fcmp => unfold Builder.fcmp; split <;> infer_instance
  case alloca => unfold Builder.alloca; split <;> infer_instance
  case load =>
    refine .bind inferInstance fun _ => .bind inferInstance fun _ => ?_
    split <;> infer_instance
  case store =>
    refine .bind inferInstance fun _ => .bind inferInstance fun _ => .bind inferInstance fun _ => ?_
    split <;> infer_instance
  case gep =>
    refine .bind inferInstance fun _ => ?_
    split
    · infer_instance
    · refine .bind inferInstance fun _ => .bind inferInstance fun _ => .bind inferInstance fun _ =>
        .bind inferInstance fun _ => ?_
      split <;> infer_instance
  case cast op _ target _ => cases target <;> cases op <;> unfold Builder.cast <;> infer_instance
  case phi => unfold Builder.phi; split <;> infer_instance
  case call =>
    refine .bind inferInstance fun _ => .bind inferInstance fun _ => ?_
    split <;> infer_instance

end Creation

end SsaIr
