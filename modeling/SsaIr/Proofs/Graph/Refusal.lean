import SsaIr.Proofs.Graph.Editing

/-!
# Refused changes

A change that is refused leaves programs and the builder as they were, because its checks come
before its changes: at most the tables of types and constants grew, and a function that could not be
entered into its module stays behind in no list. `Build.Spares` says so of a computation and follows
its steps. The main result is `Change.refused_spares_programs`.
-/

namespace SsaIr

open EStateM Context Build

variable {c d : Context} {e : ContractError}

/-- Programs are as they were. The tables of types and constants may have grown at their ends; of
functions there may be new ones that are bare and stand in no list. -/
def Context.Spared (c d : Context) : Prop :=
  (∃ types constants strays,
    d = { c with
          types := c.types ++ types
          constants := c.constants ++ constants
          functions := c.functions ++ strays } ∧
      ∀ x ∈ strays, x.linked = false ∧ x.signature = none ∧ x.args = #[] ∧ x.blocks = #[] ∧
        x.users = []) ∧
    (∀ k, d.users (.const k) = c.users (.const k)) ∧ ∀ k, c.Tracks (.const k) → d.Tracks (.const k)

theorem Context.Learned.spared (h : c.Learned d) : c.Spared d := by
  obtain ⟨types, constants, hd⟩ := h.same
  refine ⟨⟨types, constants, #[], ?_, fun x hx => absurd hx (Array.not_mem_empty x)⟩, h.users,
    fun k => h.const⟩
  rwa [Array.append_empty]

set_option synthInstance.maxSize 1024

namespace Build

variable {α β : Type}

/-- The computation is never refused. -/
class Total (x : Build α) : Prop where
  run : ∀ c, ∃ a d, x c = .ok a d

/-- When the computation is refused, at most types and constants got known. -/
class Spares (x : Build α) : Prop where
  run : ∀ {c e d}, x c = .error e d → c.Learned d

instance {f : Context → Context} : Total (modify f) := ⟨fun _ => ⟨_, _, rfl⟩⟩

instance {a : α} : Total (pure a) := ⟨fun _ => ⟨_, _, rfl⟩⟩

instance : Total (get : Build Context) := ⟨fun _ => ⟨_, _, rfl⟩⟩

instance {x : Build α} {f : α → Build β} [hx : Total x] [hf : ∀ a, Total (f a)] :
    Total (x >>= f) where
  run c := by
    obtain ⟨a, d, hrun⟩ := hx.run c
    rw [bind_of_ok hrun]
    exact (hf a).run d

instance {x : Build α} [hx : Total x] : Spares x where
  run {c e d} h := by
    obtain ⟨a, d', hrun⟩ := hx.run c
    cases hrun.symm.trans h

instance {x : Build α} [hx : Build.Keeps Learned x] : Spares x where
  run {c e d} h := by
    have hkept := hx.run c
    rwa [h] at hkept

/-- Checks come first: what goes before the rest only gets to know types and constants. -/
instance {x : Build α} {f : α → Build β} [hx : Build.Keeps Learned x] [hf : ∀ a, Spares (f a)] :
    Spares (x >>= f) where
  run {c e d} h := by
    have hkept := hx.run c
    cases hrun : x c with rw [hrun] at hkept
    | ok a c' =>
      rw [bind_of_ok hrun] at h
      exact hkept.trans ((hf a).run h)
    | error e' c' =>
      rw [bind_of_error hrun] at h
      cases h
      exact hkept

theorem eq_error_of_bind {x : Build α} {f : α → Build β} [hf : ∀ a, Total (f a)]
    (h : (x >>= f) c = .error e d) : x c = .error e d := by
  cases hrun : x c with
  | ok a c' =>
    obtain ⟨a', d', hrest⟩ := (hf a).run c'
    rw [bind_of_ok hrun] at h
    cases hrest.symm.trans h
  | error e' c' =>
    rw [bind_of_error hrun] at h
    cases h
    rfl

instance {x : Build α} {f : α → Build β} [hx : Spares x] [∀ a, Total (f a)] : Spares (x >>= f) :=
  ⟨fun h => hx.run (eq_error_of_bind h)⟩

instance {x : Build α} [Spares x] : Spares (discard x) :=
  inferInstanceAs (Spares (x >>= fun _ => pure ()))

instance {p : Prop} [Decidable p] {x y : Build α} [Spares x] [Spares y] :
    Spares (if p then x else y) := by
  split <;> assumption

variable {m : ModuleId} {f : FuncId} {name : String} {t : Option Ty} {v : Option Value}

instance {s : Symbol} : Spares (define m name s) := by unfold define; infer_instance

instance : Spares (linkFunction m f) := by unfold linkFunction; infer_instance

instance : Spares (newDetachedFunction m name t) := by
  unfold newDetachedFunction; split <;> infer_instance

instance : Spares (newGlobal m name t v) := by unfold newGlobal; split <;> infer_instance

instance {g : GlobalId} : Spares (setInitializer g v) := by unfold setInitializer; infer_instance

instance : Spares (addArgument f t name) := by unfold addArgument; infer_instance

instance {variadic : Bool} : Spares (finalizeSignature f variadic) := by
  unfold finalizeSignature; infer_instance

instance {b : BlockId} : Spares (appendBlock f b) := by unfold appendBlock; infer_instance

instance : Spares (declareStruct m t) := by unfold declareStruct; split <;> infer_instance

instance : Total (undefine m name) := by unfold undefine; infer_instance

instance {w : Value} : Spares (setName w name) := by unfold setName; cases w <;> infer_instance

instance : Total (newModule name) := by unfold newModule; infer_instance

instance : Total (newPlaceholder f t name) := by unfold newPlaceholder; infer_instance

instance : Total (newDetachedBlock f name) := by unfold newDetachedBlock; infer_instance

instance {i : InstId} {n : Nat} : Total (setOperand i n v) := by unfold setOperand; infer_instance

instance : Total (newBlock f name) where
  run c := by
    have hblock :
        (c.pushBlock { name, parent := f }).block ⟨c.blocks.size⟩ = { name, parent := f } := by
      rw [block_pushBlock, if_pos rfl]
    have happend : appendBlock f ⟨c.blocks.size⟩ (c.pushBlock { name, parent := f }) =
        .ok () ((c.pushBlock { name, parent := f }).linkBlock f ⟨c.blocks.size⟩) := by
      rw [appendBlock, get_bind_apply, require_bind_apply, require_bind_apply, hblock,
        if_pos (decide_eq_true rfl)]
      rfl
    exact ⟨_, _, bind_of_ok happend⟩

instance {i : InstId} {b : Option BlockId} : Spares (addIncoming i v b) := by
  unfold addIncoming
  cases v <;> cases b <;> infer_instance

instance {i : InstId} {k : Option Const} {b : Option BlockId} : Spares (addCase i k b) := by
  unfold addCase
  cases k <;> cases b <;> infer_instance

instance {old new : Value} : Spares (replaceUses old new) := by unfold replaceUses; infer_instance

instance {i : InstId} : Spares (erase i) where
  run {c e d} h := by
    rw [erase_eq] at h
    split at h
    · split at h <;> cases h
    · cases h
      exact .refl c

theorem newFunction_refused (h : newFunction m name t c = .error e d) :
    c.Learned d ∨ ∃ r, t = some r ∧
    r.isReturnable = true ∧ (c.pushFunc { name, parent := m, ret := r }).Learned d := by
  unfold newFunction at h
  cases hnew : newDetachedFunction m name t c with
  | error e' d' =>
    rw [bind_of_error hnew] at h
    cases h
    exact .inl (Spares.run hnew)
  | ok f c' =>
    rw [bind_of_ok hnew] at h
    have hlearned := Spares.run h
    cases t with
    | none => cases hnew
    | some r =>
      obtain ⟨hret, hnew⟩ := require_bind_eq_ok_iff.mp hnew
      cases hnew
      exact .inr ⟨r, rfl, hret, hlearned⟩

end Build

theorem Building.ofBuild_eq_error {α : Type} {x : Build α} {s t : Bench}
    (h : Building.ofBuild x s = .error e t) :
    x s.context = .error e t.context ∧ t.builder = s.builder := by
  obtain ⟨c, b⟩ := s
  dsimp only [Building.ofBuild] at h ⊢
  cases hrun : x c with rw [hrun] at h
  | ok => cases h
  | error =>
    cases h
    exact ⟨rfl, rfl⟩

/-- A refused edit leaves the builder alone, and at most types and constants got known; but a
function that could not be entered into its module stays behind. -/
theorem Edit.eq_error {s t : Bench} {x : Edit} (h : x.run s = .error e t) :
    (s.context.Learned t.context ∨ ∃ m name r, x = .newFunction m name (some r) true ∧
      r.isReturnable = true ∧
      (s.context.pushFunc { name, parent := m, ret := r }).Learned t.context) ∧
    t.builder = s.builder := by
  cases x
  case insertAt => cases h
  case create i =>
    have hmakes := i.makes_build.run s
    cases hrun : i.build s with rw [hrun] at hmakes
    | ok =>
      rw [run, discard_of_ok hrun] at h
      cases h
    | error =>
      rw [run, discard_of_error hrun] at h
      cases h
      exact ⟨.inl hmakes.1, hmakes.2⟩
  case newFunction m name ret linked =>
    obtain ⟨h, hb⟩ := Building.ofBuild_eq_error h
    refine ⟨?_, hb⟩
    cases linked with
    | false => exact .inl (Spares.run (x := discard (newDetachedFunction m name ret)) h)
    | true =>
      refine (newFunction_refused (eq_error_of_bind (f := fun _ => pure ()) h)).imp_right ?_
      rintro ⟨r, rfl, hr⟩
      exact ⟨m, name, r, rfl, hr⟩
  case newBlock f name linked =>
    obtain ⟨h, hb⟩ := Building.ofBuild_eq_error h
    refine ⟨.inl ?_, hb⟩
    cases linked with
    | false => exact Spares.run (x := discard (newDetachedBlock f name)) h
    | true => exact Spares.run (x := discard (Build.newBlock f name)) h
  all_goals
    dsimp only [run] at h
    obtain ⟨h, hb⟩ := Building.ofBuild_eq_error h
    exact ⟨.inl (Spares.run h), hb⟩

theorem Context.Learned.spared_pushFunc {name : String} {m : ModuleId} {r : Ty}
    (h : (c.pushFunc { name, parent := m, ret := r }).Learned d) : c.Spared d := by
  obtain ⟨types, constants, hd⟩ := h.same
  refine ⟨⟨types, constants, #[{ name, parent := m, ret := r }], hd, fun x hx => ?_⟩, h.users,
    fun k => h.const⟩
  rw [Array.mem_singleton.mp hx]
  exact ⟨rfl, rfl, rfl, rfl, rfl⟩

theorem Edit.spared_of_refused {s t : Bench} {x : Edit} (h : x.run s = .error e t) :
    s.context.Spared t.context ∧ t.builder = s.builder := by
  obtain ⟨hlearned | ⟨m, name, r, -, -, hlearned⟩, hb⟩ := x.eq_error h
  · exact ⟨hlearned.spared, hb⟩
  · exact ⟨hlearned.spared_pushFunc, hb⟩

/-- A change of programs: an edit, another name for a value, or a struct for a module to declare. -/
inductive Change where
  | edit (e : Edit)
  | setName (v : Value) (name : String)
  | declareStruct (m : ModuleId) (t : Option Ty)

namespace Change

/-- Carry a change out. -/
def run : Change → Building Unit
  | edit e => e.run
  | setName v name => .ofBuild (Build.setName v name)
  | declareStruct m t => .ofBuild (Build.declareStruct m t)

/-- Whatever is asked for: when it is refused, programs are as they were, and so is the builder with
the number that it counts names with. -/
theorem refused_spares_programs {s t : Bench} {r : Change} {e : ContractError}
    (h : r.run s = .error e t) : s.context.Spared t.context ∧ t.builder = s.builder := by
  cases r with
  | edit x => exact x.spared_of_refused h
  | setName | declareStruct =>
    obtain ⟨h, hb⟩ := Building.ofBuild_eq_error h
    exact ⟨(Spares.run h).spared, hb⟩

theorem refused_spares_programs_taken : ∃ e t,
    (edit (.newFunction ⟨0⟩ "f" (some .void) true)).run
      ⟨(Workshop.run [.newModule "m", .newFunction ⟨0⟩ "f" (some .void) true]).context,
        { next := 7 }⟩ =
        .error e t ∧
    (Workshop.run [.newModule "m", .newFunction ⟨0⟩ "f" (some .void) true]).context.Spared
      t.context ∧
    t.builder = { next := 7 } :=
  ⟨_, _, rfl, refused_spares_programs (r := edit (.newFunction ⟨0⟩ "f" (some .void) true))
    (s := ⟨_, { next := 7 }⟩) rfl⟩

end Change

end SsaIr
