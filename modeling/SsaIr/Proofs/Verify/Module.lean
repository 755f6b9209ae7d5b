import SsaIr.Proofs.Verify.Function

/-!
# What the verifier accepts of a module

A module is accepted exactly when its globals have initializers of their types and its functions are
well formed. Read `Context.ModuleWell` first, then `verifyModule_iff`.
-/

namespace SsaIr

namespace Context

def Initializes (c : Context) (m : ModuleId) (t : Ty) (v : Value) : Prop :=
  (match v with
    | .const _ => True
    | .func f => (c.func f).parent = m ∧ (c.func f).linked = true
    | .global h => (c.global h).parent = m
    | _ => False) ∧ c.typeOf v = some t

/-- A global belongs to its module, occupies memory, and has an initializer of its type if any. -/
structure GlobalWell (c : Context) (m : ModuleId) (g : GlobalId) : Prop where
  parent : (c.global g).parent = m
  sized : (c.global g).allocated.isSized = true
  init : ∀ v, (c.global g).init = some v → c.Initializes m (c.global g).allocated v

/-- A module is well formed: its globals are, and its functions belong to it and are. -/
structure ModuleWell (c : Context) (m : ModuleId) : Prop where
  globals : ∀ g ∈ (c.module m).globals, c.GlobalWell m g
  functions : ∀ f ∈ (c.module m).functions,
    ((c.func f).parent = m ∧ (c.func f).linked = true) ∧ c.WellFormed f

end Context

namespace Verify

section

variable (c : Context) (m : ModuleId)

theorem checks_global (g : GlobalId) :
    Checks (global c m g) fun _ => c.GlobalWell m g := by
  unfold global
  have hbind : ∀ {p q r : Prop}, (p ∧ q ∧ True ∧ r) ↔ (p ∧ q ∧ r) := by
    intro p q r
    rw [true_and]
  have hgoal : ∀ {p : Prop}, (p ↔ ∀ v, (c.global g).init = some v →
        c.Initializes m (c.global g).allocated v) →
      ((c.global g).parent = m ∧ (c.global g).allocated.isSized = true ∧ True ∧ p ↔
        c.GlobalWell m g) := by
    intro p hp
    rw [hbind, hp]
    exact ⟨fun ⟨h₁, h₂, h₃⟩ => ⟨h₁, h₂, h₃⟩, fun ⟨h₁, h₂, h₃⟩ => ⟨h₁, h₂, h₃⟩⟩
  cases hinit : (c.global g).init with simp only [hinit]
  | none =>
    refine .congr (.seq .require (.seq .require (.seq .ask .pure))) fun _ => ?_
    simp only [decide_eq_true_eq]
    exact hgoal ⟨fun _ v hv => absurd (hinit.symm.trans hv) nofun, fun _ => trivial⟩
  | some v =>
    have hsome : ∀ {p : Prop}, (p ↔ c.Initializes m (c.global g).allocated v) →
        (p ↔ ∀ w, (c.global g).init = some w →
          c.Initializes m (c.global g).allocated w) := by
      intro p hp
      rw [hp]
      refine ⟨fun h w hw => ?_, fun h => h v hinit⟩
      rwa [Option.some.inj (hw.symm.trans hinit)]
    cases v with
    | const k =>
      refine .congr (.seq .require (.seq .require (.seq .ask .require))) fun _ => ?_
      simp only [decide_eq_true_eq]
      exact hgoal (hsome (by simp [Context.Initializes]))
    | func | global =>
      refine .congr (.seq .require (.seq .require (.seq .ask (.seq .require .require)))) fun _ => ?_
      simp only [decide_eq_true_eq, Bool.and_eq_true]
      exact hgoal (hsome (by simp [Context.Initializes]))
    | arg | inst | block =>
      refine .congr (.seq .require (.seq .require (.seq .ask (.seq .throw .require)))) fun _ => ?_
      simp only [decide_eq_true_eq]
      exact hgoal (hsome (by simp [Context.Initializes]))

theorem checks_globals (gs : List GlobalId) :
    Checks (globals c m gs) fun _ => ∀ g ∈ gs, c.GlobalWell m g := by
  induction gs with
  | nil =>
    refine .congr .pure fun _ => ?_
    simp
  | cons g rest ih =>
    refine .congr (.seq (checks_global c m g) ih) fun _ => ?_
    simp

theorem checks_functions (previous : String) (fs : List FuncId) :
    Checks (functions c m previous fs) fun _ => ∀ f ∈ fs,
      ((c.func f).parent = m ∧ (c.func f).linked = true) ∧ c.WellFormed f := by
  induction fs generalizing previous with
  | nil =>
    refine .congr .pure fun _ => ?_
    simp
  | cons f rest ih =>
    refine .congr (.seq .require (.seq (checks_function c f) (ih _))) fun _ => ?_
    simp [and_assoc]

end

end Verify

theorem verifyModule_iff {c : Context} {m : ModuleId} :
    (verifyModule c m).1 = .ok () ↔ c.ModuleWell m := by
  refine Verify.outcome_ok_iff
    (((Verify.checks_globals c m _).seq (Verify.checks_functions c m _ _)).congr fun _ => ?_)
  simp only [Array.mem_toList_iff]
  exact ⟨fun ⟨h₁, h₂⟩ => ⟨h₁, h₂⟩, fun ⟨h₁, h₂⟩ => ⟨h₁, h₂⟩⟩

end SsaIr
