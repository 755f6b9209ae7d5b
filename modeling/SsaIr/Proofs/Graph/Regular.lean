import SsaIr.Proofs.Graph.Orderly

/-!
# What constructors keep up

Beyond parents and lists, the constructors of a context see to it that types are put together as
types may be, that phis have sized types, and that terminators have no results. The verifier relies
on this. Read `Context.Proper` and `Context.Regular` first.
-/

namespace SsaIr

variable {t : Ty}

namespace Ty

mutual
/-- The type is put together as types may be: nothing points to a label, elements, members and
parameters occupy memory, and functions return what may be returned. -/
def isProper : Ty → Bool
  | void | int _ | float _ | label => true
  | pointer t => !t.isLabel && t.isProper
  | array _ t => t.isSized && t.isProper
  | struct ts => areProper ts
  | named _ ts => areProper ts
  | function r ps _ => r.isReturnable && r.isProper && areProper ps

/-- The types occupy memory and are put together as types may be. -/
def areProper : List Ty → Bool
  | [] => true
  | t :: ts => t.isSized && t.isProper && areProper ts
end

theorem areProper_iff {ts : List Ty} :
    areProper ts = true ↔ ∀ t ∈ ts, t.isSized = true ∧ t.isProper = true := by
  induction ts with
  | nil => simp [areProper]
  | cons u us ih => simp [areProper, ih]

theorem isSized_of_params {r : Ty} {ps : List Ty} {variadic : Bool}
    (h : (pointer (function r ps variadic)).isProper = true) (ht : t ∈ ps) : t.isSized = true := by
  simp only [isProper, Bool.and_eq_true] at h
  exact (areProper_iff.mp h.2.2 t ht).1

theorem ne_label_of_pointer (h : (pointer t).isProper = true) : t ≠ label := by
  rintro rfl
  cases h

theorem isVoid_iff : t.isVoid = true ↔ t = void := by
  cases t <;> simp [isVoid]

theorem ne_void_of_isSized (h : t.isSized = true) : t ≠ void := by
  rintro rfl
  cases h

theorem ne_label_of_isSized (h : t.isSized = true) : t ≠ label := by
  rintro rfl
  cases h

theorem isProper_pointer (hne : t ≠ label) (ht : t.isProper = true) :
    (pointer t).isProper = true := by
  have hlabel : t.isLabel = false := by
    cases t <;> first | rfl | exact absurd rfl hne
  rw [isProper, hlabel, ht]
  rfl

theorem isProper_pointee {u : Ty} (h : t.isProper = true) (hu : t.pointee? = some u) :
    u.isProper = true := by
  cases t <;> cases hu
  rw [isProper, Bool.and_eq_true] at h
  exact h.2

end Ty

/-! ## Entities with proper types -/

/-- The types that results of an operation may have: none for a terminator, a sized one for a
phi. -/
class Operation.MayGive (op : Operation) (t : Ty) : Prop where
  proper : t.isProper = true
  terminator : op.isTerminator = true → t = .void
  phi : op = .phi → t.isSized = true

/-- A constant has a proper type; other values get theirs from the context. -/
def Value.IsProper (v : Value) : Prop := ∀ k, v = .const k → k.type.isProper = true

def Argument.IsProper (x : Argument) : Prop := ∀ t, x.type = some t → t.isProper = true

structure Instruction.IsProper (x : Instruction) : Prop where
  type : x.op.MayGive x.type
  operand : ∀ v, some v ∈ x.operands → v.IsProper

structure Function.IsProper (x : Function) : Prop where
  returnable : x.ret.isReturnable = true
  ret : x.ret.isProper = true
  signature : ∀ sig, x.signature = some sig → (Ty.pointer sig).isProper = true

def Global.IsProper (x : Global) : Prop := (Ty.pointer x.allocated).isProper = true

namespace Context

/-- All types of a context are put together as types may be. -/
structure Proper (c : Context) : Prop where
  named : ∀ t ∈ c.namedStructs, t.isProper = true
  args : ∀ x ∈ c.args, x.IsProper
  insts : ∀ x ∈ c.insts, x.IsProper
  functions : ∀ x ∈ c.functions, x.IsProper
  globals : ∀ x ∈ c.globals, x.IsProper

/-- What the constructors of a context keep up. -/
structure Regular (c : Context) : Prop extends c.Filed, c.Proper

namespace Proper

variable {c : Context} (h : c.Proper)
include h

theorem arg (a : ArgId) : (c.arg a).IsProper := by
  refine Array.getD_of_forall h.args (fun t ht => ?_) a.index
  cases ht

theorem inst (i : InstId) : (c.inst i).IsProper := by
  refine Array.getD_of_forall h.insts ⟨⟨rfl, fun _ => rfl, fun hphi => ?_⟩, fun v hv => ?_⟩ i.index
  · cases hphi
  · exact absurd hv (Array.not_mem_empty _)

theorem func (f : FuncId) : (c.func f).IsProper := by
  refine Array.getD_of_forall h.functions ⟨rfl, rfl, fun sig hsig => ?_⟩ f.index
  cases hsig

theorem global (g : GlobalId) : (c.global g).IsProper := by
  have hdefault : Global.IsProper default := rfl
  exact Array.getD_of_forall h.globals hdefault g.index

theorem typeOf {v : Value} (hv : v.IsProper) (ht : c.typeOf v = some t) : t.isProper = true := by
  cases v with
  | const k =>
    cases ht
    exact hv k rfl
  | arg a => exact h.arg a t ht
  | inst i =>
    cases ht
    exact (h.inst i).type.proper
  | block b =>
    cases ht
    rfl
  | func f =>
    obtain ⟨sig, hsig, rfl⟩ := Option.map_eq_some_iff.mp ht
    exact (h.func f).signature sig hsig
  | global g =>
    cases ht
    exact h.global g

theorem operand {i : InstId} {v : Value} (hv : some v ∈ (c.inst i).operands)
    (ht : c.typeOf v = some t) : t.isProper = true := h.typeOf ((h.inst i).operand v hv) ht

end Proper

end Context

end SsaIr
