import SsaIr.Proofs.Flow.Control
import SsaIr.Proofs.Verify.Module
import SsaIr.Proofs.Verify.Replacing

/-!
# What the verifier reports

`Verify.Stops x P` says that the check `x` stops only with errors that have the property `P`. A
function whose operands are live and well typed is refused for its form only: for the places of its
blocks, phis and terminators, or for definitions that do not reach their uses. Read
`ViolationCause.isForm` first, then `Verify.stops_function`.
-/

namespace SsaIr

variable {c : Context} {condition : Bool} {f : FuncId}

namespace ViolationCause

/-- The cause is a broken link, a value that is missing or unresolved, or a reference that leaves
the function or the module. -/
def isLoose : ViolationCause → Bool
  | unlinkedFunction _ | foreignGlobal | initializerFunction _ | initializerGlobal
    _ | initializerKind _
  | openSignature | argumentLink _ | flow _ | blockLink | instructionLink | missingOperand
  | unresolvedValue _ | foreignArgument _ | foreignInstruction _ | foreignBlock
    _ | foreignFunction _
  | foreignGlobalUse _ => true
  | _ => false

/-- The cause is the form of a function: which parameters have names, where blocks, phis,
terminators and allocations stand, where control comes from, and which definitions reach their
uses. -/
def isForm : ViolationCause → Bool
  | namedParameter _ | unnamedParameter _ | emptyBlock | openBlock | entryTargeted _ | latePhi
  | innerTerminator | usedEarly _ | undominatedUse .. | undominatedIncoming .. | missingIncoming _
  | extraIncoming _ | allocaPlace | emptyPhi | duplicateIncoming _ => true
  | _ => false

theorem isForm_spec {cause : ViolationCause} (h : cause.isForm = true) :
    cause.kind ≠ .typeMismatch ∧ cause.isLoose = false := by
  revert h
  cases cause <;> simp [isForm, kind, isLoose]

end ViolationCause

def VerifyError.IsForm (e : VerifyError) : Prop := ∃ v, e = .violation v ∧ v.cause.isForm = true

namespace Verify

variable {α β : Type} {x : Verify α} {P : VerifyError → Prop}

def Stops (x : Verify α) (P : VerifyError → Prop) : Prop := ∀ ts e ts', x ts = .error e ts' → P e

theorem Checks.stops {Q : α → Prop} (h : Checks x Q) {a : α} (ha : Q a) : Stops x P := by
  intro ts e ts' he
  obtain ⟨ts'', hok⟩ := (h ts a).mpr ha
  cases hok.symm.trans he

theorem stops_pure (a : α) : Stops (pure a) P := Checks.pure.stops rfl

theorem stops_ask (t : Ty) : Stops (ask t) P := Checks.ask.stops (a := ()) trivial

theorem Stops.passed {v : Violation} (h : condition = true) :
    Stops (require condition v) P :=
  Checks.require.stops (a := ()) h

theorem stops_require {v : Violation} (h : condition = false → P (.violation v)) :
    Stops (require condition v) P := by
  cases condition with
  | true => exact stops_pure ()
  | false =>
    intro ts e ts' he
    cases he
    exact h rfl

theorem Stops.bind {f : α → Verify β} (hx : Stops x P)
    (hf : ∀ {a ts ts'}, x ts = .ok a ts' → Stops (f a) P) : Stops (x >>= f) P := by
  intro ts e ts' he
  cases hxs : x ts with
  | ok a ts₁ =>
    rw [EStateM.bind_of_ok hxs] at he
    exact hf hxs ts₁ e ts' he
  | error e' ts₁ =>
    rw [EStateM.bind_of_error hxs] at he
    cases he
    exact hx ts e ts' hxs

theorem Stops.seq {f : α → Verify β} (hx : Stops x P) (hf : ∀ a, Stops (f a) P) :
    Stops (x >>= f) P :=
  hx.bind fun _ => hf _

theorem Stops.ite {p : Prop} [Decidable p] {y : Verify α} (hx : Stops x P) (hy : Stops y P) :
    Stops (if p then x else y) P := by
  split
  · exact hx
  · exact hy

end Verify

namespace Site

open Verify

variable {s : Site} {i : InstId}

theorem stops_check {cause : ViolationCause} (h : cause.isForm = true) :
    Stops (s.check i condition cause) VerifyError.IsForm :=
  stops_require fun _ => ⟨_, rfl, h⟩

theorem stops_definitions (position : Nat) (vs : List (Option Value)) :
    Stops (s.definitions i position vs) VerifyError.IsForm := by
  induction vs with
  | nil => exact stops_pure ()
  | cons v rest ih =>
    unfold definitions
    split
    · exact stops_pure ()
    · next h =>
        cases h
        refine Stops.seq ?_ fun _ => ih
        unfold defined
        refine Stops.ite (stops_check rfl) ?_
        split
        · exact stops_pure ()
        · exact stops_check rfl
    · next h =>
        cases h
        exact ih

theorem stops_available (v : Option Value) (b : BlockId) :
    Stops (s.available i v b) VerifyError.IsForm := by
  unfold available
  split
  · dsimp only
    split
    · exact stops_pure ()
    · exact Stops.ite (stops_check rfl) (stops_pure ())
  · exact stops_pure ()

theorem stops_incoming {t : Ty} {n : Nat} {seen : List BlockId}
    {l : List (Option Value × Option Value)}
    (h : ∀ p ∈ l, s.context.typeOf? p.1 = some t ∧ IsBlock p.2) :
    Stops (s.incoming i t n seen l) VerifyError.IsForm := by
  induction l generalizing n seen with
  | nil => exact stops_pure seen
  | cons p rest ih =>
    obtain ⟨v, w⟩ := p
    obtain ⟨htype, b, hb⟩ := h _ (.head _)
    obtain rfl : w = some (.block b) := hb
    refine Stops.seq (.passed (decide_eq_true htype)) fun _ => ?_
    exact (stops_check rfl).seq fun _ => (stops_available v b).seq fun _ =>
      ih fun q hq => h q (.tail _ hq)

theorem stops_operation {x : Instruction} (h : s.OperationTyped x) :
    Stops (s.operation i x) VerifyError.IsForm := by
  cases hop : x.op with rw [OperationTyped, hop] at h
  | alloca t =>
    obtain ⟨hempty, hsized, htype⟩ := h
    rw [operation, hop]
    refine Stops.seq (.passed hempty) fun _ => ?_
    refine Stops.seq (.passed hsized) fun _ => ?_
    refine (stops_ask _).seq fun _ => ?_
    exact Stops.seq (.passed (decide_eq_true htype)) fun _ => stops_check rfl
  | phi =>
    obtain ⟨heven, hincoming⟩ := h
    rw [operation, hop]
    refine Stops.seq (.passed (decide_eq_true heven)) fun _ => ?_
    exact (stops_check rfl).seq fun _ => (stops_incoming hincoming).seq fun _ =>
      (stops_check rfl).seq fun _ => stops_check rfl
  | _ => exact (s.checks_operation i x).stops (a := ()) h

theorem stops_instruction {position : Nat}
    (hlive : ∀ v ∈ (s.context.inst i).operands, ∃ w, v = some w ∧ s.Live w)
    (htyped : s.OperationTyped (s.context.inst i)) :
    Stops (s.instruction i position) VerifyError.IsForm := by
  have hoperands : Stops (s.operands i (s.context.inst i).operands.toList) VerifyError.IsForm :=
    (s.checks_operands i _).stops (a := ()) fun v hv => hlive v ⟨hv⟩
  refine hoperands.seq fun _ => ?_
  dsimp only
  refine Stops.ite (Stops.seq ?_ fun _ => stops_operation htyped) (stops_operation htyped)
  exact Stops.ite (stops_definitions position _) (stops_pure ())

end Site

namespace Verify

theorem stops_instructions {s : Site} {phis : Bool} {position : Nat} {l : List InstId}
    (h : ∀ i ∈ l, (s.context.inst i).parent = some s.block ∧
      (∀ v ∈ (s.context.inst i).operands, ∃ w, v = some w ∧ s.Live w) ∧
        s.OperationTyped (s.context.inst i)) :
    Stops (instructions s phis position l) VerifyError.IsForm := by
  induction l generalizing phis position with
  | nil => exact stops_pure ()
  | cons i rest ih =>
    obtain ⟨hparent, hlive, htyped⟩ := h i (.head _)
    refine Stops.seq (.passed (decide_eq_true hparent)) fun _ => ?_
    exact (Site.stops_check rfl).seq fun _ => (Site.stops_check rfl).seq fun _ =>
      (Site.stops_instruction hlive htyped).seq fun _ =>
        ih fun j hj => h j (.tail _ hj)

theorem stops_block {s : Site} (hparent : (s.context.block s.block).parent = s.func)
    (hlinked : (s.context.block s.block).linked = true)
    (h : ∀ i ∈ (s.context.block s.block).insts, (s.context.inst i).parent = some s.block ∧
      (∀ v ∈ (s.context.inst i).operands, ∃ w, v = some w ∧ s.Live w) ∧
        s.OperationTyped (s.context.inst i)) : Stops (block s) VerifyError.IsForm := by
  have hinsts : ∀ {phis position}, Stops (instructions s phis position
      (s.context.block s.block).insts.toList) VerifyError.IsForm :=
    stops_instructions fun i hi => h i ⟨hi⟩
  have hform : ∀ {condition : Bool} {v : Violation}, v.cause.isForm = true →
      Stops (require condition v) VerifyError.IsForm := fun hv => stops_require fun _ =>
        ⟨_, rfl, hv⟩
  have hhere :
      ((s.context.block s.block).parent = s.func && (s.context.block s.block).linked) = true := by
    rw [decide_eq_true hparent, hlinked]
    rfl
  refine Stops.seq (.passed hhere) fun _ => ?_
  refine (hform rfl).seq fun _ => (hform rfl).seq fun _ => ?_
  exact Stops.ite ((hform rfl).seq fun _ => hinsts) hinsts

theorem stops_blocks {a : FlowAnalysis} {bs : List BlockId}
    (h : ∀ b ∈ bs, Stops (block ⟨c, f, a, b⟩) P) : Stops (blocks c f a bs) P := by
  induction bs with
  | nil => exact stops_pure ()
  | cons b rest ih =>
    exact (h b (.head _)).seq fun _ => ih fun b' hb' => h b' (.tail _ hb')

theorem stops_arguments {declaration : Bool} {n : Nat} {args : List ArgId}
    {params : List Ty} (h : ∀ k a, args[k]? = some a → (c.arg a).parent = f ∧
      (c.arg a).index = some (n + k) ∧ Build.isSized (c.arg a).type = true ∧
        (c.arg a).type = params[k]?) :
    Stops (arguments c f declaration n args params) VerifyError.IsForm := by
  induction args generalizing n params with
  | nil => exact stops_pure ()
  | cons a rest ih =>
    obtain ⟨hparent, hindex, hsized, htype⟩ := h 0 a rfl
    have hrest : Stops (arguments c f declaration (n + 1) rest params.tail) VerifyError.IsForm := by
      refine ih fun k b hb => ?_
      obtain ⟨hp, hi, hs, ht⟩ := h (k + 1) b hb
      rw [List.getElem?_tail]
      exact ⟨hp, by rw [hi]; congr 1; omega, hs, ht⟩
    have hhere : ((c.arg a).parent = f && (c.arg a).index = some n) = true := by
      rw [decide_eq_true hparent, hindex]
      simp
    rw [← List.head?_eq_getElem?] at htype
    unfold arguments
    refine Stops.seq (.passed hhere) fun _ => ?_
    refine Stops.seq (.passed hsized) fun _ => ?_
    refine Stops.seq (.passed (decide_eq_true htype)) fun _ => ?_
    exact Stops.ite ((stops_require fun _ => ⟨_, rfl, rfl⟩).seq fun _ => hrest)
      ((stops_require fun _ => ⟨_, rfl, rfl⟩).seq fun _ => hrest)

/-- A function with a signature for its arguments, a flow graph, and blocks whose operands are live
and well typed is refused for its form only. -/
theorem stops_function {sig : Ty} (hsig : (c.func f).signature = some sig)
    (hret : sig.ret? = some (c.func f).ret) (hcount : sig.params.length = (c.func f).args.size)
    (hargs : ∀ k a, (c.func f).args[k]? = some a → (c.arg a).parent = f ∧ (c.arg a).index = some k ∧
      Build.isSized (c.arg a).type = true ∧ (c.arg a).type = sig.params[k]?)
    (hflow : (c.func f).blocks.isEmpty = false → ∃ a, FlowAnalysis.ofFunction c f = .ok a ∧
      ∀ b ∈ (c.func f).blocks, Stops (block ⟨c, f, a, b⟩) VerifyError.IsForm) :
    Stops (function c f) VerifyError.IsForm := by
  unfold function
  simp only [hsig]
  refine Stops.seq (.passed (decide_eq_true hret)) fun _ => ?_
  refine Stops.seq (.passed (decide_eq_true hcount)) fun _ => ?_
  refine (stops_arguments fun k a ha => ?_).seq fun _ => ?_
  · rw [Array.getElem?_toList] at ha
    rw [Nat.zero_add]
    exact hargs k a ha
  · split
    · exact stops_pure ()
    · next hempty =>
        obtain ⟨a, ha, hblocks⟩ := hflow (Bool.eq_false_iff.mpr hempty)
        simp only [ha]
        exact stops_blocks fun b hb => hblocks b ⟨hb⟩

end Verify

end SsaIr
