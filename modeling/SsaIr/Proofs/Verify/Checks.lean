import SsaIr.Verify.Instruction
import SsaIr.Proofs.Computation

/-!
# What the checks on instructions accept

`Verify.Checks x P` says that the check `x` succeeds with an answer exactly when `P` holds of it,
whatever types were asked for before. Each check gets the proposition that it decides. Read
`Site.Well` first: it is what `Site.instruction` decides.
-/

namespace SsaIr

open Context List

namespace Verify

variable {α β : Type}

/-- A check succeeds with an answer exactly when the proposition holds of it. -/
def Checks (x : Verify α) (P : α → Prop) : Prop := ∀ ts a, (∃ ts', x ts = .ok a ts') ↔ P a

variable {x : Verify α} {P Q : α → Prop}

theorem Checks.congr (h : Checks x P) (hPQ : ∀ a, P a ↔ Q a) : Checks x Q :=
  fun ts a => (h ts a).trans (hPQ a)

theorem Checks.pure {a : α} : Checks (pure a) fun b => a = b := by
  intro ts b
  constructor
  · rintro ⟨ts', h⟩
    exact (EStateM.Result.ok.inj h).1
  · rintro rfl
    exact ⟨ts, rfl⟩

theorem Checks.throw {e : VerifyError} : Checks (throw e : Verify α) fun _ => False := by
  intro ts b
  constructor
  · rintro ⟨ts', h⟩
    cases h
  · exact False.elim

theorem Checks.require {condition : Bool} {v : Violation} :
    Checks (require condition v) fun _ => condition = true := by
  cases condition with
  | true => exact Checks.pure.congr fun _ => ⟨fun _ => rfl, fun _ => rfl⟩
  | false => exact Checks.throw.congr fun _ => ⟨False.elim, fun h => by cases h⟩

theorem Checks.ask {t : Ty} : Checks (ask t) fun _ => True := by
  intro ts a
  exact ⟨fun _ => trivial, fun _ => ⟨t :: ts, rfl⟩⟩

theorem Checks.bind {f : α → Verify β} {R : α → β → Prop} (hx : Checks x P)
    (hf : ∀ a, Checks (f a) (R a)) : Checks (x >>= f) fun b => ∃ a, P a ∧ R a b := by
  intro ts b
  constructor
  · rintro ⟨ts', h⟩
    obtain ⟨a, ts₁, ha, hb⟩ := EStateM.bind_eq_ok_iff.mp h
    exact ⟨a, (hx ts a).mp ⟨ts₁, ha⟩, (hf a ts₁ b).mp ⟨ts', hb⟩⟩
  · rintro ⟨a, ha, hb⟩
    obtain ⟨ts₁, h₁⟩ := (hx ts a).mpr ha
    obtain ⟨ts₂, h₂⟩ := (hf a ts₁ b).mpr hb
    exact ⟨ts₂, EStateM.bind_eq_ok_iff.mpr ⟨a, ts₁, h₁, h₂⟩⟩

theorem Checks.seq {u : Verify Unit} {p : Prop} {y : Verify β} {R : β → Prop}
    (hu : Checks u fun _ => p) (hy : Checks y R) : Checks (u >>= fun _ => y) fun b => p ∧ R b :=
  (hu.bind fun _ => hy).congr fun _ => ⟨fun ⟨_, h⟩ => h, fun h => ⟨(), h⟩⟩

theorem Checks.ite {p : Prop} [Decidable p] {y : Verify α} (hx : Checks x P) (hy : Checks y Q) :
    Checks (if p then x else y) fun a => if p then P a else Q a := by
  by_cases hp : p
  · rw [if_pos hp]
    exact hx.congr fun a => by rw [if_pos hp]
  · rw [if_neg hp]
    exact hy.congr fun a => by rw [if_neg hp]

variable {s : Site} {i : InstId}

theorem Checks.check {condition : Bool} {cause : ViolationCause} :
    Checks (s.check i condition cause) fun _ => condition = true :=
  .require

theorem Checks.lift {r : Except ContractError α} : Checks (s.lift i r) fun a => r = .ok a := by
  cases r with
  | ok a => exact Checks.pure.congr fun b => by simp
  | error e => exact Checks.throw.congr fun b => by simp

end Verify

namespace Site

open Verify

variable (s : Site) (i : InstId)

/-! ## Operands -/

/-- A value is a live value of the function or its module. -/
def Live : Value → Prop
  | .const _ => True
  | .arg a => (s.context.arg a).type.isSome = true ∧ (s.context.arg a).index.isSome = true ∧
      (s.context.arg a).parent = s.func
  | .inst d => ∃ b, (s.context.inst d).parent = some b ∧ (s.context.block b).parent = s.func ∧
      (s.context.block b).linked = true
  | .block b => (s.context.block b).parent = s.func ∧ (s.context.block b).linked = true
  | .func f => (s.context.func f).signature.isSome = true ∧
      (s.context.func f).parent = (s.context.func s.func).parent ∧
      (s.context.func f).linked = true
  | .global g => (s.context.global g).parent = (s.context.func s.func).parent

theorem checks_operand (v : Option Value) : Checks (s.operand i v) fun _ =>
    ∃ w, v = some w ∧ s.Live w := by
  cases v with
  | none =>
    refine .congr (.seq .check .pure) fun _ => ?_
    simp [typeOf?]
  | some w =>
    cases w with
    | const k =>
      refine .congr (.seq .check .pure) fun _ => ?_
      simp [typeOf?, typeOf, Live]
    | arg a =>
      refine .congr (.seq .check (.seq .check .check)) fun _ => ?_
      simp [typeOf?, typeOf, Live]
    | inst d =>
      refine .congr (.seq .check .check) fun _ => ?_
      cases hparent : (s.context.inst d).parent <;>
        simp [typeOf?, typeOf, Live, hparent]
    | block | func | global =>
      refine .congr (.seq .check .check) fun _ => ?_
      simp [typeOf?, typeOf, Live]

theorem checks_operands (vs : List (Option Value)) :
    Checks (s.operands i vs) fun _ => ∀ v ∈ vs, ∃ w, v = some w ∧ s.Live w := by
  induction vs with
  | nil =>
    refine .congr .pure fun _ => ?_
    simp
  | cons v rest ih =>
    refine .congr (.seq (s.checks_operand i v) ih) fun _ => ?_
    simp

/-- An instruction is defined before a position of the block. -/
def Defined (position : Nat) (d : InstId) : Prop :=
  if (s.context.inst d).parent = some s.block then
    ((s.context.block s.block).insts.idxOf? d).getD 0 < position
  else ∀ b, (s.context.inst d).parent = some b → s.analysis.dominatesBlock b s.block = true

theorem checks_defined (position : Nat) (d : InstId) :
    Checks (s.defined i position d) fun _ => s.Defined position d := by
  unfold defined Defined
  by_cases hhere : (s.context.inst d).parent = some s.block
  · simp only [hhere, if_true]
    exact .congr .check fun _ => decide_eq_true_iff
  · simp only [hhere, if_false]
    cases hparent : (s.context.inst d).parent with
    | none =>
      refine .congr .pure fun _ => ?_
      simp
    | some b =>
      refine .congr .check fun _ => ?_
      simp

theorem checks_definitions (position : Nat) (vs : List (Option Value)) :
    Checks (s.definitions i position vs) fun _ =>
      ∀ d, some (.inst d) ∈ vs → s.Defined position d := by
  induction vs with
  | nil =>
    refine .congr .pure fun _ => ?_
    simp
  | cons v rest ih =>
    unfold definitions
    split
    · rename_i h
      cases h
    · rename_i d rest' h
      cases h
      refine .congr (.seq (s.checks_defined i position d) ih) fun _ => ?_
      simp only [mem_cons, Option.some.injEq, Value.inst.injEq]
      constructor
      · rintro ⟨hd, hrest⟩ e (rfl | he)
        · exact hd
        · exact hrest e he
      · exact fun h => ⟨h d (.inl rfl), fun e he => h e (.inr he)⟩
    · rename_i rest' hne h
      cases h
      refine ih.congr fun _ => ?_
      simp only [mem_cons]
      constructor
      · rintro hrest e (he | he)
        · exact absurd he.symm (hne e)
        · exact hrest e he
      · exact fun h e he => h e (.inr he)

/-- The operands of an instruction are defined before it, if its block can be reached. -/
def Dominated (position : Nat) : Prop :=
  s.analysis.reachable (some s.block) = true →
    ∀ d, some (.inst d) ∈ (s.context.inst i).operands → s.Defined position d

theorem checks_dominance (position : Nat) :
    Checks (s.dominance i position) fun _ => s.Dominated i position := by
  unfold dominance Dominated
  refine .congr (.ite (s.checks_definitions i position _) .pure) fun _ => ?_
  by_cases hreach : s.analysis.reachable (some s.block) = true <;> simp [hreach]

/-! ## Operations -/

def IsBlock (v : Option Value) : Prop := ∃ b, v = some (.block b)

theorem checks_label (v : Option Value) : Checks (s.label i v) fun _ => IsBlock v := by
  refine .congr .check fun _ => ?_
  cases v with
  | none => simp [IsBlock]
  | some v => cases v <;> simp [IsBlock, Value.block?]

variable (x : Instruction)

def RetWell (x : Instruction) : Prop :=
  if (s.context.func s.func).ret.isVoid = true then x.operands.isEmpty = true
  else x.operands.size = 1 ∧ s.typeAt x 0 = some (s.context.func s.func).ret

theorem checks_ret : Checks (s.ret i x) fun _ => s.RetWell x := by
  unfold ret RetWell
  refine .congr (.ite .check (.seq .check .check)) fun _ => ?_
  simp only [decide_eq_true_eq]

/-- Cases of a switch are distinct constants of a type, none of them seen, with blocks. -/
def CasesWell (t : Option Ty) : List Int64 → List (Option Value × Option Value) → Prop
  | _, [] => True
  | seen, (k, dest) :: rest => ∃ w v, k = some (.const (.int w v)) ∧ some (Ty.int w) = t ∧
      IsBlock dest ∧ v ∉ seen ∧ CasesWell t (v :: seen) rest

theorem checks_switchCases (t : Option Ty) (seen : List Int64)
    (l : List (Option Value × Option Value)) :
    Checks (s.switchCases i t seen l) fun _ => CasesWell t seen l := by
  induction l generalizing seen with
  | nil =>
    refine .congr .pure fun _ => ?_
    simp [CasesWell]
  | cons p rest ih =>
    obtain ⟨k, dest⟩ := p
    unfold switchCases
    split
    · rename_i w v
      refine .congr (.seq .check (.seq (s.checks_label i dest) (.seq .check (ih (v :: seen)))))
        fun _ => ?_
      simp [CasesWell]
    · rename_i hne
      refine .congr .check fun _ => ?_
      simp only [CasesWell, Bool.false_eq_true, false_iff]
      rintro ⟨w, v, hk, _⟩
      exact hne w v hk

def SwitchWell (x : Instruction) : Prop :=
  (2 ≤ x.operands.size ∧ x.operands.size % 2 = 0) ∧
    ((s.typeAt x 0).map Ty.isInteger).getD false = true ∧ IsBlock (x.operand 1) ∧
      CasesWell (s.typeAt x 0) [] x.cases

theorem checks_switch : Checks (s.switch i x) fun _ => s.SwitchWell x := by
  refine .congr (.seq .check (.seq .check (.seq (s.checks_label i _)
    (s.checks_switchCases i _ _ _)))) fun _ => ?_
  simp [SwitchWell]

/-- Arithmetic takes and gives one type of the right sort. -/
def BinaryWell (x : Instruction) (sort : Ty → Bool) : Prop :=
  x.operands.size = 2 ∧ s.typeAt x 1 = s.typeAt x 0 ∧
    ((s.typeAt x 0).map sort).getD false = true ∧ some x.type = s.typeAt x 0

theorem checks_binary (sort : Ty → Bool) (cause : ViolationCause) :
    Checks (s.binary i x sort cause) fun _ => s.BinaryWell x sort := by
  refine .congr (.seq .check (.seq .check (.seq .check .check))) fun _ => ?_
  simp only [BinaryWell, decide_eq_true_eq]

/-- A comparison takes one type of the right sort and gives a truth value. -/
def CompareWell (x : Instruction) (sort : Ty → Bool) : Prop :=
  x.operands.size = 2 ∧ s.typeAt x 1 = s.typeAt x 0 ∧
    ((s.typeAt x 0).map sort).getD false = true ∧ x.type = .i1

theorem checks_compare (sort : Ty → Bool) (cause : ViolationCause) :
    Checks (s.compare i x sort cause) fun _ => s.CompareWell x sort := by
  refine .congr (.seq .check (.seq .check (.seq .check .check))) fun _ => ?_
  simp only [CompareWell, decide_eq_true_eq]

/-- An allocation gives a pointer to a sized type and stands in the entry block. -/
def AllocaWell (x : Instruction) (t : Ty) : Prop :=
  x.operands.isEmpty = true ∧ t.isSized = true ∧ x.type = .pointer t ∧
    x.parent = s.context.entry s.func

theorem checks_alloca (t : Ty) : Checks (s.alloca i x t) fun _ => s.AllocaWell x t := by
  refine .congr (.seq .check (.seq .check (.seq .ask (.seq .check .check)))) fun _ => ?_
  simp [AllocaWell]

def LoadWell (x : Instruction) : Prop :=
  x.operands.size = 1 ∧ (((s.typeAt x 0).bind Ty.pointee?).map Ty.isSized).getD false = true ∧
    some x.type = (s.typeAt x 0).bind Ty.pointee?

theorem checks_load : Checks (s.load i x) fun _ => s.LoadWell x := by
  refine .congr (.seq .check (.seq .check .check)) fun _ => ?_
  simp only [LoadWell, decide_eq_true_eq]

/-- A store puts a value where a pointer to its type points. -/
def StoreWell (x : Instruction) : Prop :=
  x.operands.size = 2 ∧ ((s.typeAt x 1).bind Ty.pointee?).isSome = true ∧
    s.typeAt x 0 = (s.typeAt x 1).bind Ty.pointee? ∧ x.type.isVoid = true

theorem checks_store : Checks (s.store i x) fun _ => s.StoreWell x := by
  refine .congr (.seq .check (.seq .check (.seq .check .check))) fun _ => ?_
  simp only [StoreWell, decide_eq_true_eq]

/-- An address computation starts at a pointer to its source type and gives a pointer to the
selected element. -/
def GepWell (x : Instruction) (source : Ty) : Prop :=
  2 ≤ x.operands.size ∧ source.isSized = true ∧ s.typeAt x 0 = some (.pointer source) ∧
    ∃ elem, s.context.elementType (some source) (x.operands.toList.drop 1) = .ok elem ∧
      x.type = .pointer (elem.getD source)

theorem checks_gep (source : Ty) : Checks (s.gep i x source) fun _ => s.GepWell x source := by
  refine .congr (.seq .check (.seq .check (.seq .ask (.seq .check (.bind .lift
    fun elem => .seq .ask .check))))) fun _ => ?_
  simp [GepWell]

def CastWell (x : Instruction) : Prop :=
  x.operands.size = 1 ∧ checkCast x.op.opcode (s.typeAt x 0) (some x.type) = .ok ()

theorem checks_cast : Checks (s.cast i x) fun _ => s.CastWell x := by
  refine .congr (.seq .check .lift) fun _ => ?_
  simp only [CastWell, decide_eq_true_eq]

/-- An instruction is available at the end of a block, if that can be reached. -/
def Available (v : Option Value) (b : BlockId) : Prop :=
  ∀ d, v = some (.inst d) → ∀ home, (s.context.inst d).parent = some home →
    s.analysis.reachable (some b) = true → s.analysis.dominatesBlock home b = true

theorem checks_available (v : Option Value) (b : BlockId) :
    Checks (s.available i v b) fun _ => s.Available v b := by
  unfold available
  split
  · rename_i d
    cases hparent : (s.context.inst d).parent with simp only [hparent]
    | none =>
      refine .congr .pure fun _ => ?_
      simp [Available, hparent]
    | some home =>
      refine .congr (.ite .check .pure) fun _ => ?_
      by_cases hreach : s.analysis.reachable (some b) = true <;>
        simp [Available, hparent, hreach]
  · rename_i hne
    refine .congr .pure fun _ => ?_
    simp only [true_iff]
    exact fun d hv => absurd hv (hne d)

/-- Incoming pairs have values of a type that are available, from the blocks given. -/
structure IncomingWell (t : Ty) (l : List (Option Value × Option Value)) (bs : List BlockId) :
    Prop where
  sources : l.map Prod.snd = bs.map fun b => some (.block b)
  nodup : bs.Nodup
  types : ∀ p ∈ l, s.context.typeOf? p.1 = some t
  available : ∀ p ∈ l, ∀ b, p.2 = some (.block b) → s.Available p.1 b

theorem checks_incoming (t : Ty) (n : Nat) (seen : List BlockId)
    (l : List (Option Value × Option Value)) :
    Checks (s.incoming i t n seen l) fun given => ∃ bs, given = bs.reverse ++ seen ∧
      (∀ b ∈ bs, b ∉ seen) ∧ s.IncomingWell t l bs := by
  induction l generalizing n seen with
  | nil =>
    refine .congr .pure fun given => ?_
    constructor
    · rintro rfl
      exact ⟨[], rfl, by simp, rfl, nodup_nil, by simp, by simp⟩
    · rintro ⟨bs, rfl, _, hwell⟩
      cases bs with
      | nil => rfl
      | cons b bs => cases hwell.sources
  | cons p rest ih =>
    obtain ⟨v, b⟩ := p
    unfold incoming
    cases hb : b.bind Value.block? with
    | none =>
      refine .congr (.seq .check .throw) fun given => ?_
      simp only [and_false, false_iff]
      rintro ⟨bs, _, _, hwell⟩
      cases bs with
      | nil => cases hwell.sources
      | cons b' bs =>
        obtain ⟨hb', _⟩ := List.cons.inj hwell.sources
        simp [show b = some (.block b') from hb', Value.block?] at hb
    | some b' =>
      obtain rfl : b = some (.block b') := by
        cases b with
        | none => cases hb
        | some w => cases w <;> simp_all [Value.block?]
      refine .congr (.seq .check (.seq .check (.seq (s.checks_available i v b')
        (ih (n + 1) (b' :: seen))))) fun given => ?_
      simp only [decide_eq_true_eq, Bool.not_eq_true', contains_eq_mem,
        decide_eq_false_iff_not]
      constructor
      · rintro ⟨htype, hnew, havail, bs, rfl, hfresh, hwell⟩
        refine ⟨b' :: bs, by simp, ?_, ?_, ?_, ?_, ?_⟩
        · intro b hb
          rcases mem_cons.mp hb with rfl | hb
          · exact hnew
          · exact fun hseen => hfresh b hb (.tail _ hseen)
        · rw [map_cons, map_cons, hwell.sources]
        · exact nodup_cons.mpr
            ⟨fun hmem => hfresh b' hmem (.head _), hwell.nodup⟩
        · intro p hp
          rcases mem_cons.mp hp with rfl | hp
          · exact htype
          · exact hwell.types p hp
        · intro p hp b hpb
          rcases mem_cons.mp hp with rfl | hp
          · cases hpb
            exact havail
          · exact hwell.available p hp b hpb
      · rintro ⟨bs, rfl, hfresh, hwell⟩
        cases bs with
        | nil => cases hwell.sources
        | cons b bs =>
          obtain ⟨hb, hsources⟩ := List.cons.inj hwell.sources
          obtain rfl : b' = b := by simpa using hb
          obtain ⟨hnot, hnodup⟩ := nodup_cons.mp hwell.nodup
          refine ⟨hwell.types _ (.head _), hfresh _ (.head _),
            hwell.available _ (.head _) _ rfl, bs, by simp, ?_, hsources, hnodup,
            fun p hp => hwell.types p (.tail _ hp),
            fun p hp => hwell.available p (.tail _ hp)⟩
          intro b₁ hb₁ hseen
          rcases mem_cons.mp hseen with rfl | hseen
          · exact hnot hb₁
          · exact hfresh b₁ (.tail _ hb₁) hseen

/-- A phi has a value of its type for every predecessor of its block and for no other block. -/
structure PhiWell (x : Instruction) : Prop where
  even : x.operands.size % 2 = 0
  nonempty : x.incoming ≠ []
  incoming : ∃ bs, s.IncomingWell x.type x.incoming bs ∧
    ∀ b, b ∈ bs ↔ b ∈ s.analysis.predecessors (some s.block)

theorem checks_phi : Checks (s.phi i x) fun _ => s.PhiWell x := by
  refine .congr (.seq .check (.seq .check (.bind (s.checks_incoming i x.type 0 [] x.incoming)
    fun given => .seq .check .check))) fun _ => ?_
  simp only [decide_eq_true_eq, Bool.not_eq_true', List.isEmpty_iff, filter_eq_nil_iff,
    contains_eq_mem, append_nil, not_mem_nil, not_false_eq_true, implies_true,
    true_and, decide_eq_false_iff_not, Decidable.not_not]
  constructor
  · rintro ⟨heven, hempty, _, ⟨bs, rfl, hwell⟩, hmissing, hextra⟩
    refine ⟨heven, ?_, bs, hwell, fun b => ⟨fun hb => ?_, fun hb => ?_⟩⟩
    · intro hnil
      rw [hnil] at hempty
      cases hempty
    · exact hextra b (mem_reverse.mpr hb)
    · exact mem_reverse.mp (hmissing b hb)
  · rintro ⟨heven, hne, bs, hwell, hpreds⟩
    refine ⟨heven, ?_, _, ⟨bs, rfl, hwell⟩, fun b hb => ?_, fun b hb => ?_⟩
    · cases hincoming : x.incoming with
      | nil => exact absurd hincoming hne
      | cons p l => rfl
    · exact mem_reverse.mpr ((hpreds b).mpr hb)
    · exact (hpreds b).mp (mem_reverse.mp hb)

def CallWell (x : Instruction) : Prop :=
  x.operands.isEmpty = false ∧ ∃ ret params variadic,
    s.typeAt x 0 = some (.pointer (.function ret params variadic)) ∧ x.type = ret ∧
      s.context.checkCall (.function ret params variadic) x.callArgs = .ok ()

theorem checks_call : Checks (s.call i x) fun _ => s.CallWell x := by
  unfold call CallWell
  refine (Checks.check.seq (R := fun _ => ∃ ret params variadic,
    s.typeAt x 0 = some (.pointer (.function ret params variadic)) ∧ x.type = ret ∧
      s.context.checkCall (.function ret params variadic) x.callArgs = .ok ()) ?_).congr
    fun _ => by rw [Bool.not_eq_true']
  dsimp only
  split
  · rename_i ret params variadic ht
    refine .congr (.seq .check .lift) fun _ => ?_
    rw [decide_eq_true_eq]
    constructor
    · rintro ⟨htype, hcall⟩
      exact ⟨ret, params, variadic, ht, htype, hcall⟩
    · rintro ⟨_, _, _, ht', htype, hcall⟩
      cases ht.symm.trans ht'
      exact ⟨htype, hcall⟩
  · rename_i hne
    refine .congr .check fun _ => ?_
    simp only [Bool.false_eq_true, false_iff]
    rintro ⟨ret, params, variadic, ht, _⟩
    exact hne ret params variadic ht

def OperationWell (x : Instruction) : Prop :=
  match x.op with
  | .ret => s.RetWell x
  | .br => x.operands.size = 1 ∧ IsBlock (x.operand 0)
  | .condBr => x.operands.size = 3 ∧ s.typeAt x 0 = some .i1 ∧ IsBlock (x.operand 1) ∧
      IsBlock (x.operand 2)
  | .switch => s.SwitchWell x
  | .int _ => s.BinaryWell x Ty.isInteger
  | .float _ => s.BinaryWell x Ty.isFloat
  | .icmp _ => s.CompareWell x fun t => t.isInteger || t.isPointer
  | .fcmp _ => s.CompareWell x Ty.isFloat
  | .alloca t => s.AllocaWell x t
  | .load => s.LoadWell x
  | .store => s.StoreWell x
  | .gep source _ => s.GepWell x source
  | .cast _ => s.CastWell x
  | .phi => s.PhiWell x
  | .call => s.CallWell x

theorem checks_operation : Checks (s.operation i x) fun _ => s.OperationWell x := by
  unfold operation OperationWell
  cases x.op with
  | ret => exact s.checks_ret i x
  | br =>
    refine .congr (.seq .check (s.checks_label i _)) fun _ => ?_
    simp only [decide_eq_true_eq]
  | condBr =>
    refine .congr (.seq .check (.seq .check (.seq (s.checks_label i _) (s.checks_label i _))))
      fun _ => ?_
    simp only [decide_eq_true_eq]
  | switch => exact s.checks_switch i x
  | int op => exact s.checks_binary i x _ _
  | float op => exact s.checks_binary i x _ _
  | icmp p => exact s.checks_compare i x _ _
  | fcmp p => exact s.checks_compare i x _ _
  | alloca t => exact s.checks_alloca i x t
  | load => exact s.checks_load i x
  | store => exact s.checks_store i x
  | gep source inBounds => exact s.checks_gep i x source
  | cast k => exact s.checks_cast i x
  | phi => exact s.checks_phi i x
  | call => exact s.checks_call i x

/-- An instruction at a position of its block is well formed. -/
structure Well (position : Nat) : Prop where
  live : ∀ v ∈ (s.context.inst i).operands, ∃ w, v = some w ∧ s.Live w
  dominated : (s.context.inst i).isPhi = false → s.Dominated i position
  operation : s.OperationWell (s.context.inst i)

theorem checks_instruction (position : Nat) :
    Checks (s.instruction i position) fun _ => s.Well i position := by
  refine .congr (.seq (s.checks_operands i _) (.ite
    (.seq (s.checks_dominance i position) (s.checks_operation i _)) (s.checks_operation i _)))
      fun _ => ?_
  simp only [Array.mem_toList_iff, Bool.not_eq_true']
  by_cases hphi : (s.context.inst i).isPhi = false
  · rw [if_pos hphi]
    exact ⟨fun ⟨hlive, hdom, hop⟩ => ⟨hlive, fun _ => hdom, hop⟩,
      fun ⟨hlive, hdom, hop⟩ => ⟨hlive, hdom hphi, hop⟩⟩
  · rw [if_neg hphi]
    exact ⟨fun ⟨hlive, hop⟩ => ⟨hlive, fun h => absurd h hphi, hop⟩,
      fun ⟨hlive, _, hop⟩ => ⟨hlive, hop⟩⟩

end Site

end SsaIr
