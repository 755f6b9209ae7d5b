import SsaIr.Proofs.Parse.Coherent

/-!
# Builders make well-typed instructions

What each operation of a builder does when it is not refused: one instruction more in the block of
the builder, with the operands given and the types that its operation asks for. Read `Builder.Emits`
first.
-/

namespace SsaIr

open EStateM Instruction Build Context

variable {args : List (Option Value)} {dest : BlockId} {lhs rhs : Option Value} {t : Option Ty}
  {x y : Instruction}

/-- The instruction is well typed, or returns something of type void. -/
def Context.Built (c : Context) (f : FuncId) (x : Instruction) : Prop :=
  c.Fits f x ∨ x.op = .ret ∧ c.Awaits x

theorem Context.Built.typed {c : Context} {f : FuncId} (h : c.Built f x) : c.Typed f x :=
  h.imp_right And.right

@[simp]
theorem Context.typeOf?_block (c : Context) (b : BlockId) :
    c.typeOf? (some (.block b)) = some .label := by
  rw [typeOf?, Option.bind_some, typeOf]

namespace Builder

/-- An instruction was made of the given operands, which have types, at the end of the block of a
builder, or after the phis there, and is well typed unless it returns something of type void. -/
def Emits (s : Bench) (hint : String) (operands : List (Option Value)) (i : InstId)
    (s' : Bench) : Prop :=
  ∃ block op type e, s.builder.block = some block ∧ s.context.Learned e ∧
    i = ⟨s.context.insts.size⟩ ∧
    s'.builder.block = some block ∧
      s'.context = e.emitted block op (s.builder.resultName type hint) type operands ∧
        (∀ v ∈ operands, (s.context.typeOf? v).isSome = true) ∧
          s.context.Built (s.context.block block).parent
            { op, name := s.builder.resultName type hint, type, parent := some block,
              operands := operands.toArray }

variable {s s' : Bench} {c : Context} {i : InstId} {hint name : String} {v : Option Value}

theorem emits_of_emit {op : Operation} {type : Ty} {operands : List (Option Value)} {e : Context}
    (he : s.context.Learned e) (hops : ∀ v ∈ operands, (s.context.typeOf? v).isSome = true)
    (h : emit op type hint operands ⟨e, s.builder⟩ = .ok i s')
    (hx : ∀ block, s.builder.block = some block → s.context.Built (s.context.block block).parent
      { op, name := s.builder.resultName type hint, type, parent := some block,
        operands := operands.toArray }) :
    Emits s hint operands i s' := by
  cases hb : s.builder.block with
  | none =>
    rw [emit, get_bind_apply, hb] at h
    cases h
  | some block =>
    cases (emit_eq (s := ⟨e, s.builder⟩) hb op type hint operands).symm.trans h
    have hsize : e.insts.size = s.context.insts.size := by
      obtain ⟨_, _, rfl⟩ := he.same
      rfl
    exact ⟨block, op, type, e, hb, he, congrArg InstId.mk hsize, block_counted.trans hb, rfl, hops,
      hx block hb⟩

theorem operandType_bind_eq_ok {α : Type} {what : String} {f : Ty → Building α} {a : α}
    (h : (operandType v what >>= f) s = .ok a s') :
    ∃ t, s.context.typeOf? v = some t ∧ f t s = .ok a s' := by
  obtain ⟨t, s₁, ht, h⟩ := bind_eq_ok_iff.mp h
  rw [operandType, get_bind_apply] at ht
  cases hv : s.context.typeOf? v <;> rw [hv] at ht <;> cases ht
  exact ⟨t, rfl, h⟩

theorem function_bind_eq_ok {α : Type} {f : FuncId → Building α} {a : α}
    (h : (function >>= f) s = .ok a s') :
    ∃ block, s.builder.block = some block ∧ f (s.context.block block).parent s = .ok a s' := by
  obtain ⟨g, s₁, hg, h⟩ := bind_eq_ok_iff.mp h
  rw [function, get_bind_apply] at hg
  cases hb : s.builder.block with rw [hb] at hg
  | none => cases hg
  | some block =>
    cases hg
    exact ⟨block, rfl, h⟩

theorem emits_of_emit_void {op : Operation} {operands : List (Option Value)}
    (hops : ∀ v ∈ operands, (s.context.typeOf? v).isSome = true)
    (h : emit op .void "" operands s = .ok i s')
    (hx : ∀ block, s.builder.block = some block → s.context.Built (s.context.block block).parent
      { op, name := "", type := .void, parent := some block, operands := operands.toArray }) :
    Emits s hint operands i s' := by
  have h : emit op .void hint operands s = .ok i s' := h
  exact emits_of_emit (.refl s.context) hops h hx

theorem ret_emits (h : ret v s = .ok i s') : Emits s hint [v] i s' := by
  obtain ⟨block, hb, h⟩ := function_bind_eq_ok h
  obtain ⟨t, ht, h⟩ := operandType_bind_eq_ok h
  rw [get_bind_apply] at h
  obtain ⟨heq, h⟩ := require_bind_eq_ok_iff.mp h
  have heq := of_decide_eq_true heq
  refine emits_of_emit_void (by simp [ht]) h fun block' hb' => ?_
  cases hb.symm.trans hb'
  by_cases hvoid : t = .void
  · cases v with
    | none => cases ht
    | some v => exact .inr ⟨rfl, v, by simp, hvoid ▸ ht⟩
  · refine .inl fun a b => ?_
    show Site.RetWell _ _
    have hret : (s.context.func (s.context.block block).parent).ret.isVoid = false := by
      rw [← heq]
      cases t <;> first | rfl | exact absurd rfl hvoid
    rw [Site.RetWell, if_neg (by simp [hret])]
    exact ⟨rfl, heq ▸ ht⟩

theorem retVoid_emits (h : retVoid s = .ok i s') : Emits s hint [] i s' := by
  obtain ⟨block, hb, h⟩ := function_bind_eq_ok h
  rw [get_bind_apply] at h
  obtain ⟨hvoid, h⟩ := require_bind_eq_ok_iff.mp h
  refine emits_of_emit_void nofun h fun block' hb' => .inl fun a b => ?_
  cases hb.symm.trans hb'
  show Site.RetWell _ _
  rw [Site.RetWell, if_pos hvoid]
  rfl

theorem br_emits (h : br (some dest) s = .ok i s') :
    Emits s hint [some (.block dest)] i s' := by
  have h : emit .br .void "" [some (.block dest)] s = .ok i s' := h
  exact emits_of_emit_void (by simp) h fun _ _ => .inl fun _ _ => ⟨rfl, dest, rfl⟩

theorem condBr_emits {cond : Option Value} {yes no : BlockId}
    (h : condBr cond (some yes) (some no) s = .ok i s') :
    Emits s hint [cond, some (.block yes), some (.block no)] i s' := by
  obtain ⟨t, ht, h⟩ := operandType_bind_eq_ok h
  rw [get_bind_apply] at h
  obtain ⟨heq, h⟩ := require_bind_eq_ok_iff.mp h
  rw [of_decide_eq_true heq] at ht
  exact emits_of_emit_void (by simp [ht]) h fun _ _ =>
    .inl fun _ _ => ⟨rfl, ht, ⟨yes, rfl⟩, no, rfl⟩

theorem sort_of_typeOf? {t : Ty} {sort : Ty → Bool} (ht : c.typeOf? v = some t)
    (hsort : sort t = true) : ((c.typeOf? v).map sort).getD false = true := by
  rwa [ht]

theorem switch_emits {cond : Option Value} {default : BlockId}
    (h : switch cond (some default) s = .ok i s') :
    Emits s hint [cond, some (.block default)] i s' := by
  obtain ⟨t, ht, h⟩ := operandType_bind_eq_ok h
  rw [get_bind_apply] at h
  obtain ⟨hint, h⟩ := require_bind_eq_ok_iff.mp h
  exact emits_of_emit_void (by simp [ht]) h fun _ _ => .inl fun _ _ =>
    ⟨⟨Nat.le_refl 2, Nat.mod_self 2⟩, sort_of_typeOf? ht hint, ⟨default, rfl⟩, trivial⟩

theorem binary_emits {op : Opcode}
    (h : binary op lhs rhs name s = .ok i s') : Emits s name [lhs, rhs] i s' := by
  obtain ⟨-, h⟩ := require_bind_eq_ok_iff.mp h
  obtain ⟨t, ht, h⟩ := operandType_bind_eq_ok h
  obtain ⟨u, hu, h⟩ := operandType_bind_eq_ok h
  rw [get_bind_apply] at h
  obtain ⟨heq, h⟩ := require_bind_eq_ok_iff.mp h
  have hsame : s.context.typeOf? rhs = s.context.typeOf? lhs := by
    rw [ht, hu, of_decide_eq_true heq]
  split at h
  case h_1 | h_2 =>
    obtain ⟨hsort, h⟩ := require_bind_eq_ok_iff.mp h
    exact emits_of_emit (.refl s.context) (by simp [ht, hu]) h fun _ _ =>
      .inl fun _ _ => ⟨rfl, hsame, sort_of_typeOf? ht hsort, ht.symm⟩
  case h_3 => cases h

theorem icmp_emits {p : Predicate}
    (h : icmp p lhs rhs name s = .ok i s') : Emits s name [lhs, rhs] i s' := by
  cases p with
  | int p =>
    obtain ⟨t, ht, h⟩ := operandType_bind_eq_ok h
    obtain ⟨u, hu, h⟩ := operandType_bind_eq_ok h
    rw [get_bind_apply] at h
    obtain ⟨heq, h⟩ := require_bind_eq_ok_iff.mp h
    obtain ⟨hsort, h⟩ := require_bind_eq_ok_iff.mp h
    exact emits_of_emit (.refl s.context) (by simp [ht, hu]) h fun _ _ => .inl fun _ _ =>
      ⟨rfl, hu.trans (of_decide_eq_true heq ▸ ht.symm), sort_of_typeOf? ht hsort, rfl⟩
  | float | unknown => cases h

theorem fcmp_emits {p : Predicate}
    (h : fcmp p lhs rhs name s = .ok i s') : Emits s name [lhs, rhs] i s' := by
  cases p with
  | float p =>
    obtain ⟨t, ht, h⟩ := operandType_bind_eq_ok h
    obtain ⟨u, hu, h⟩ := operandType_bind_eq_ok h
    rw [get_bind_apply] at h
    obtain ⟨hboth, h⟩ := require_bind_eq_ok_iff.mp h
    rw [Bool.and_eq_true, decide_eq_true_eq] at hboth
    exact emits_of_emit (.refl s.context) (by simp [ht, hu]) h fun _ _ => .inl fun _ _ =>
      ⟨rfl, hu.trans (hboth.1 ▸ ht.symm), sort_of_typeOf? ht hboth.2, rfl⟩
  | int | unknown => cases h

theorem alloca_emits {t : Ty} (h : alloca (some t) name s = .ok i s') : Emits s name [] i s' := by
  obtain ⟨hsized, h⟩ := require_bind_eq_ok_iff.mp h
  obtain ⟨p, c₁, hp, h⟩ := Building.ofBuild_bind_eq_ok_iff.mp h
  obtain ⟨-, rfl, rfl⟩ := pointerTo_eq_ok_iff.mp hp
  exact emits_of_emit (learned_learn _ _) nofun h fun _ _ => .inl fun _ _ => ⟨rfl, hsized, rfl⟩

theorem load_emits {ptr : Option Value} (h : load ptr name s = .ok i s') :
    Emits s name [ptr] i s' := by
  obtain ⟨t, ht, h⟩ := operandType_bind_eq_ok h
  rw [get_bind_apply] at h
  cases hu : t.pointee? <;> rw [hu] at h
  · cases h
  · next u =>
    obtain ⟨hsized, h⟩ := require_bind_eq_ok_iff.mp h
    have hpointee : (s.context.typeOf? ptr).bind Ty.pointee? = some u := by
      rw [ht, Option.bind_some, hu]
    refine emits_of_emit (.refl s.context) (by simp [ht]) h fun _ _ => .inl fun _ _ =>
      ⟨rfl, ?_, hpointee.symm⟩
    show (((s.context.typeOf? ptr).bind Ty.pointee?).map Ty.isSized).getD false = true
    rwa [hpointee]

theorem store_emits {ptr : Option Value} (h : store v ptr s = .ok i s') :
    Emits s hint [v, ptr] i s' := by
  obtain ⟨t, ht, h⟩ := operandType_bind_eq_ok h
  obtain ⟨u, hu, h⟩ := operandType_bind_eq_ok h
  rw [get_bind_apply] at h
  cases hp : u.pointee? <;> rw [hp] at h
  · cases h
  · next p =>
    obtain ⟨heq, h⟩ := require_bind_eq_ok_iff.mp h
    have hpointee : (s.context.typeOf? ptr).bind Ty.pointee? = some p := by
      rw [hu, Option.bind_some, hp]
    refine emits_of_emit_void (by simp [ht, hu]) h fun _ _ => .inl fun _ _ => ⟨rfl, ?_, ?_, rfl⟩
    · show ((s.context.typeOf? ptr).bind Ty.pointee?).isSome = true
      rw [hpointee]
      rfl
    · exact (ht.trans (congrArg some (of_decide_eq_true heq).symm)).trans hpointee.symm

theorem typed_of_elementType {source elem : Option Ty} {indices : List (Option Value)}
    (h : c.elementType source indices = .ok elem) : ∀ v ∈ indices, (c.typeOf? v).isSome = true := by
  cases indices with
  | nil => cases h
  | cons w inner =>
    unfold elementType at h
    dsimp only at h
    split at h
    · cases h
    · next hbad =>
      intro v hv
      have hint := List.findIdx?_eq_none_iff.mp hbad v hv
      cases htype : c.typeOf? v with
      | none => simp [htype] at hint
      | some t => rfl

theorem gep_emits {source : Ty} {base : Option Value} {inBounds : Bool}
    {indices : List (Option Value)}
    (h : gep (some source) base inBounds indices name s = .ok i s') :
    Emits s name (base :: indices) i s' := by
  obtain ⟨t, ht, h⟩ := operandType_bind_eq_ok h
  obtain ⟨hsized, h⟩ := require_bind_eq_ok_iff.mp h
  obtain ⟨p, c₁, hp, h⟩ := Building.ofBuild_bind_eq_ok_iff.mp h
  obtain ⟨-, rfl, rfl⟩ := pointerTo_eq_ok_iff.mp hp
  rw [get_bind_apply] at h
  obtain ⟨hbase, h⟩ := require_bind_eq_ok_iff.mp h
  have hlearned := Context.learned_learn s.context (.pointer source)
  have helement : (s.context.learn (.pointer source)).elementType (some source) indices =
      s.context.elementType (some source) indices := by
    unfold Context.elementType Context.badIndex?
    simp only [hlearned.typeOf?]
  rw [helement] at h
  cases helem : s.context.elementType (some source) indices <;> rw [helem] at h
  · cases h
  · next elem =>
    obtain ⟨q, c₂, hq, h⟩ := Building.ofBuild_bind_eq_ok_iff.mp h
    cases elem with
    | none => cases hq
    | some m =>
      obtain ⟨-, rfl, rfl⟩ := pointerTo_eq_ok_iff.mp hq
      refine emits_of_emit (hlearned.trans (learned_learn _ _))
        (List.forall_mem_cons.mpr ⟨by simp [ht], typed_of_elementType helem⟩) h fun _ _ =>
          .inl fun _ _ =>
          ⟨?_, hsized, ht.trans (congrArg some (of_decide_eq_true hbase)), some m, helem, rfl⟩
      -- An address computation without indices selects nothing.
      cases indices with
      | nil => cases helem
      | cons v indices => simp

theorem cast_emits {op : Opcode}
    (h : cast op v t name s = .ok i s') : Emits s name [v] i s' := by
  obtain ⟨u, hu, h⟩ := operandType_bind_eq_ok h
  cases t with
  | none => cases h
  | some t =>
    obtain ⟨_, c₁, hcheck, h⟩ := bind_eq_ok_iff.mp h
    cases hcast : checkCast op (some u) (some t) <;> rw [hcast] at hcheck <;> cases hcheck
    · split at h
      · refine emits_of_emit (.refl s.context) (by simp [hu]) h fun _ _ => .inl fun _ _ => ⟨rfl, ?_⟩
        exact (congrArg (fun w => checkCast _ w (some t)) hu).trans hcast
      · cases h

theorem phi_emits (h : phi t name s = .ok i s') : Emits s name [] i s' := by
  cases t with
  | none => cases h
  | some t =>
    obtain ⟨-, h⟩ := require_bind_eq_ok_iff.mp h
    exact emits_of_emit (.refl s.context) nofun h fun _ _ => .inl fun _ _ => ⟨rfl, nofun⟩

theorem typed_of_checkArguments {position : Nat} {params : List Ty}
    (h : c.checkArguments position params args = .ok ()) :
    ∀ v ∈ args, (c.typeOf? v).isSome = true := by
  fun_induction checkArguments <;> simp_all

theorem typed_of_checkCall {sig : Ty} (h : c.checkCall sig args = .ok ()) :
    ∀ v ∈ args, (c.typeOf? v).isSome = true := by
  unfold checkCall at h
  dsimp only at h
  split at h
  · cases h
  · exact typed_of_checkArguments h

theorem call_emits {callee : Option Value}
    (h : call callee args name s = .ok i s') : Emits s name (callee :: args) i s' := by
  obtain ⟨t, ht, h⟩ := operandType_bind_eq_ok h
  rw [get_bind_apply] at h
  split at h
  · next r ps v =>
      obtain ⟨_, c₁, hcheck, h⟩ := bind_eq_ok_iff.mp h
      cases hcall : s.context.checkCall (.function r ps v) args <;> rw [hcall]
        at hcheck <;> cases hcheck
      exact emits_of_emit (.refl s.context)
        (List.forall_mem_cons.mpr ⟨by simp [ht], typed_of_checkCall hcall⟩) h
        fun _ _ => .inl fun _ _ => ⟨rfl, r, ps, v, ht, rfl, hcall⟩
  · cases h

end Builder

/-! ## More operands -/

theorem pairs_append {l : List (Option Value)} (hl : l.length % 2 = 0) (v w : Option Value) :
    pairs (l ++ [v, w]) = pairs l ++ [(v, w)] := by
  induction l using pairs.induct with
  | case1 a b rest ih =>
    have hrest : rest.length % 2 = 0 := by
      rw [List.length_cons, List.length_cons] at hl
      omega
    rw [List.cons_append, List.cons_append, pairs, pairs, ih hrest,
      List.cons_append]
  | case2 l hne =>
    cases l with
    | nil => rfl
    | cons a l =>
      cases l with
      | nil => simp at hl
      | cons b l => exact absurd rfl (hne a b l)

theorem Instruction.operand_append {vs : Array (Option Value)}
    (hops : y.operands = x.operands ++ vs) {n : Nat} (hn : n < x.operands.size) :
    y.operand n = x.operand n := by
  have hlt : n < (x.operands ++ vs).size := by
    rw [Array.size_append]
    omega
  rw [operand, hops, operand, Array.getD_of_lt _ hlt, Array.getD_of_lt _ hn,
    Array.getElem_append_left hn]

theorem Instruction.cases_append {v w : Option Value}
    (hops : y.operands = x.operands ++ #[v, w]) (hle : 2 ≤ x.operands.size)
    (heven : x.operands.size % 2 = 0) :
    y.cases = x.cases ++ [(v, w)] := by
  rw [Instruction.cases, hops, Array.toList_append,
    List.drop_append_of_le_length (by simpa using hle)]
  refine pairs_append ?_ _ _
  rw [List.length_drop, Array.length_toList]
  omega

theorem Site.CasesWell.append {seen : List Int64}
    {l : List (Option Value × Option Value)} (h : CasesWell t seen l) {w : IntWidth} {v : Int64}
    (ht : some (.int w) = t) (hseen : v ∉ seen)
    (hl : ∀ p ∈ l, ∀ w', p.1 ≠ some (.const (.int w' v))) (dest : BlockId) :
    CasesWell t seen (l ++ [(some (.const (.int w v)), some (.block dest))]) := by
  induction l generalizing seen with
  | nil => exact ⟨w, v, rfl, ht, ⟨dest, rfl⟩, hseen, trivial⟩
  | cons p l ih =>
    obtain ⟨k, target⟩ := p
    obtain ⟨w', v', hk, ht', htarget, hv', hrest⟩ := h
    refine ⟨w', v', hk, ht', htarget, hv', ih hrest ?_ fun q hq => hl q (.tail _ hq)⟩
    rintro (_ | ⟨_, hmem⟩)
    · exact hl _ (.head _) w' hk
    · exact hseen ‹_›

theorem Context.Typed.append {c : Context} {f : FuncId} {vs : Array (Option Value)}
    (h : c.Typed f x) (hops : y.operands = x.operands ++ vs) (hfits : c.Fits f x → c.Fits f y) :
    c.Typed f y := by
  refine h.imp hfits fun ⟨v, hv, hvoid⟩ => ⟨v, ?_, hvoid⟩
  rw [hops]
  exact Array.mem_append_left _ hv

namespace Build

variable {c d : Context} {i : InstId} {f : FuncId}

theorem addCase_eq_ok {k : Const} {u : Unit}
    (h : addCase i (some k) (some dest) c = .ok u d) :
    d = c.addOperands i [some (.const k), some (.block dest)] ∧ (c.inst i).op = .switch ∧
      ∀ {w v}, k = .int w v → ∀ y : Instruction, y.op = (c.inst i).op → y.type = (c.inst i).type →
        y.operands = (c.inst i).operands ++ #[some (.const k), some (.block dest)] →
          c.Fits f (c.inst i) → c.Fits f y := by
  rw [addCase, get_bind_apply] at h
  obtain ⟨hop, h⟩ := require_bind_eq_ok_iff.mp h
  obtain ⟨htype, h⟩ := require_bind_eq_ok_iff.mp h
  obtain ⟨htaken, h⟩ := require_bind_eq_ok_iff.mp h
  cases h
  have hop := of_decide_eq_true hop
  refine ⟨rfl, hop, fun {w v} hk y hyop hytype hops hx a b => ?_⟩
  subst hk
  have hx := hx a b
  unfold Site.OperationTyped Site.OperationWell at hx ⊢
  rw [hyop]
  simp only [hop] at hx ⊢
  obtain ⟨⟨hle, heven⟩, hint, hdefault, hcases⟩ := hx
  have hsize : y.operands.size = (c.inst i).operands.size + 2 := by
    rw [hops, Array.size_append]
    rfl
  have htypeAt : Site.typeAt ⟨c, f, a, b⟩ y 0 = Site.typeAt ⟨c, f, a, b⟩ (c.inst i) 0 := by
    rw [Site.typeAt, Site.typeAt, operand_append hops (by omega)]
  refine ⟨⟨by omega, by omega⟩, htypeAt ▸ hint, ?_, ?_⟩
  · rwa [operand_append hops (by omega)]
  · rw [cases_append hops hle heven, htypeAt]
    refine hcases.append (of_decide_eq_true htype) List.not_mem_nil (fun p hp w' hk => ?_) dest
    -- A case with the same value would have been refused.
    rw [Bool.not_eq_true', List.any_eq_false] at htaken
    have hp := htaken p hp
    rw [hk] at hp
    simp [sameCase, Const.isInt, Const.intValue] at hp

theorem addIncoming_eq_ok {v : Value} {u : Unit}
    (h : addIncoming i (some v) (some dest) c = .ok u d) :
    d = c.addOperands i [some v, some (.block dest)] ∧ (c.inst i).op = .phi ∧
      c.typeOf v = some (c.inst i).type ∧ ∀ y : Instruction,
      y.op = (c.inst i).op → y.type = (c.inst i).type →
        y.operands = (c.inst i).operands ++ #[some v, some (.block dest)] →
          c.Fits f (c.inst i) → c.Fits f y := by
  rw [addIncoming, get_bind_apply] at h
  obtain ⟨hphi, h⟩ := require_bind_eq_ok_iff.mp h
  obtain ⟨htype, h⟩ := require_bind_eq_ok_iff.mp h
  cases h
  have hop := isPhi_iff.mp hphi
  refine ⟨rfl, hop, of_decide_eq_true htype, fun y hyop hytype hops hx a b => ?_⟩
  have hx := hx a b
  unfold Site.OperationTyped at hx ⊢
  rw [hyop]
  simp only [hop] at hx ⊢
  obtain ⟨heven, hpairs⟩ := hx
  have hincoming : y.incoming = (c.inst i).incoming ++ [(some v, some (.block dest))] := by
    rw [incoming, hops, Array.toList_append]
    refine pairs_append ?_ _ _
    rwa [Array.length_toList]
  refine ⟨?_, fun p hp => ?_⟩
  · have hsize : y.operands.size = (c.inst i).operands.size + 2 := by
      rw [hops, Array.size_append]
      rfl
    omega
  · rw [hincoming] at hp
    rw [hytype]
    rcases List.mem_append.mp hp with hp | hp
    · exact hpairs p hp
    · rw [List.mem_singleton.mp hp]
      exact ⟨of_decide_eq_true htype, dest, rfl⟩

end Build

end SsaIr
