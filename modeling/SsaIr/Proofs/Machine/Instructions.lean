import SsaIr.Proofs.Machine.Frames

/-!
# What instructions do in verified functions

The instruction at the position of a steady frame finds its operands, computes a result that fits
its type, and leads on to a steady frame, to a block that control may pass to, to a result that fits
the function, or to a call that fits the function called. Read `Effect.Follows` first, then
`Frame.run_meets`.
-/

namespace SsaIr

open Instruction

variable {c : Context} {n : Nat} {v : Option Value}

/-- No store of the module stores the result of an instruction that has none. -/
def Context.StoresValues (c : Context) (m : ModuleId) : Prop :=
  ∀ f ∈ (c.module m).functions, ∀ b ∈ (c.func f).blocks, ∀ i ∈ (c.block b).insts,
    (c.inst i).op = .store → c.typeOf? ((c.inst i).operand 0) ≠ some .void

/-- How control may go on from a steady frame after an instruction. -/
def Effect.Follows (c : Context) (m : ModuleId) (f : FuncId) (a : FlowAnalysis)
    (good : RuntimeValue → Prop) (fr : Frame) (i : InstId) : Effect → Prop
  | .advance fr' => Frame.Steady c f a good { fr' with position := fr'.position + 1 }
  | .jump w => (c.inst i).isTerminator = true ∧ c.Passes f fr.block w
  | .leave v => v.Fits good (c.func f).ret
  | .call g args =>
    c.Takes m good g args ∧ (c.func g).ret = (c.inst i).type ∧ (c.inst i).isTerminator = false

namespace Ty

variable {t : Ty}

def Plain (t : Ty) : Prop := t ≠ void ∧ t ≠ label

theorem plain_of_isSized (h : t.isSized = true) : t.Plain :=
  ⟨ne_void_of_isSized h, ne_label_of_isSized h⟩

theorem plain_of_isPrimitive (h : t.isPrimitive = true) : t.Plain := by
  constructor <;> rintro rfl <;> exact absurd h (by decide)

theorem plain_of_isInteger (h : t.isInteger = true) : t.Plain :=
  plain_of_isPrimitive (by simp [isPrimitive, h])

theorem plain_of_isFloat (h : t.isFloat = true) : t.Plain :=
  plain_of_isPrimitive (by simp [isPrimitive, h])

theorem plain_pointer (t : Ty) : (pointer t).Plain := ⟨nofun, nofun⟩

theorem plain_of_checkCast {op : CastOp} {target : Option Ty}
    (h : checkCast (.cast op) (some t) target = .ok ()) : t.Plain := by
  apply plain_of_isPrimitive
  cases target with
  | none => cases h
  | some u =>
    by_contra hnot
    cases op <;> simp_all [checkCast, isPrimitive]

end Ty

theorem Instruction.exists_slot {x : Instruction} (hv : v ∈ x.operands) :
    ∃ n < x.operands.size, x.operand n = v := by
  obtain ⟨n, hn, rfl⟩ := Array.mem_iff_getElem.mp hv
  exact ⟨n, hn, Array.getD_of_lt _ hn _⟩

theorem Instruction.operand_mem {x : Instruction} (hn : n < x.operands.size) :
    x.operand n ∈ x.operands := by
  rw [operand, Array.getD_of_lt _ hn]
  exact Array.getElem_mem hn

theorem Context.isInteger_of_elementType {source elem : Option Ty}
    {indices : List (Option Value)} (h : c.elementType source indices = .ok elem)
    (hv : v ∈ indices) {t : Ty} (ht : c.typeOf? v = some t) : t.isInteger = true := by
  unfold Context.elementType at h
  split at h
  · cases h
  · split at h
    · cases h
    · rename_i hbad
      have hint := List.findIdx?_eq_none_iff.mp hbad v hv
      rw [ht] at hint
      simpa using hint

namespace Site

variable {s : Site} {x : Instruction}

theorem plain_of_two {sort : Ty → Bool} (hsort : ∀ t, sort t = true → t.Plain)
    (hsize : x.operands.size = 2) (hsame : s.typeAt x 1 = s.typeAt x 0)
    (htype : ((s.typeAt x 0).map sort).getD false = true)
    (hv : v ∈ x.operands) {t : Ty} (ht : s.context.typeOf? v = some t) : t.Plain := by
  obtain ⟨n, hn, rfl⟩ := exists_slot hv
  have hat : s.typeAt x 0 = some t := by
    match n, hsize ▸ hn with
    | 0, _ => exact ht
    | 1, _ => exact hsame.symm.trans ht
  rw [hat] at htype
  exact hsort t htype

/-- Which operations compute a result from their operands. -/
def Computes : Operation → Prop
  | .int _ | .float _ | .icmp _ | .fcmp _ | .cast _ | .load | .store | .gep .. => True
  | _ => False

theorem plain_operands (hx : s.OperationWell x) (hcomputes : Computes x.op)
    (hstore : x.op = .store → ∀ t, s.typeAt x 0 = some t → t.Plain)
    (hv : v ∈ x.operands) {t : Ty} (ht : s.context.typeOf? v = some t) : t.Plain := by
  unfold OperationWell at hx
  split at hx <;> rename_i hop <;> rw [hop] at hcomputes hstore
  case h_5 => exact plain_of_two (fun _ => Ty.plain_of_isInteger) hx.1 hx.2.1 hx.2.2.1 hv ht
  case h_6 => exact plain_of_two (fun _ => Ty.plain_of_isFloat) hx.1 hx.2.1 hx.2.2.1 hv ht
  case h_7 =>
    refine plain_of_two (fun t h => Ty.plain_of_isPrimitive ?_) hx.1 hx.2.1 hx.2.2.1 hv ht
    rcases Bool.or_eq_true_iff.mp h with h | h <;> simp [Ty.isPrimitive, h]
  case h_8 => exact plain_of_two (fun _ => Ty.plain_of_isFloat) hx.1 hx.2.1 hx.2.2.1 hv ht
  case h_10 =>
    obtain ⟨n, hn, rfl⟩ := Instruction.exists_slot hv
    obtain rfl : n = 0 := by have := hx.1; omega
    have hsized := hx.2.1
    rw [show s.typeAt x 0 = some t from ht] at hsized
    cases t <;> first | exact Ty.plain_pointer _ | cases hsized
  case h_11 =>
    obtain ⟨n, hn, rfl⟩ := Instruction.exists_slot hv
    match n, hx.1 ▸ hn with
    | 0, _ => exact hstore rfl t ht
    | 1, _ =>
      have hpointee := hx.2.1
      rw [show s.typeAt x 1 = some t from ht] at hpointee
      cases t <;> first | exact Ty.plain_pointer _ | cases hpointee
  case h_12 source _ =>
    obtain ⟨n, hn, rfl⟩ := Instruction.exists_slot hv
    obtain ⟨-, -, hpointer, elem, helem, -⟩ := hx
    cases n with
    | zero =>
      cases hpointer.symm.trans ht
      exact Ty.plain_pointer _
    | succ n =>
      have hmem : x.operand (n + 1) ∈ x.operands.toList.drop 1 := by
        rw [List.mem_drop_iff_getElem]
        refine ⟨n, by rw [Array.length_toList]; omega, ?_⟩
        rw [Array.getElem_toList, Instruction.operand, Array.getD_of_lt _ hn]
        simp only [Nat.add_comm]
      exact Ty.plain_of_isInteger (Context.isInteger_of_elementType helem hmem ht)
  case h_13 op =>
    obtain ⟨n, hn, rfl⟩ := Instruction.exists_slot hv
    obtain rfl : n = 0 := by have := hx.1; omega
    have hcast := hx.2
    rw [show s.typeAt x 0 = some t from ht, hop] at hcast
    exact Ty.plain_of_checkCast hcast
  all_goals exact hcomputes.elim

end Site

namespace Context

theorem checkArguments_ok {params : List Ty} {args : List (Option Value)}
    (h : c.checkArguments n params args = .ok ()) {k : Nat}
    (hv : args[k]? = some v) : ∃ t, c.typeOf? v = some t ∧
      (params[k]? = some t ∨ params[k]? = none ∧ t.isPrimitive = true) := by
  induction args generalizing n params k with
  | nil => cases hv
  | cons u args ih =>
    unfold checkArguments at h
    split at h
    · cases h
    · rename_i t ht
      split at h
      · split at h
        · rename_i heq
          cases k with
          | zero =>
            cases hv
            exact ⟨t, ht, .inl (by rw [heq]; rfl)⟩
          | succ k => exact ih h hv
        · cases h
      · split at h
        · rename_i hprim
          cases k with
          | zero =>
            cases hv
            exact ⟨t, ht, .inr ⟨rfl, hprim⟩⟩
          | succ k =>
            obtain ⟨t', ht', hor⟩ := ih h hv
            exact ⟨t', ht', hor⟩
        · cases h

theorem checkCall_ok {sig : Ty} {args : List (Option Value)}
    (h : c.checkCall sig args = .ok ()) : sig.params.length ≤ args.length ∧
      c.checkArguments 0 sig.params args = .ok () := by
  unfold checkCall at h
  dsimp only at h
  split at h
  · cases h
  · rename_i hcount
    simp only [Bool.or_eq_true, decide_eq_true_eq, not_or, Nat.not_lt] at hcount
    exact ⟨hcount.1, h⟩

end Context

namespace Arithmetic

theorem intBinary_error {op : IntOp} {w : IntWidth} {a b : RuntimeValue} {e : FaultCause}
    (h : intBinary op w a b = .error e) : e = .integerDivision op := by
  unfold intBinary at h
  cases hr : intResult op a b with rw [hr] at h
  | ok v => cases h
  | error e' =>
    cases h
    unfold intResult at hr
    cases op <;> simp only at hr <;> first | (split at hr <;> cases hr; rfl) | cases hr

theorem floatBinary_error {op : FloatOp} {w : FloatWidth} {a b : RuntimeValue} {e : FaultCause}
    (h : floatBinary op w a b = .error e) : e = .floatDivision := by
  unfold floatBinary at h
  cases op <;> simp only at h <;> first | (split at h <;> cases h; rfl) | cases h

end Arithmetic

namespace Frame

open Access
open EStateM (Meets)

variable {env : Environment} {m : ModuleId} {f : FuncId} {a : FlowAnalysis}
  {good : RuntimeValue → Prop} {fr : Frame} {i : InstId}

/-- What is known of a frame of a verified function and of the instruction at its position. -/
structure Ready (env : Environment) (m : ModuleId) (f : FuncId) (a : FlowAnalysis)
    (good : RuntimeValue → Prop) (fr : Frame) (i : InstId) : Prop where
  canonical : ∀ v : RuntimeValue, v.Canonical → good v
  accepted : env.context.Accepted m
  mem : f ∈ (env.context.module m).functions
  checked : env.context.Vetted f a
  steady : fr.Steady env.context f a good
  get : (env.context.block fr.block).insts[fr.position]? = some i

/-- What is run stops only as it may, and leads on from the frame. -/
abbrev Proceeds (env : Environment) (m : ModuleId) (f : FuncId) (a : FlowAnalysis)
    (good : RuntimeValue → Prop) (fr : Frame) (i : InstId) (p : Prop) (x : Access Effect) : Prop :=
  Meets (Named env.context m) (Stop.Tame p) x (Effect.Follows env.context m f a good fr i)

theorem forall₂_head {α : Type} {R : α → RuntimeValue → Prop} {l : List α}
    {rs : List RuntimeValue} (h : List.Forall₂ R l rs) {v : α} (hv : l[0]? = some v) :
    R v (rs.headD .undef) := by
  cases h with
  | nil => cases hv
  | cons hr _ =>
    cases hv
    exact hr

namespace Ready

variable (h : Ready env m f a good fr i) {p : Prop} {t : Ty}
include h

theorem well : Verify.InstructionWell ⟨env.context, f, a, fr.block⟩ true 0
      (env.context.block fr.block).insts.toList fr.position i :=
  h.checked.instruction_at h.steady.block_mem h.get

theorem operation :
    Site.OperationWell ⟨env.context, f, a, fr.block⟩ (env.context.inst i) := h.well.well.operation

theorem isPhi : (env.context.inst i).isPhi = false :=
  h.checked.isPhi_of_past h.steady.block_mem h.get h.steady.phis_le

theorem fits_undef (t : Ty) : RuntimeValue.undef.Fits good t :=
  ⟨RuntimeValue.suits_undef t, h.canonical _ RuntimeValue.canonical_undef⟩

theorem operand (hv : v ∈ (env.context.inst i).operands)
    (hplain : p → ∀ t, env.context.typeOf? v = some t → t.Plain) :
    Meets (Named env.context m) (Stop.Tame p) (fr.value env v) fun r =>
      ∃ t, env.context.typeOf? v = some t ∧ r.Fits good t := by
  obtain ⟨w, rfl, hlive⟩ := h.well.well.live v hv
  have htype : ∃ t, env.context.typeOf w = some t := by
    cases w with
    | const k => exact ⟨_, rfl⟩
    | arg x => exact Option.isSome_iff_exists.mp hlive.1
    | inst d => exact ⟨_, rfl⟩
    | block b => exact ⟨_, rfl⟩
    | func g =>
      obtain ⟨sig, hsig⟩ := Option.isSome_iff_exists.mp hlive.1
      exact ⟨sig.pointer, congrArg (Option.map Ty.pointer) hsig⟩
    | global g => exact ⟨_, rfl⟩
  obtain ⟨t, ht⟩ := htype
  refine .mono (value_meets h.canonical h.accepted h.mem h.checked h.steady hlive ht
    (fun hp => hplain hp t ht) ?_) fun r hr => ⟨t, ht, hr⟩
  rintro d rfl
  have hdef := h.well.well.dominated h.isPhi h.steady.reachable d hv
  rwa [Nat.zero_add] at hdef

theorem operand_of_type (hn : n < (env.context.inst i).operands.size)
    (ht : env.context.typeOf? ((env.context.inst i).operand n) = some t) (hplain : t.Plain) :
    Meets (Named env.context m) (Stop.Tame p) (fr.value env ((env.context.inst i).operand n))
      (RuntimeValue.Fits good t) := by
  refine .mono (h.operand (operand_mem hn) fun _ u hu => ?_) fun r hr => ?_
  · rwa [Option.some.inj (hu.symm.trans ht)]
  · obtain ⟨u, hu, hr⟩ := hr
    rwa [Option.some.inj (hu.symm.trans ht)] at hr

theorem jump (hterm : (env.context.inst i).isTerminator = true)
    (hblock : Site.IsBlock ((env.context.inst i).operand n))
    (htarget : (env.context.inst i).operand n ∈ (env.context.inst i).targetOperands) :
    Proceeds env m f a good fr i p (Frame.target (env.context.inst i) n) := by
  obtain ⟨w, hw⟩ := hblock
  unfold Frame.target
  rw [hw] at htarget ⊢
  exact .pure ⟨hterm, h.checked.passes_target h.steady.block_mem h.get hterm htarget⟩

theorem select (hop : (env.context.inst i).op = .switch) (bits : UInt64)
    {l : List (Option Value × Option Value)} {t : Option Ty} {seen : List Int64}
    (hl : Site.CasesWell t seen l) (hsub : ∀ q ∈ l, q ∈ (env.context.inst i).cases) :
    Proceeds env m f a good fr i p (fr.select (env.context.inst i) bits l) := by
  have hterm : (env.context.inst i).isTerminator = true := by
    rw [isTerminator, hop]
    rfl
  have htargets : (env.context.inst i).targetOperands =
      (env.context.inst i).operand 1 :: (env.context.inst i).cases.map (·.2) := by
    rw [targetOperands, hop]
  induction l generalizing seen with
  | nil =>
    have hwell := h.operation
    rw [Site.OperationWell, hop] at hwell
    exact h.jump hterm hwell.2.2.1 (by rw [htargets]; exact List.mem_cons_self)
  | cons q l ih =>
    obtain ⟨k, dest⟩ := q
    obtain ⟨w, v, rfl, -, ⟨b, rfl⟩, -, hrest⟩ := hl
    unfold Frame.select
    dsimp only
    split
    · refine .pure ⟨hterm, h.checked.passes_target h.steady.block_mem h.get hterm ?_⟩
      rw [htargets]
      exact List.mem_cons_of_mem _ (List.mem_map_of_mem (hsub _ List.mem_cons_self))
    · exact ih hrest fun q hq => hsub q (List.mem_cons_of_mem _ hq)

theorem advance (hterm : (env.context.inst i).isTerminator = false) {v : RuntimeValue}
    (hv : v.Fits good (env.context.inst i).type) :
    Proceeds env m f a good fr i p (Pure.pure (.advance (fr.bind i v))) :=
  .pure (h.steady.bind h.checked h.get hterm hv)

theorem computed (hterm : (env.context.inst i).isTerminator = false)
    {r : Except FaultCause RuntimeValue}
    (hok : ∀ v, r = .ok v → v.kind = .ofType (env.context.inst i).type ∧ v.Canonical)
    (herror : ∀ e, r = .error e → (∀ k t, e ≠ .storeKind k t) ∧ ¬ e.IsStuck) :
    Proceeds env m f a good fr i p (fr.computed i r) := by
  cases r with
  | ok v =>
    obtain ⟨hkind, hcanonical⟩ := hok v rfl
    exact h.advance hterm ⟨.inr hkind, h.canonical v hcanonical⟩
  | error e => exact .throw (Stop.tame_raise (herror e rfl).1 (herror e rfl).2)

theorem stored_ne_label (hop : (env.context.inst i).op = .store)
    (ht : env.context.typeOf? ((env.context.inst i).operand 0) = some t) : t ≠ .label := by
  have hwell := h.operation
  rw [Site.OperationWell, hop] at hwell
  obtain ⟨hsize, -, hpointee, -⟩ := hwell
  have hsize : 1 < (env.context.inst i).operands.size := by
    rw [show (env.context.inst i).operands.size = 2 from hsize]
    decide
  obtain ⟨u, hu, hut⟩ := Option.bind_eq_some_iff.mp (hpointee.symm.trans ht)
  obtain ⟨w, hw, hwu⟩ := Option.bind_eq_some_iff.mp hu
  cases u <;> cases hut
  exact Ty.ne_label_of_pointer
    (h.accepted.regular.operand (hw ▸ operand_mem hsize) hwu)

theorem compute (hcomputes : Site.Computes (env.context.inst i).op) {ops : List RuntimeValue}
    (hops : List.Forall₂ (fun v r => ∃ t, env.context.typeOf? v = some t ∧ r.Fits good t)
      (env.context.inst i).operands.toList ops) :
    Proceeds env m f a good fr i p (fr.compute env i (env.context.inst i) ops) := by
  have hwell := h.operation
  have hterm : (env.context.inst i).isTerminator = false := by
    rw [Instruction.isTerminator]
    revert hcomputes
    cases (env.context.inst i).op <;> first | exact fun _ => rfl | exact False.elim
  unfold Site.OperationWell at hwell
  unfold Frame.compute
  split at hwell <;> rename_i hop <;> rw [hop] at hcomputes <;> simp only [hop]
  case h_5 op =>
    obtain ⟨-, -, hsort, htype⟩ := hwell
    rw [← htype] at hsort
    obtain ⟨w, hw⟩ := Arithmetic.exists_int (by simpa using hsort)
    simp only [hw]
    refine h.computed hterm (fun v hv => ?_) fun e he => ?_
    · rw [hw]
      exact Arithmetic.intBinary_ok hv
    · rw [Arithmetic.intBinary_error he]
      exact ⟨nofun, id⟩
  case h_6 op =>
    obtain ⟨-, -, hsort, htype⟩ := hwell
    rw [← htype] at hsort
    obtain ⟨w, hw⟩ := Arithmetic.exists_float (by simpa using hsort)
    simp only [hw]
    refine h.computed hterm (fun v hv => ?_) fun e he => ?_
    · rw [hw]
      exact Arithmetic.floatBinary_ok hv
    · rw [Arithmetic.floatBinary_error he]
      exact ⟨nofun, id⟩
  case h_7 | h_8 =>
    refine h.computed hterm (fun v hv => ?_) nofun
    cases hv
    rw [hwell.2.2.2]
    exact ⟨rfl, RuntimeValue.canonical_ofBool _⟩
  case h_10 =>
    refine .bind .get fun s _ => .bind (ofExcept_meets (fun v hv => hv) fun e he => ?_)
      fun v hv => ?_
    · exact Space.load_tame he
    · obtain ⟨hkind, hcanonical⟩ := Space.load_ok hv
      exact h.advance hterm ⟨.inr hkind, h.canonical v hcanonical⟩
  case h_11 =>
    have hsize := hwell.1
    split
    · exact .throw (Stop.tame_breakdown _)
    · rename_i t ht
      refine .bind (store_meets ?_) fun _ _ => .pure ?_
      · -- The value stored is that of the first operand.
        obtain ⟨u, hu, hfits⟩ := forall₂_head hops (v := (env.context.inst i).operand 0) (by
          rw [Array.getElem?_toList, Instruction.operand, Array.getD_of_lt _ (by omega),
            Array.getElem?_eq_getElem])
        rw [Option.some.inj (ht.symm.trans hu)]
        exact hfits.1
      · exact h.steady.skip h.checked h.get hterm (Ty.isVoid_iff.mp hwell.2.2.2)
  case h_12 source _ =>
    refine .bind (ofBreakdown_meets _) fun q _ => ?_
    obtain ⟨-, -, -, elem, -, htype⟩ := hwell
    refine h.advance hterm ⟨.inr ?_, h.canonical _ trivial⟩
    rw [htype]
    rfl
  case h_13 op =>
    have hcast : checkCast (.cast op) (env.context.typeOf? ((env.context.inst i).operand 0))
        (some (env.context.inst i).type) = .ok () := by
      have hcast := hwell.2
      rwa [hop] at hcast
    obtain ⟨s, hs⟩ : ∃ s, env.context.typeOf? ((env.context.inst i).operand 0) = some s := by
      cases hs : env.context.typeOf? ((env.context.inst i).operand 0) with
      | some s => exact ⟨s, rfl⟩
      | none => rw [hs] at hcast; cases hcast
    rw [hs] at hcast
    obtain ⟨r, hr, hkind, hcanonical⟩ := Arithmetic.cast_ok hcast (ops.headD .undef)
      (env.context.typeOf? ((env.context.inst i).operand 0))
    refine h.computed hterm (fun v hv => ?_) fun e he => ?_
    · cases hr.symm.trans hv
      exact ⟨hkind, hcanonical⟩
    · cases hr.symm.trans he
  all_goals exact hcomputes.elim

theorem alloca (hop : (env.context.inst i).op = .alloca t) :
    Proceeds env m f a good fr i p (fr.alloca env i t) := by
  have hwell := h.operation
  rw [Site.OperationWell, hop] at hwell
  refine .bind (ofBreakdown_meets _) fun e _ => .bind (onArena_meets _ _) fun x _ => ?_
  obtain ⟨r, stack⟩ := x
  dsimp only
  split
  · refine .pure ((h.steady.withStack stack).bind h.checked h.get ?_ ⟨.inr ?_, ?_⟩)
    · rw [isTerminator, hop]
      rfl
    · rw [hwell.2.2.1]
      rfl
    · exact h.canonical _ trivial
  · refine .bind (.modify fun s hs => hs.congr rfl) fun _ _ => ?_
    split
    · exact .throw (Stop.tame_raise (by simp) id)
    · exact .throw (Stop.tame_ofAllocation _)

theorem callee (hop : (env.context.inst i).op = .call) {sig : Ty}
    (hsig : env.context.typeOf? ((env.context.inst i).operand 0) = some (.pointer sig))
    (hsize : 0 < (env.context.inst i).operands.size) :
    Meets (Named env.context m) (Stop.Tame p) (fr.callee env (env.context.inst i)) fun g =>
      g ∈ (env.context.module m).functions ∧ (env.context.func g).signature = some sig := by
  have hcallee : (env.context.inst i).callee = (env.context.inst i).operand 0 := by
    rw [Instruction.callee, hop]
  unfold Frame.callee
  rw [hcallee]
  split
  · rename_i g hg
    refine .pure ⟨?_, ?_⟩
    · obtain ⟨w, hw, hlive⟩ := h.well.well.live _ (Instruction.operand_mem hsize)
      rw [hg] at hw
      cases hw
      exact h.accepted.func_mem h.mem hlive
    · rw [hg] at hsig
      obtain ⟨s, hs, hpointer⟩ := Option.map_eq_some_iff.mp hsig
      cases hpointer
      exact hs
  · refine .bind (h.operand_of_type hsize hsig (Ty.plain_pointer _)) fun r _ =>
      .bind (functionAtAddress_meets _) fun g hg => ?_
    rw [hsig]
    dsimp only
    split
    · exact .throw (Stop.tame_raise nofun id)
    · rename_i hsame
      exact .pure ⟨hg, of_not_not hsame⟩

theorem call (hop : (env.context.inst i).op = .call) : Proceeds env m f a good fr i p (do
      let g ← fr.callee env (env.context.inst i)
      let args ← fr.operands env (env.context.inst i).callArgs return .call g args) := by
  have hwell := h.operation
  rw [Site.OperationWell, hop] at hwell
  obtain ⟨hnonempty, ret, params, variadic, hsig, htype, hcall⟩ := hwell
  have hsize : 0 < (env.context.inst i).operands.size := by
    rw [Nat.pos_iff_ne_zero]
    exact fun hzero => by simp [Array.isEmpty, hzero] at hnonempty
  obtain ⟨hcount, hargs⟩ := Context.checkCall_ok hcall
  have hcallArgs : ∀ v ∈ (env.context.inst i).callArgs, v ∈ (env.context.inst i).operands := by
    intro v hv
    rw [callArgs, hop] at hv
    exact Array.mem_toList_iff.mp (List.mem_of_mem_drop hv)
  have hsized : ∀ t ∈ params, t.isSized = true := by
    intro t ht
    obtain ⟨w, hw, hwt⟩ := Option.bind_eq_some_iff.mp hsig
    exact Ty.isSized_of_params
      (h.accepted.regular.operand (hw ▸ operand_mem hsize) hwt) ht
  refine .bind (h.callee hop hsig hsize) fun g hg =>
    .bind (operands_meets _ fun v hv => h.operand (hcallArgs v hv) fun _ t ht => ?_)
      fun rs hrs => .pure ?_
  · obtain ⟨k, hk⟩ := List.mem_iff_getElem?.mp hv
    obtain ⟨u, hu, hor⟩ := Context.checkArguments_ok hargs hk
    rw [Option.some.inj (ht.symm.trans hu)]
    rcases hor with hparam | ⟨-, hprim⟩
    · exact Ty.plain_of_isSized (hsized u (List.mem_of_getElem? hparam))
    · exact Ty.plain_of_isPrimitive hprim
  · obtain ⟨hmem, hgsig⟩ := hg
    have hlength := hrs.length_eq
    have hget : ∀ {k : Nat} {r}, rs[k]? = some r → ∃ v t,
      (env.context.inst i).callArgs[k]? = some v ∧
        env.context.typeOf? v = some t ∧ r.Fits good t := by
      intro k r hr
      obtain ⟨hlt, hr⟩ := List.getElem?_eq_some_iff.mp hr
      obtain ⟨t, ht, hfits⟩ := List.forall₂_iff_get.mp hrs |>.2 k (hlength ▸ hlt) hlt
      exact ⟨_, t, List.getElem?_eq_getElem (hlength ▸ hlt), ht, by simpa [← hr] using hfits⟩
    refine ⟨⟨hmem, ?_, ?_, ?_⟩, ?_, ?_⟩
    · intro sig hs
      cases hgsig.symm.trans hs
      rwa [← hlength]
    · intro sig k t r hs ht hr
      cases hgsig.symm.trans hs
      obtain ⟨v, u, hv, hu, hfits⟩ := hget hr
      obtain ⟨u', hu', hor⟩ := Context.checkArguments_ok hargs hv
      cases hu.symm.trans hu'
      rcases hor with hparam | ⟨hnone, -⟩
      · rw [Option.some.inj (ht.symm.trans hparam)]
        exact hfits.1
      · cases hnone.symm.trans ht
    · intro r hr
      obtain ⟨k, hk⟩ := List.mem_iff_getElem?.mp hr
      obtain ⟨v, t, -, -, hfits⟩ := hget hk
      exact hfits.2
    · obtain ⟨sig, hhead⟩ := (h.accepted.well.functions g hmem).2.head
      cases hgsig.symm.trans hhead.signature
      rw [htype]
      exact (Option.some.inj hhead.ret).symm
    · rw [isTerminator, hop]
      rfl

theorem ret (hop : (env.context.inst i).op = .ret) : Proceeds env m f a good fr i p
      (if (env.context.inst i).operands.isEmpty then return .leave .undef
        else return .leave (← fr.value env ((env.context.inst i).operand 0))) := by
  have hwell := h.operation
  rw [Site.OperationWell, hop] at hwell
  split
  · exact .pure (h.fits_undef _)
  · rename_i hnonempty
    unfold Site.RetWell at hwell
    dsimp only at hwell
    split at hwell
    · exact absurd hwell hnonempty
    · rename_i hvoid
      refine .bind (h.operand_of_type (by omega) hwell.2 ⟨?_, ?_⟩) fun r hr => .pure hr
      · exact fun heq => hvoid (Ty.isVoid_iff.mpr heq)
      · -- A function returns no label.
        intro heq
        have hret := (h.accepted.regular.func f).returnable
        rw [heq] at hret
        cases hret

end Ready

/-- The instruction at the position of a steady frame does not get stuck, apart from storing what
has no result, and what it does fits. -/
theorem run_meets (h : Ready env m f a good fr i) :
    Meets (Named env.context m) (Stop.Tame (env.context.StoresValues m)) (fr.run env i)
      (Effect.Follows env.context m f a good fr i) := by
  have hwell := h.operation
  have hcomputes : Site.Computes (env.context.inst i).op →
      Proceeds env m f a good fr i (env.context.StoresValues m) (do
        let ops ← fr.operands env (env.context.inst i).operands.toList
        fr.compute env i (env.context.inst i) ops) := by
    intro hop
    refine .bind (operands_meets _ fun v hv => ?_) fun ops hops => h.compute hop hops
    have hv := Array.mem_toList_iff.mp hv
    refine h.operand hv fun hstores t ht =>
      Site.plain_operands hwell hop (fun hstore u hu => ?_) hv ht
    have hi := Array.mem_of_getElem? h.get
    refine ⟨fun hvoid => hstores f h.mem _ h.steady.block_mem i hi hstore (hvoid ▸ hu), ?_⟩
    exact h.stored_ne_label hstore hu
  unfold Frame.run
  unfold Site.OperationWell at hwell
  split at hwell <;> rename_i hop <;> simp only [hop]
  case h_1 => exact h.ret hop
  case h_2 =>
    exact h.jump (by rw [isTerminator, hop]; rfl) hwell.2
      (by rw [targetOperands, hop]; exact (.head _))
  case h_3 =>
    refine .bind (h.operand_of_type (by omega) hwell.2.1 (Ty.plain_of_isInteger rfl)) fun r _ => ?_
    have hterm : (env.context.inst i).isTerminator = true := by
      rw [isTerminator, hop]
      rfl
    split
    · exact h.jump hterm hwell.2.2.1 (by rw [targetOperands, hop]; simp)
    · exact h.jump hterm hwell.2.2.2 (by rw [targetOperands, hop]; simp)
  case h_4 =>
    obtain ⟨⟨hsize, -⟩, hint, -, hcases⟩ := hwell
    refine .bind (h.operand (operand_mem (by omega)) fun _ t ht => ?_) fun r _ =>
      h.select hop r.bits hcases fun q hq => hq
    unfold Site.typeAt at hint
    rw [ht] at hint
    exact Ty.plain_of_isInteger hint
  case h_9 t => exact h.alloca hop
  case h_14 => exact absurd (isPhi_iff.mpr hop) (by simp [h.isPhi])
  case h_15 => exact h.call hop
  all_goals exact hcomputes (by rw [hop]; trivial)

end Frame

end SsaIr
