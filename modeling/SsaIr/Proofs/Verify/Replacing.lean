import SsaIr.Proofs.Graph.Linked
import SsaIr.Proofs.Verify.Function

/-!
# Replacing operands keeps operations well formed

What the verifier asks of an operation, apart from where it stands and where control comes from,
depends on the types of its operands, and on the operands themselves where they are constants or
blocks. Read `Site.OperationTyped` and `Site.Replaces` first, then `Site.Replaces.operationTyped`.
-/

namespace SsaIr

open Instruction List

namespace Site

variable {x : Instruction}

def AllocaTyped (x : Instruction) (t : Ty) : Prop :=
  x.operands.isEmpty = true ∧ t.isSized = true ∧ x.type = .pointer t

def PhiTyped (s : Site) (x : Instruction) : Prop :=
  x.operands.size % 2 = 0 ∧
    ∀ p ∈ x.incoming, s.context.typeOf? p.1 = some x.type ∧ IsBlock p.2

/-- What an operation asks of the types of its operands and result. -/
def OperationTyped (s : Site) (x : Instruction) : Prop :=
  match x.op with
  | .alloca t => AllocaTyped x t
  | .phi => s.PhiTyped x
  | _ => s.OperationWell x

theorem OperationWell.typed {s : Site} (hx : s.OperationWell x) : s.OperationTyped x := by
  unfold OperationTyped
  split
  · next t hop =>
      rw [OperationWell, hop] at hx
      exact ⟨hx.1, hx.2.1, hx.2.2.1⟩
  · next hop =>
      rw [OperationWell, hop] at hx
      obtain ⟨bs, hincoming, -⟩ := hx.incoming
      refine ⟨hx.even, fun p hp => ⟨hincoming.types p hp, ?_⟩⟩
      have hmem := mem_map_of_mem (f := Prod.snd) hp
      rw [hincoming.sources] at hmem
      obtain ⟨b, -, hb⟩ := mem_map.mp hmem
      exact ⟨b, hb.symm⟩
  · exact hx

/-- The operands of one instruction replaced by others of their types; constants and blocks stay. -/
structure Replaces (s t : Site) (g : Option Value → Option Value) (x y : Instruction) : Prop where
  ret : (t.context.func t.func).ret = (s.context.func s.func).ret
  op : y.op = x.op
  type : y.type = x.type
  parent : y.parent = x.parent
  operands : y.operands = x.operands.map g
  none : g none = none
  const : ∀ k, g (some (.const k)) = some (.const k)
  block : ∀ b, g (some (.block b)) = some (.block b)
  types : ∀ v ∈ x.operands, t.context.typeOf? (g v) = s.context.typeOf? v

theorem pairs_map (g : Option Value → Option Value) (l : List (Option Value)) :
    pairs (l.map g) = (pairs l).map (Prod.map g g) := by
  induction l using pairs.induct with
  | case1 v w rest ih =>
    rw [map_cons, map_cons, pairs, pairs, ih]
    rfl
  | case2 l hl =>
    cases l with
    | nil => rfl
    | cons v l =>
      cases l with
      | nil => rfl
      | cons w l => exact absurd rfl (hl v w l)

theorem mem_of_mem_pairs {l : List (Option Value)} {p : Option Value × Option Value}
    (hp : p ∈ pairs l) : p.1 ∈ l ∧ p.2 ∈ l := by
  induction l using pairs.induct with
  | case1 v w rest ih =>
    rw [pairs] at hp
    rcases mem_cons.mp hp with rfl | hp
    · exact ⟨.head _, .tail _ (.head _)⟩
    · exact ⟨.tail _ (.tail _ (ih hp).1),
        .tail _ (.tail _ (ih hp).2)⟩
  | case2 l hl =>
    cases l with
    | nil => exact absurd hp not_mem_nil
    | cons v l =>
      cases l with
      | nil => exact absurd hp not_mem_nil
      | cons w l => exact absurd rfl (hl v w l)

theorem pairs_flatMap {α : Type} (l : List α) (g g' : α → Option Value) :
    pairs (l.flatMap fun x => [g x, g' x]) = l.map fun x => (g x, g' x) := by
  induction l with
  | nil => rfl
  | cons x l ih =>
    rw [flatMap_cons, map_cons, ← ih]
    rfl

theorem mem_operands_of_target {v : Value} (h : some v ∈ x.targetOperands) :
    some v ∈ x.operands := by
  unfold targetOperands at h
  split at h
  · exact mem_operands_iff.mpr ⟨_, (mem_singleton.mp h).symm⟩
  · rcases mem_cons.mp h with h | h
    · exact mem_operands_iff.mpr ⟨_, h.symm⟩
    · exact mem_operands_iff.mpr ⟨_, (mem_singleton.mp h).symm⟩
  · rcases mem_cons.mp h with h | h
    · exact mem_operands_iff.mpr ⟨_, h.symm⟩
    · obtain ⟨p, hp, hv⟩ := mem_map.mp h
      have hmem := mem_of_mem_drop (mem_of_mem_pairs hp).2
      rw [hv] at hmem
      exact ⟨hmem⟩
  · cases h

theorem targetOperands_isBlock {s : Site} (hx : s.OperationTyped x) :
    ∀ v ∈ x.targetOperands, IsBlock v := by
  intro v hv
  unfold targetOperands at hv
  unfold OperationTyped OperationWell at hx
  cases hop : x.op with
  | br =>
    simp only [hop, mem_singleton] at hx hv
    exact hv ▸ hx.2
  | condBr =>
    simp only [hop, mem_cons, not_mem_nil, or_false] at hx hv
    rcases hv with rfl | rfl
    · exact hx.2.2.1
    · exact hx.2.2.2
  | switch =>
    simp only [hop, mem_cons, mem_map] at hx hv
    rcases hv with rfl | ⟨p, hp, rfl⟩
    · exact hx.2.2.1
    · have hcases : ∀ {t seen l}, CasesWell t seen l → ∀ p ∈ l, IsBlock p.2 := by
        intro t seen l hl
        induction l generalizing seen with
        | nil => exact fun p hp => absurd hp not_mem_nil
        | cons q l ih =>
          obtain ⟨k, dest⟩ := q
          obtain ⟨_, _, _, _, hdest, _, hrest⟩ := hl
          intro p hp
          rcases mem_cons.mp hp with rfl | hp
          · exact hdest
          · exact ih hrest p hp
      exact hcases hx.2.2.2 p hp
  | _ => simp [hop] at hv

namespace Replaces

variable {s t : Site} {g : Option Value → Option Value} {x y : Instruction} {n : Nat} {l : List
  (Option Value)}

variable (h : s.Replaces t g x y)
include h

theorem size : y.operands.size = x.operands.size := by
  rw [h.operands, Array.size_map]

theorem operand (n : Nat) : y.operand n = g (x.operand n) := by
  have hmap := Array.getD_map g x.operands n Option.none
  rw [h.none] at hmap
  rw [Instruction.operand, h.operands, Instruction.operand, hmap]

theorem typeAt (n : Nat) : t.typeAt y n = s.typeAt x n := by
  unfold Site.typeAt
  rw [h.operand]
  by_cases hn : n < x.operands.size
  · rw [Instruction.operand, Array.getD_of_lt _ hn]
    exact h.types _ (Array.getElem_mem hn)
  · rw [Instruction.operand, Array.getD_of_not_lt _ hn, h.none]
    rfl

theorem isBlock {v : Option Value} (hv : IsBlock v) : g v = v := by
  obtain ⟨b, rfl⟩ := hv
  exact h.block b

theorem isBlock_operand (hn : IsBlock (x.operand n)) : IsBlock (y.operand n) := by
  rwa [h.operand, h.isBlock hn]

theorem casesWell {want : Option Ty} {seen : List Int64}
    {l : List (Option Value × Option Value)} (hl : CasesWell want seen l) :
    l.map (Prod.map g g) = l := by
  induction l generalizing seen with
  | nil => rfl
  | cons p l ih =>
    obtain ⟨k, dest⟩ := p
    obtain ⟨w, v, hk, _, hdest, _, hrest⟩ := hl
    rw [map_cons, ih hrest, Prod.map_apply, hk, h.const, h.isBlock hdest]

theorem cases_eq {want : Option Ty} (hx : CasesWell want [] x.cases) : y.cases = x.cases := by
  rw [Instruction.cases, h.operands, Array.toList_map, ← map_drop, pairs_map]
  exact h.casesWell hx

theorem targetOperands (hx : s.OperationWell x) : y.targetOperands = x.targetOperands := by
  have hmap : y.targetOperands = x.targetOperands.map g := by
    unfold Instruction.targetOperands
    rw [h.op]
    cases hop : x.op with
    | br => simp [h.operand]
    | condBr => simp [h.operand]
    | switch =>
      have hcases : y.cases = x.cases.map (Prod.map g g) := by
        rw [Instruction.cases, h.operands, Array.toList_map, ← map_drop, pairs_map]
        rfl
      simp [h.operand, hcases]
    | _ => rfl
  have hsame : x.targetOperands.map g = x.targetOperands.map id :=
    map_congr_left fun v hv => h.isBlock (targetOperands_isBlock hx.typed v hv)
  rw [hmap, hsame, map_id]

theorem stepAlong {source elem : Ty} (hl : SsaIr.stepAlong n source l = .ok elem) :
    SsaIr.stepAlong n source (l.map g) = .ok elem := by
  induction l generalizing n source with
  | nil => exact hl
  | cons v l ih =>
    obtain ⟨u, hu, hrest⟩ := Except.bind_eq_ok_iff.mp hl
    have hstep : stepInto n source (g v) = .ok u := by
      unfold stepInto at hu ⊢
      split at hu
      · exact hu
      · split at hu
        · rwa [h.const]
        · cases hu
      · split at hu
        · rwa [h.const]
        · cases hu
      · cases hu
    exact Except.bind_eq_ok_iff.mpr ⟨u, hstep, ih hrest⟩

theorem badIndex (hmem : ∀ v ∈ l, v ∈ x.operands) :
    t.context.badIndex? (l.map g) = s.context.badIndex? l := by
  induction l with
  | nil => rfl
  | cons v l ih =>
    have hrest := ih fun w hw => hmem w (.tail _ hw)
    unfold Context.badIndex? at hrest ⊢
    rw [map_cons, findIdx?_cons, findIdx?_cons, hrest,
      h.types v (hmem v (.head _))]

theorem elementType {source elem : Option Ty}
    (hmem : ∀ v ∈ l, v ∈ x.operands) (hl : s.context.elementType source l = .ok elem) :
    t.context.elementType source (l.map g) = .ok elem := by
  have hbad := h.badIndex hmem
  unfold Context.elementType at hl ⊢
  cases l with
  | nil => cases hl
  | cons v l =>
    rw [map_cons] at hbad ⊢
    dsimp only at hl ⊢
    rw [hbad]
    cases hidx : s.context.badIndex? (v :: l) with rw [hidx] at hl
    | some n => cases hl
    | none =>
      cases source with
      | none => exact hl
      | some u =>
        dsimp only at hl ⊢
        cases hs : SsaIr.stepAlong 1 u l with rw [hs] at hl
        | error e => cases hl
        | ok m =>
          rwa [h.stepAlong hs]

theorem checkArguments {params : List Ty} (hmem : ∀ v ∈ l, v ∈ x.operands)
    (hl : s.context.checkArguments n params l = .ok ()) :
    t.context.checkArguments n params (l.map g) = .ok () := by
  induction l generalizing n params with
  | nil =>
    rw [map_nil, Context.checkArguments]
  | cons v l ih =>
    have hrest := fun {m ps} => @ih ps m fun w hw =>
      hmem w (.tail _ hw)
    rw [map_cons]
    unfold Context.checkArguments at hl ⊢
    rw [h.types v (hmem v (.head _))]
    split at hl
    · cases hl
    · split at hl
      · split at hl
        · rename_i heq
          simp only [heq, if_true]
          exact hrest hl
        · cases hl
      · split at hl
        · rename_i heq
          simp only [heq, if_true]
          exact hrest hl
        · cases hl

theorem phiTyped (hx : s.PhiTyped x) : t.PhiTyped y := by
  refine ⟨h.size ▸ hx.1, fun p hp => ?_⟩
  rw [Instruction.incoming, h.operands, Array.toList_map, pairs_map] at hp
  obtain ⟨q, hq, rfl⟩ := mem_map.mp hp
  obtain ⟨htype, hblock⟩ := hx.2 q hq
  have hmem := Array.mem_toList_iff.mp (mem_of_mem_pairs hq).1
  refine ⟨?_, ?_⟩
  · rwa [Prod.map_fst, h.types _ hmem, h.type]
  · rwa [Prod.map_snd, h.isBlock hblock]

theorem operationTyped (hx : s.OperationTyped x) : t.OperationTyped y := by
  have hdrop : ∀ v ∈ x.operands.toList.drop 1, v ∈ x.operands := fun v hv =>
    Array.mem_toList_iff.mp (mem_of_mem_drop hv)
  unfold OperationTyped OperationWell at hx ⊢
  rw [h.op]
  cases hop : x.op with
  | ret =>
    simp only [hop, RetWell] at hx ⊢
    rw [h.ret, h.size, h.typeAt, h.operands]
    simpa using hx
  | br =>
    simp only [hop] at hx ⊢
    exact ⟨h.size.trans hx.1, h.isBlock_operand hx.2⟩
  | condBr =>
    simp only [hop] at hx ⊢
    rw [h.size, h.typeAt]
    exact ⟨hx.1, hx.2.1, h.isBlock_operand hx.2.2.1, h.isBlock_operand hx.2.2.2⟩
  | switch =>
    simp only [hop, SwitchWell] at hx ⊢
    obtain ⟨hsize, hint, hblock, hcases⟩ := hx
    rw [h.size, h.typeAt, h.cases_eq hcases]
    exact ⟨hsize, hint, h.isBlock_operand hblock, hcases⟩
  | int o =>
    simp only [hop, BinaryWell] at hx ⊢
    rwa [h.size, h.typeAt, h.typeAt, h.type]
  | float o =>
    simp only [hop, BinaryWell] at hx ⊢
    rwa [h.size, h.typeAt, h.typeAt, h.type]
  | icmp o =>
    simp only [hop, CompareWell] at hx ⊢
    rwa [h.size, h.typeAt, h.typeAt, h.type]
  | fcmp o =>
    simp only [hop, CompareWell] at hx ⊢
    rwa [h.size, h.typeAt, h.typeAt, h.type]
  | alloca u =>
    simp only [hop, AllocaTyped] at hx ⊢
    rw [h.operands, h.type]
    simpa using hx
  | load =>
    simp only [hop, LoadWell] at hx ⊢
    rwa [h.size, h.typeAt, h.type]
  | store =>
    simp only [hop, StoreWell] at hx ⊢
    rwa [h.size, h.typeAt, h.typeAt, h.type]
  | gep source inBounds =>
    simp only [hop, GepWell] at hx ⊢
    obtain ⟨hsize, hsized, hbase, elem, helem, htype⟩ := hx
    rw [h.size, h.typeAt, h.type, h.operands, Array.toList_map, ← map_drop]
    exact ⟨hsize, hsized, hbase, elem, h.elementType hdrop helem, htype⟩
  | cast o =>
    simp only [hop, CastWell] at hx ⊢
    rwa [h.size, h.typeAt, h.type, h.op, hop]
  | phi =>
    simp only [hop] at hx ⊢
    exact h.phiTyped hx
  | call =>
    simp only [hop, CallWell] at hx ⊢
    obtain ⟨hnonempty, ret, params, variadic, hcallee, htype, hcall⟩ := hx
    have hargs : y.callArgs = x.callArgs.map g := by
      simp only [callArgs, h.op, hop, h.operands, Array.toList_map, map_drop]
    refine ⟨?_, ret, params, variadic, h.typeAt 0 ▸ hcallee, h.type.trans htype, ?_⟩
    · rw [h.operands]
      simpa using hnonempty
    · unfold Context.checkCall at hcall ⊢
      rw [hargs, length_map]
      dsimp only at hcall ⊢
      split at hcall
      · cases hcall
      · rename_i hcount
        rw [if_neg hcount]
        refine h.checkArguments (fun v hv => hdrop v ?_) hcall
        simpa only [callArgs, hop] using hv

theorem operationWell (hentry : t.context.entry t.func = s.context.entry s.func)
    (hphi : x.op ≠ .phi)
    (hx : s.OperationWell x) : t.OperationWell y := by
  have htyped := h.operationTyped hx.typed
  unfold OperationTyped at htyped
  unfold OperationWell at hx ⊢
  rw [h.op] at htyped ⊢
  cases hop : x.op with
  | alloca u =>
    simp only [hop] at hx htyped ⊢
    exact ⟨htyped.1, htyped.2.1, htyped.2.2, by rw [h.parent, hentry]; exact hx.2.2.2⟩
  | phi => exact absurd hop hphi
  | _ =>
    simp only [hop, OperationWell, h.op] at htyped ⊢
    exact htyped

end Replaces

end Site

end SsaIr
