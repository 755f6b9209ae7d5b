import SsaIr.Verify.Module
import SsaIr.Proofs.Verify.Checks

/-!
# What the verifier accepts

A function is accepted exactly when it is well formed. Read `Context.WellFormed` first, then
`verifyFunction_iff`.
-/

namespace SsaIr

namespace Verify

/-- The instruction at a place of a list, which continues a block from a position on, is well formed
and stands where instructions of its kind may. -/
structure InstructionWell (s : Site) (phis : Bool) (position : Nat) (l : List InstId) (k : Nat)
    (i : InstId) : Prop where
  parent : (s.context.inst i).parent = some s.block
  leading : (s.context.inst i).isPhi = true →
    phis = true ∧ ∀ j ∈ l.take k, (s.context.inst j).isPhi = true
  last : (s.context.inst i).isTerminator = true → k + 1 = l.length
  well : s.Well i (position + k)

theorem checks_instructions (s : Site) (phis : Bool) (position : Nat) (l : List InstId) :
    Checks (instructions s phis position l) fun _ =>
      ∀ k i, l[k]? = some i → InstructionWell s phis position l k i := by
  induction l generalizing phis position with
  | nil =>
    refine .congr .pure fun _ => ?_
    simp
  | cons i rest ih =>
    refine .congr (.seq .check (.seq .check (.seq .check (.seq (s.checks_instruction i position)
      (ih (phis && (s.context.inst i).isPhi) (position + 1)))))) fun _ => ?_
    simp only [decide_eq_true_eq, Bool.or_eq_true, Bool.not_eq_true', List.isEmpty_iff]
    constructor
    · rintro ⟨hparent, hlead, hlast, hwell, hrest⟩ k j hj
      cases k with
      | zero =>
        cases hj
        refine ⟨hparent, fun hphi => ⟨?_, by simp⟩, fun hterm => ?_, hwell⟩
        · rcases hlead with hphis | hnot
          · exact hphis
          · rw [hphi] at hnot
            cases hnot
        · rcases hlast with hnil | hnot
          · rw [hnil]
            rfl
          · rw [hterm] at hnot
            cases hnot
      | succ k =>
        obtain ⟨hp, hl, ht, hw⟩ := hrest k j hj
        refine ⟨hp, fun hphi => ?_, fun hterm => ?_, ?_⟩
        · obtain ⟨hboth, hbefore⟩ := hl hphi
          rw [Bool.and_eq_true] at hboth
          refine ⟨hboth.1, fun x hx => ?_⟩
          rw [List.take_succ_cons] at hx
          rcases List.mem_cons.mp hx with rfl | hx
          · exact hboth.2
          · exact hbefore x hx
        · rw [List.length_cons, ← ht hterm]
        · rwa [← Nat.add_assoc, Nat.add_right_comm]
    · intro hall
      obtain ⟨hparent, hlead, hlast, hwell⟩ := hall 0 i rfl
      refine ⟨hparent, ?_, ?_, hwell, fun k j hj => ?_⟩
      · cases hphi : (s.context.inst i).isPhi with
        | true => exact .inl (hlead hphi).1
        | false => exact .inr rfl
      · cases hterm : (s.context.inst i).isTerminator with
        | true =>
          have hlen := hlast hterm
          rw [List.length_cons] at hlen
          exact .inl (List.length_eq_zero_iff.mp (by omega))
        | false => exact .inr rfl
      · obtain ⟨hp, hl, ht, hw⟩ := hall (k + 1) j hj
        refine ⟨hp, fun hphi => ?_, fun hterm => ?_, ?_⟩
        · obtain ⟨hphis, hbefore⟩ := hl hphi
          rw [List.take_succ_cons] at hbefore
          rw [hphis, hbefore i List.mem_cons_self]
          exact ⟨rfl, fun x hx => hbefore x (.tail _ hx)⟩
        · have hlen := ht hterm
          rw [List.length_cons] at hlen
          omega
        · rwa [← Nat.add_assoc, Nat.add_right_comm] at hw

/-- A block belongs to the function, ends with its only terminator, and has well-formed
instructions; the entry block has no predecessors. -/
structure BlockWell (s : Site) : Prop where
  parent : (s.context.block s.block).parent = s.func
  linked : (s.context.block s.block).linked = true
  nonempty : (s.context.block s.block).insts.isEmpty = false
  terminated : (s.context.terminator s.block).isSome = true
  entry : s.context.entry s.func = some s.block → s.analysis.predecessors (some s.block) = []
  instructions : ∀ k i, (s.context.block s.block).insts.toList[k]? = some i →
    InstructionWell s true 0 (s.context.block s.block).insts.toList k i

theorem checks_block (s : Site) : Checks (block s) fun _ => BlockWell s := by
  unfold block
  refine .congr (.seq .require (.seq .require (.seq .require (.ite
    (.seq .require (checks_instructions _ _ _ _)) (checks_instructions _ _ _ _))))) fun _ => ?_
  simp only [Bool.and_eq_true, decide_eq_true_eq, Bool.not_eq_true', List.isEmpty_iff]
  by_cases hentry : s.context.entry s.func = some s.block
  · rw [if_pos hentry]
    exact ⟨fun ⟨⟨hp, hl⟩, hn, ht, he, hi⟩ => ⟨hp, hl, hn, ht, fun _ => he, hi⟩,
      fun ⟨hp, hl, hn, ht, he, hi⟩ => ⟨⟨hp, hl⟩, hn, ht, he hentry, hi⟩⟩
  · rw [if_neg hentry]
    exact ⟨fun ⟨⟨hp, hl⟩, hn, ht, hi⟩ => ⟨hp, hl, hn, ht, fun h => absurd h hentry, hi⟩,
      fun ⟨hp, hl, hn, ht, _, hi⟩ => ⟨⟨hp, hl⟩, hn, ht, hi⟩⟩

theorem checks_blocks (c : Context) (f : FuncId) (analysis : FlowAnalysis) (bs : List BlockId) :
    Checks (blocks c f analysis bs) fun _ => ∀ b ∈ bs, BlockWell ⟨c, f, analysis, b⟩ := by
  induction bs with
  | nil =>
    refine .congr .pure fun _ => ?_
    simp
  | cons b rest ih =>
    refine .congr (.seq (checks_block _) ih) fun _ => ?_
    simp

/-- An argument stands at its place, has the type of the parameter there, and a name exactly if the
function has a body. -/
structure ArgumentWell (c : Context) (f : FuncId) (declaration : Bool) (n : Nat)
    (param : Option Ty) (a : ArgId) : Prop where
  parent : (c.arg a).parent = f
  index : (c.arg a).index = some n
  sized : Build.isSized (c.arg a).type = true
  type : (c.arg a).type = param
  name : (c.arg a).name = "" ↔ declaration = true

theorem checks_arguments (c : Context) (f : FuncId) (declaration : Bool) (n : Nat)
    (args : List ArgId) (params : List Ty) :
    Checks (arguments c f declaration n args params) fun _ =>
      ∀ k a, args[k]? = some a → ArgumentWell c f declaration (n + k) params[k]? a := by
  induction args generalizing n params with
  | nil =>
    refine .congr .pure fun _ => ?_
    simp
  | cons a rest ih =>
    unfold arguments
    refine .congr (.seq .require (.seq .require (.seq .require (.ite
      (.seq .require (ih (n + 1) params.tail)) (.seq .require (ih (n + 1) params.tail))))))
        fun _ => ?_
    have hnext : ∀ k, params.tail[k]? = params[k + 1]? := fun k => List.getElem?_tail
    have hhead : params.head? = params[0]? := List.head?_eq_getElem?
    simp only [Bool.and_eq_true, decide_eq_true_eq, hnext, hhead]
    have hsplit : ∀ {p : Nat → ArgId → Prop}, (∀ k x, (a :: rest)[k]? = some x → p k x) ↔
        p 0 a ∧ ∀ k x, rest[k]? = some x → p (k + 1) x := by
      intro p
      constructor
      · exact fun h => ⟨h 0 a rfl, fun k x hx => h (k + 1) x hx⟩
      · rintro ⟨h0, hrest⟩ k x hx
        cases k with
        | zero => exact Option.some.inj hx ▸ h0
        | succ k => exact hrest k x hx
    have hcount : (∀ k x, rest[k]? = some x →
          ArgumentWell c f declaration (n + (k + 1)) params[k + 1]? x) ↔
        ∀ k x, rest[k]? = some x → ArgumentWell c f declaration (n + 1 + k) params[k + 1]? x :=
      forall_congr' fun k => by rw [Nat.add_assoc n 1 k, Nat.add_comm 1 k]
    rw [hsplit, hcount]
    cases declaration with
    | true =>
      simp only [if_true]
      exact ⟨fun ⟨⟨hp, hi⟩, hs, ht, hn, hr⟩ => ⟨⟨hp, hi, hs, ht, by simp [hn]⟩, hr⟩,
        fun ⟨⟨hp, hi, hs, ht, hn⟩, hr⟩ => ⟨⟨hp, hi⟩, hs, ht, by simpa using hn, hr⟩⟩
    | false =>
      simp only [Bool.false_eq_true, if_false]
      exact ⟨fun ⟨⟨hp, hi⟩, hs, ht, hn, hr⟩ => ⟨⟨hp, hi, hs, ht, by simpa using hn⟩, hr⟩,
        fun ⟨⟨hp, hi, hs, ht, hn⟩, hr⟩ => ⟨⟨hp, hi⟩, hs, ht, by simpa using hn, hr⟩⟩

end Verify

namespace Context

open Verify

structure HeadWell (c : Context) (f : FuncId) (sig : Ty) : Prop where
  signature : (c.func f).signature = some sig
  ret : sig.ret? = some (c.func f).ret
  count : sig.params.length = (c.func f).args.size
  arguments : ∀ k a, (c.func f).args.toList[k]? = some a →
    ArgumentWell c f (c.func f).blocks.isEmpty (0 + k) sig.params[k]? a

/-- A function is well formed: its head fits its signature, and if it has a body that has a flow
graph and well-formed blocks. -/
structure WellFormed (c : Context) (f : FuncId) : Prop where
  head : ∃ sig, c.HeadWell f sig
  body : (c.func f).blocks.isEmpty = false → ∃ a, FlowAnalysis.ofFunction c f = .ok a ∧
    ∀ b ∈ (c.func f).blocks, BlockWell ⟨c, f, a, b⟩

end Context

namespace Verify

theorem checks_body (c : Context) (f : FuncId) (fail : ViolationCause → Violation) :
    Checks (match FlowAnalysis.ofFunction c f with
      | .error .malformed => throw .malformed
      | .error e => throw (.violation (fail (.flow e)))
      | .ok analysis => blocks c f analysis (c.func f).blocks.toList) fun _ =>
        ∃ a, FlowAnalysis.ofFunction c f = .ok a ∧
          ∀ b ∈ (c.func f).blocks, BlockWell ⟨c, f, a, b⟩ := by
  split
  · rename_i h
    refine .congr .throw fun _ => ?_
    simp [h]
  · rename_i h
    refine .congr .throw fun _ => ?_
    simp [h]
  · rename_i analysis h
    refine .congr (checks_blocks c f analysis _) fun _ => ?_
    simp [h]

theorem checks_function (c : Context) (f : FuncId) : Checks (function c f) fun _ =>
    c.WellFormed f := by
  unfold function
  cases hsig : (c.func f).signature with simp only [hsig]
  | none =>
    refine .congr .throw fun _ => ?_
    simp only [false_iff]
    rintro ⟨⟨sig, hhead⟩, _⟩
    cases hsig.symm.trans hhead.signature
  | some sig =>
    refine .congr (.seq .require (.seq .require (.seq (checks_arguments _ _ _ _ _ _)
      (.ite (p := (c.func f).blocks.isEmpty = true) .pure (checks_body c f fun cause =>
        { cause, func := (c.func f).name, object := some (.func f) }))))) fun _ => ?_
    simp only [decide_eq_true_eq]
    constructor
    · rintro ⟨hret, hcount, hargs, hbody⟩
      refine ⟨⟨sig, hsig, hret, hcount, hargs⟩, fun hblocks => ?_⟩
      rwa [hblocks, if_neg (by decide)] at hbody
    · rintro ⟨⟨sig', hsig', hret, hcount, hargs⟩, hbody⟩
      cases hsig.symm.trans hsig'
      refine ⟨hret, hcount, hargs, ?_⟩
      cases hblocks : (c.func f).blocks.isEmpty with
      | true =>
        rw [if_pos rfl]
        trivial
      | false => exact hbody hblocks

theorem outcome_ok_iff {c : Context} {x : Verify Unit} {p : Prop} (h : Checks x fun _ => p) :
    (outcome c x).1 = .ok () ↔ p := by
  have hp : (∃ ts, x [] = .ok () ts) ↔ p := h [] ()
  rw [← hp]
  unfold outcome
  cases x [] with
  | ok a ts => exact ⟨fun _ => ⟨ts, rfl⟩, fun _ => rfl⟩
  | error e ts =>
    constructor
    · intro hok
      cases hok
    · rintro ⟨ts', hok⟩
      cases hok

end Verify

theorem verifyFunction_iff {c : Context} {f : FuncId} :
    (verifyFunction c f).1 = .ok () ↔ c.WellFormed f :=
  Verify.outcome_ok_iff (Verify.checks_function c f)

end SsaIr
