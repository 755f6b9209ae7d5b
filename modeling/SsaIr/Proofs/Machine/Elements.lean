import SsaIr.Graph.Typing
import SsaIr.Machine.Step
import SsaIr.Proofs.Computation
import SsaIr.Proofs.Memory.Layouts

/-!
# Selecting elements

The type of a selected element is found twice: from the constants among the indices when the
instruction is made, and from the values of all indices when it runs. Both walks meet the same
types, except that the one-bit constant 1 enters a struct at its second member in the first walk
and, being -1 as a number, nowhere in the second. Read `entersAtOne` first, then `elements_agree`.
-/

namespace SsaIr

open EStateM

/-- A struct on the way is entered at the one-bit constant 1. -/
def entersAtOne (position : Nat) (t : Ty) : List (Option Value) → Bool
  | [] => false
  | index :: rest =>
    (t.isStruct && index = some (.const (.int .w1 1))) ||
    match stepInto position t index with
    | .ok u => entersAtOne (position + 1) u rest
    | .error _ => false

/-- The value may be that of an index: a constant has its own, anything else may have any. -/
def Evaluates (index : Option Value) (v : RuntimeValue) : Prop :=
  ∀ k, index = some (.const k) → v = .ofConst k

theorem operands_evaluate {env : Environment} {fr : Frame} {indices : List (Option Value)}
    {vals : List RuntimeValue} {s s' : Store} (h : fr.operands env indices s = .ok vals s') :
    List.Forall₂ Evaluates indices vals := by
  induction indices generalizing s vals with
  | nil =>
    cases show EStateM.Result.ok [] s = .ok vals s' from h
    exact .nil
  | cons index indices ih =>
    obtain ⟨v, s₁, hv, h⟩ := bind_eq_ok_iff.mp h
    obtain ⟨vs, s₂, hvs, h⟩ := bind_eq_ok_iff.mp h
    cases show EStateM.Result.ok (v :: vs) s₂ = .ok vals s' from h
    refine .cons ?_ (ih hvs)
    rintro k rfl
    cases show EStateM.Result.ok (.ofConst k) s = .ok v s₁ from hv
    rfl

/-- An integer constant has the payload its width gives it. -/
def Const.Canonical : Const → Prop
  | int w v => w.truncate v = v
  | _ => True

theorem IntWidth.toInt_and_one (v : Int64) : (v &&& 1).toInt = v.toInt % 2 := by
  have hlow : (v &&& 1).toBitVec.toNat = v.toBitVec.toNat % 2 := by
    exact Nat.and_one_is_mod _
  have hsmall : (v &&& 1).toInt = ((v &&& 1).toBitVec.toNat : Int) := by
    show (v &&& 1).toBitVec.toInt = _
    rw [BitVec.toInt_eq_toNat_of_lt]
    omega
  have hparity : v.toInt % 2 = (v.toBitVec.toNat : Int) % 2 := by
    show v.toBitVec.toInt % 2 = _
    rw [BitVec.toInt_eq_toNat_cond]
    split <;> omega
  omega

theorem toInt_ofConst {w : IntWidth} {v : Int64} (h : (Const.int w v).Canonical) :
    (RuntimeValue.ofConst (.int w v)).toInt.toInt = if w = .w1 ∧ v = 1 then -1 else v.toInt := by
  have h : w.truncate v = v := h
  show (w.signed (w.truncate v)).toInt = _
  rw [h]
  cases w with
  | w1 =>
    have hlow := IntWidth.toInt_and_one v
    rw [show v &&& 1 = v from h] at hlow
    rcases Int.emod_two_eq_zero_or_one v.toInt with hbit | hbit <;> rw [hbit] at hlow
    · obtain rfl : v = 0 := Int64.toInt_inj.mp hlow
      rfl
    · obtain rfl : v = 1 := Int64.toInt_inj.mp hlow
      rfl
  | _ =>
    rw [if_neg nofun]
    exact congrArg _ h

namespace DataLayout

variable {d : DataLayout} {t elem : Ty}

theorem stepInto_struct {position : Nat} {index : Option Value} {u : Ty} (ht : t.isStruct = true)
    (h : stepInto position t index = .ok u) :
    ∃ w v, index = some (.const (.int w v)) ∧ 0 ≤ v.toInt ∧ t.members[v.toInt.toNat]? = some u := by
  cases t with
  | struct ms | named _ ms =>
    unfold stepInto at h
    dsimp only at h
    split at h
    · split at h
      · next w v _ m hm =>
        cases h
        split at hm
        · next hv => exact ⟨w, v, rfl, hv, hm⟩
        · cases hm
      · cases h
    · cases h
  | void | int | float | label | pointer | array | function => cases ht

theorem descend_negative (ht : t.isSolid = true) (hstruct : t.isStruct = true) {v : RuntimeValue}
    (hv : v.toInt.toInt < 0) (offset : Int64) (rest : List RuntimeValue) :
    d.descend t offset (v :: rest) = .error .crash := by
  have hlayout := structLayout_eq (d := d) ht hstruct
  cases t with
  | struct ms | named _ ms =>
    rw [descend, hlayout]
    simp only [bind, Except.bind, if_neg (Int.not_le.mpr hv)]
    rfl
  | void | int | float | label | pointer | array | function => cases hstruct

theorem descend_of_stepAlong {position : Nat} {indices : List (Option Value)}
    {vals : List RuntimeValue}
    (ht : t.isSized = true → t.isSolid = true)
    (hconst : ∀ k, some (.const k) ∈ indices → k.Canonical)
    (h : stepAlong position t indices = .ok elem) (hvals : List.Forall₂ Evaluates indices vals)
    (offset : Int64) :
    if entersAtOne position t indices then d.descend t offset vals = .error .crash
    else ∃ o, d.descend t offset vals = .ok (elem, o) := by
  induction hvals generalizing position t offset with
  | nil =>
    cases h
    exact ⟨offset, rfl⟩
  | @cons index r indices vals hr _ ih =>
    obtain ⟨u, hu, h⟩ := Except.bind_eq_ok_iff.mp h
    have ih := fun ht => ih ht (fun k hk => hconst k (.tail _ hk)) h
    rw [entersAtOne, hu]
    cases hstruct : t.isStruct with
    | true =>
      have hsolid : t.isSolid = true := ht (by cases t <;> first | rfl | cases hstruct)
      obtain ⟨w, v, rfl, hv, hmember⟩ := stepInto_struct hstruct hu
      have hread := toInt_ofConst (hconst _ (.head _))
      rw [← hr _ rfl] at hread
      by_cases hone : w = .w1 ∧ v = 1
      · obtain ⟨rfl, rfl⟩ := hone
        exact descend_negative hsolid hstruct (by rw [hread]; decide) offset vals
      · rw [if_neg hone] at hread
        have hchild : t.child? v = some u := by
          cases t with
          | struct | named => rwa [Ty.child?, if_pos hv]
          | void | int | float | label | pointer | array | function => cases hstruct
        rw [descend_cons hsolid hchild (Int64.toInt_inj.mp hread),
          decide_eq_false (fun heq => hone (by cases heq; exact ⟨rfl, rfl⟩)), Bool.and_false,
            Bool.false_or]
        exact ih (fun _ => isSolid_child hsolid hchild) _
    | false =>
      cases t with
      | array n e =>
        cases hu
        have hsolid : u.isSolid = true := by simpa [Ty.isSolid] using ht rfl
        rw [descend, sizeOf_eq hsolid]
        exact ih (fun _ => hsolid) _
      | void | int | float | label | pointer | function => cases hu
      | struct | named => cases hstruct

end DataLayout

/-- Where the indices of an instruction are accepted, running it walks to the element type that was
found for them and gives an address, whatever the indices are at that time. It breaks down exactly
if a struct is entered at the one-bit constant 1. -/
theorem elements_agree (env : Environment) (fr : Frame) {source elem : Ty}
    (hsource : source.isSized = true → source.isSolid = true) {indices : List (Option Value)}
    (hconst : ∀ k, some (.const k) ∈ indices → k.Canonical)
    (h : env.context.elementType (some source) indices = .ok (some elem)) {vals : List RuntimeValue}
    {s s' : Store} (hvals : fr.operands env indices s = .ok vals s') :
    if entersAtOne 1 source indices.tail then
      ∀ offset, env.layout.descend source offset vals.tail = .error .crash
    else
      (∀ offset, ∃ o, env.layout.descend source offset vals.tail = .ok (elem, o)) ∧
      (source.isSized = true → ∀ base, ∃ address,
        env.layout.elementAddress source base vals = .ok address) := by
  cases indices with
  | nil => cases h
  | cons first inner =>
    have hwalk : stepAlong 1 source inner = .ok elem := by
      unfold Context.elementType at h
      dsimp only at h
      split at h
      · cases h
      · cases hrun : stepAlong 1 source inner <;> rw [hrun] at h <;> cases h
        rfl
    cases operands_evaluate hvals with
    | @cons _ r _ rest _ hrest =>
      have hdescend := DataLayout.descend_of_stepAlong (d := env.layout) hsource
        (fun k hk => hconst k (.tail _ hk)) hwalk hrest
      rw [List.tail_cons, List.tail_cons]
      split
      · next henters => simpa [henters] using hdescend
      · next henters =>
        simp only [henters] at hdescend
        refine ⟨hdescend, fun hsized base => ?_⟩
        obtain ⟨o, ho⟩ := hdescend (r.toInt * .ofNat (env.layout.span source).size)
        rw [DataLayout.elementAddress, DataLayout.sizeOf_eq (hsource hsized)]
        show ∃ address, (env.layout.descend source _ rest >>= _) = .ok address
        rw [ho]
        exact ⟨_, rfl⟩

/-- Indices of four widths select a member of an element outside its array. -/
theorem elements_agree_nested :
    let source : Ty := .named "pair" [.int .w8, .array 2 (.struct [.int .w64, .int .w16])]
    let indices :=
      [Const.int .w64 2, .int .w8 1, .int .w16 (-3), .int .w32 1].map (some ∘ Value.const)
    Context.new.elementType (some source) indices = .ok (some (.int .w16)) ∧
    ∀ base, ∃ address, DataLayout.host.elementAddress source base
      [.int .w64 2, .int .w8 1, .int .w16 (-3), .int .w32 1] = .ok address := by
  intro source indices
  have hconst : ∀ k, some (.const k) ∈ indices → k.Canonical := by
    intro k hk
    obtain ⟨k', hk', heq⟩ := List.mem_map.mp hk
    cases heq
    fin_cases hk' <;> rfl
  have h : Context.new.elementType (some source) indices = .ok (some (.int .w16)) := rfl
  have hvals : Frame.operands ⟨.new, .host, 0, 0⟩ default indices {} =
      .ok [.int .w64 2, .int .w8 1, .int .w16 (-3), .int .w32 1] {} := rfl
  exact ⟨h, (elements_agree _ _ (fun _ => rfl) hconst h hvals).2 rfl⟩

end SsaIr
