import SsaIr.Proofs.Promote.Erase
import SsaIr.Proofs.Promote.Plan

/-!
# What promotion comes to

The program after renaming is the one that the plan gives, and promotion succeeds exactly if the
instructions it retires are then read by retired instructions only, each before it. Read `Renamed`
first, then `promoteCells_spec`.
-/

namespace SsaIr

open EStateM List

namespace Promote

/-- The instructions that promotion erases, in the order in which it does. -/
def retired (c : Context) (a : FlowAnalysis) : List InstId :=
  ((planOf c a).instsOf a (Plan.order a)).filter (planOf c a).retires
    ++ (cellsOf c a.flow).map (·.alloca)

/-- The program after renaming: the frame is that of the program with its phis, and the operands are
those of the plan. -/
structure Renamed (c : Context) (a : FlowAnalysis) (m : Context) : Prop where
  sound : m.Sound
  frame : m.frame = (planOf c a).program.frame
  operands : ∀ j, (m.inst j).operands = ((planOf c a).walk a).1.operands (planOf c a) j

theorem knowUndefs_spec (xs : List Cell) (hsized : ∀ x ∈ xs, x.type.isSized = true) (c : Context) :
    ∃ k, knowUndefs xs c = .ok () { c with constants := k } := by
  induction xs generalizing c with
  | nil => exact ⟨c.constants, rfl⟩
  | cons x xs ih =>
    have hknow : ∃ k, Build.knowConst (.undef x.type) c =
        .ok (.undef x.type) { c with constants := k } := by
      unfold Build.knowConst
      rw [bind_of_ok (modify_apply _ c)]
      split
      · exact ⟨c.constants, rfl⟩
      · exact ⟨_, rfl⟩
    obtain ⟨k, hk⟩ := hknow
    obtain ⟨k', hk'⟩ := ih (fun y hy => hsized y (.tail _ hy))
      { c with constants := k }
    have hundef : Build.undef (some x.type) c = .ok (.undef x.type) { c with constants := k } := by
      unfold Build.undef
      dsimp only
      rwa [bind_of_ok (Build.require_of_true (hsized x (.head _)))]
    refine ⟨k', ?_⟩
    unfold knowUndefs
    exact (bind_of_ok ((map_eq_ok_iff).mpr ⟨_, hundef, rfl⟩)).trans hk'

theorem addPhis_constants (c : Context) (k : Array ConstEntry) (ps : List NewPhi) :
    addPhis { c with constants := k } ps = { addPhis c ps with constants := k } := by
  induction ps generalizing c with
  | nil => rfl
  | cons p ps ih => exact ih (addPhi c p)

theorem eraseAll_append (l l' : List InstId) (s : PromoteState) :
    eraseAll (l ++ l') s = (do eraseAll l; eraseAll l') s := by
  induction l generalizing s with
  | nil => rfl
  | cons i l ih =>
    show (do build (Build.erase i); eraseAll (l ++ l')) s =
      (do (do build (Build.erase i); eraseAll l); eraseAll l') s
    cases hi : build (Build.erase i) s with
    | ok u s₁ =>
      rw [bind_of_ok hi, ih]
      cases hl : eraseAll l s₁ with
      | ok u s₂ =>
        rw [bind_of_ok hl, bind_of_ok ((bind_of_ok hi).trans hl)]
      | error e s₂ =>
        rw [bind_of_error hl, bind_of_error ((bind_of_ok hi).trans hl)]
    | error e s₁ =>
      rw [bind_of_error hi, bind_of_error (bind_of_error hi)]

end Promote

namespace Context.Checked

open Promote

variable {c : Context} {f : FuncId} {a : FlowAnalysis} {b : BlockId} {i : InstId}

variable (h : c.Checked f a)
include h

theorem analyses_program : Analyses a (planOf c a).program f := by
  obtain ⟨hblocks, hnodup, hsize, hwf, hsuccs, htree⟩ := h.analyses
  refine ⟨?_, hnodup, hsize, hwf, hsuccs, htree⟩
  rwa [program_func]

theorem mem_instsOf : i ∈ (planOf c a).instsOf a (Plan.order a) ↔
    ∃ b ∈ (c.func f).blocks, i ∈ ((planOf c a).program.block b).insts := by
  rw [Plan.instsOf, mem_flatMap]
  constructor
  · rintro ⟨v, hv, hi⟩
    exact ⟨_, h.analyses.blockAt_mem ((Plan.mem_order h.analyses).mp hv),
      Array.mem_toList_iff.mp hi⟩
  · rintro ⟨b, hb, hi⟩
    obtain ⟨v, hv, rfl⟩ := h.analyses.exists_node hb
    exact ⟨v, (Plan.mem_order h.analyses).mpr hv, Array.mem_toList_iff.mpr hi⟩

theorem instsOf_nodup : ((planOf c a).instsOf a (Plan.order a)).Nodup := by
  refine nodup_flatMap.mpr ⟨fun v _ => h.program_sound.insts_nodup _, ?_⟩
  refine (Plan.order_nodup h.analyses).imp_of_mem fun {v w} hv hw hne i hi hi' => hne ?_
  have hparent := h.program_sound.mem_parent ⟨hi⟩
  rw [h.program_sound.mem_parent (Array.mem_toList_iff.mp hi')] at hparent
  exact h.analyses.blockAt_inj ((Plan.mem_order h.analyses).mp hv)
    ((Plan.mem_order h.analyses).mp hw) (Option.some.inj hparent).symm

theorem alloca_mem_program {x : Cell} (hx : IsCell c a x) :
    x.alloca ∈ ((planOf c a).program.block (a.flow.blockAt 0)).insts :=
  h.program_mem.mpr (.inl hx.mem)

theorem retired_parent (hi : i ∈ retired c a) :
    ∃ b, ((planOf c a).program.inst i).parent = some b := by
  rcases mem_append.mp hi with hi | hi
  · obtain ⟨b, _, hb⟩ := h.mem_instsOf.mp (mem_filter.mp hi).1
    exact ⟨b, h.program_sound.mem_parent hb⟩
  · obtain ⟨x, hx, rfl⟩ := mem_map.mp hi
    exact ⟨_, h.program_sound.mem_parent (h.alloca_mem_program (isCell_of_mem hx))⟩

theorem retired_nodup : (retired c a).Nodup := by
  refine (h.instsOf_nodup.filter _).append (allocas_nodup h.sound.toPlaced) fun i hi hi' => ?_
  obtain ⟨x, hx, rfl⟩ := mem_map.mp hi'
  -- An allocation is neither a load nor a store.
  have hretires := (mem_filter.mp hi).2
  rw [Plan.retires, h.fits.alloca hx] at hretires
  cases hretires

theorem operands_parent {r : Renaming} (hr : r.FillsPhis (planOf c a))
    (hi : (r.operands (planOf c a) i).size ≠ 0) :
    ((planOf c a).program.inst i).parent.isSome = true := by
  by_cases hprogram : ((planOf c a).program.inst i).operands.size = 0
  · rw [Renaming.operands, Array.size_append, Array.size_map, hprogram, Nat.zero_add] at hi
    cases hphi : (planOf c a).phiOf i with
    | none =>
      rw [hr.filled_eq_nil hphi] at hi
      exact absurd rfl hi
    | some n =>
      obtain ⟨k, p, hp, rfl, _⟩ := planOf_phiOf.mp hphi
      rw [new_inst hp]
      rfl
  · exact h.program_sound.operands_parent hprogram

theorem walking_start (k : Array ConstEntry) : Walking (planOf c a) {} (planOf c a).undefs
      ⟨{ (planOf c a).program with constants := k }, (cellsOf c a.flow).toArray,
        (planOf c a).phis, []⟩ where
  represents :=
    { frame := rfl
      operands := fun j => by
        have hid : Option.map (resolve []) = id := funext fun v => by cases v <;> rfl
        show ((planOf c a).program.inst j).operands =
          ((planOf c a).program.inst j).operands.map (Option.map (resolve [])) ++ #[]
        rw [hid, Array.map_id, Array.append_empty]
      linked := h.program_sound.linked.of_local rfl rfl
      tracks := fun v hlocal hv => by
        cases v with
        | arg | inst => exact hv
        | const | block | func | global => exact hlocal.elim
      phis := rfl
      dead := rfl
      cells := rfl }
  fills := fun x hx => absurd hx not_mem_nil
  sane :=
    ⟨fun hx => absurd hx not_mem_nil, fun hx => absurd hx not_mem_nil,
      fun hx => absurd hx not_mem_nil, fun hx => absurd hx not_mem_nil⟩
  holds n _ := (planOf c a).holds_undef n
  current n hn := by
    obtain ⟨x, hx⟩ : ∃ x, (cellsOf c a.flow)[n]? = some x := ⟨_, List.getElem?_eq_getElem hn⟩
    have hget : (cellsOf c a.flow).toArray.getD n default = x := by
      rw [Array.getD_eq_getD_getElem?, getElem?_toArray, hx]
      rfl
    rw [stackAt, hget, (isCell_of_mem (mem_of_getElem? hx)).stack, Plan.undefs,
      planOf_typeAt hx]
    rfl

theorem cells_eq (k : Array ConstEntry) : ∃ s, Renamed c a s.context ∧
      cells a ⟨{ c with constants := k }, (cellsOf c a.flow).toArray, [], []⟩ =
        eraseAll (retired c a) s := by
  let s₀ : PromoteState := ⟨{ c with constants := k }, (cellsOf c a.flow).toArray, [], []⟩
  let s₁ : PromoteState := ⟨{ (planOf c a).program with constants := k },
    (cellsOf c a.flow).toArray, (planOf c a).phis, []⟩
  have hplace : placePhis a 0 (namesOf c a.flow.func) (cellsOf c a.flow) s₀ = .ok () s₁ := by
    rw [placePhis_eq a 0 _ _ s₀ (fun x hx => sized_of_primitive (isCell_of_mem hx).primitive)
      fun x hx => h.sound.inst_lt (isCell_of_mem hx).mem,
      phisOf_congr (c := c) (d := s₀.context) a 0 _ _ (fun _ => rfl) fun _ _ => rfl,
      addPhis_constants, append_nil]
    rfl
  obtain ⟨s₂, s₃, hs₂, hs₃, hwalk⟩ := rename_spec h.fits h.analyses_program (h.walking_start k)
  refine ⟨s₃, ⟨⟨?_, hwalk.represents.linked⟩, hwalk.represents.frame, hwalk.represents.operands⟩,
    ?_⟩
  · refine h.program_sound.toPlaced.of_frame hwalk.represents.frame fun i hi => ?_
    rw [hwalk.represents.operands] at hi
    exact h.operands_parent hwalk.fills hi
  · have hdead : s₃.dead.reverse =
        ((planOf c a).instsOf a (Plan.order a)).filter (planOf c a).retires := by
      rw [hwalk.represents.dead, Plan.walk_dead]
    rw [retired, eraseAll_append, ← hdead]
    unfold cells
    rw [bind_of_ok (get_apply s₀)]
    exact (bind_of_ok hplace).trans ((bind_of_ok hs₂).trans
      (bind_of_ok hs₃))

/-- Promotion of a verified function succeeds exactly if nothing that it retires is read by what
stays or is erased later, and it erases that; otherwise it is refused. -/
theorem promoteCells_spec (hcells : cellsOf c a.flow ≠ []) : ∃ m, Renamed c a m ∧
      (UnreadInOrder m (retired c a) →
        ∃ d, promoteCells a c = (.ok true, d) ∧ m.Erased d (retired c a)) ∧
      (¬ UnreadInOrder m (retired c a) →
        ∃ text n d, promoteCells a c = (.error (.contract (.stillUsed text n)), d)) := by
  obtain ⟨k, hk⟩ := knowUndefs_spec (cellsOf c a.flow)
    (fun x hx => sized_of_primitive (isCell_of_mem hx).primitive) c
  obtain ⟨s, hs, hcalc⟩ := h.cells_eq k
  have hparent : ∀ i ∈ retired c a, ∃ b, (s.context.inst i).parent = some b := by
    intro i hi
    rw [(Context.inst_of_frame hs.frame i).2.2.2]
    exact h.retired_parent hi
  obtain ⟨hok, herror⟩ := eraseAll_spec (retired c a) hs.sound h.retired_nodup hparent
  have hpromote :
    (∀ u t, eraseAll (retired c a) s = .ok u t → promoteCells a c = (.ok true, t.context)) ∧
      ∀ e t, eraseAll (retired c a) s = .error e t → promoteCells a c = (.error e, t.context) := by
    unfold promoteCells
    rw [h.preds_entry, ← hcalc]
    simp only [isEmpty_nil, Bool.not_true, Bool.false_eq_true, if_false,
      List.isEmpty_iff, hcells, build_of_ok (s := ⟨c, (cellsOf c a.flow).toArray, [], []⟩) hk]
    constructor
    all_goals
      intro _ _ hrun
      rw [hrun]
  refine ⟨s.context, hs, fun hunread => ?_, fun hread => ?_⟩
  · obtain ⟨d, hd, herased⟩ := hok hunread
    exact ⟨d, hpromote.1 _ _ hd, herased⟩
  · obtain ⟨text, n, s', hs'⟩ := herror hread
    exact ⟨text, n, s'.context, hpromote.2 _ _ hs'⟩

end Context.Checked

end SsaIr
