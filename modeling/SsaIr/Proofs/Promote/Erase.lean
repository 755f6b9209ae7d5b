import SsaIr.Proofs.Graph.Erase
import SsaIr.Proofs.Promote.Placement

/-!
# Erasing what promotion retired

Instructions are erased one after the other, and each must be unread by then. `UnreadInOrder` says
when that succeeds, and `eraseAll_spec` what comes of it.
-/

namespace SsaIr

namespace Promote

/-- Every instruction of a list is read by earlier ones of the list only. -/
def UnreadInOrder (c : Context) (l : List InstId) : Prop :=
  ∀ k i, l[k]? = some i → ∀ u, c.slot u = some (.inst i) → u.user ∈ l.take k

theorem unreadInOrder_cons {c d : Context} {i : InstId} {l : List InstId} (h : c.Erased d [i]) :
    UnreadInOrder c (i :: l) ↔ c.Unread i ∧ UnreadInOrder d l := by
  have hslot : ∀ u v, d.slot u = some v ↔ u.user ≠ i ∧ c.slot u = some v := by
    intro u v
    rw [h.slot]
    by_cases hu : u.user = i <;> simp [hu]
  constructor
  · intro hall
    refine ⟨fun u hu => ?_, fun k j hj u hu => ?_⟩
    · exact absurd (hall 0 i rfl u hu) List.not_mem_nil
    · obtain ⟨hne, hu⟩ := (hslot u _).mp hu
      have hmem := hall (k + 1) j hj u hu
      rw [List.take_succ_cons] at hmem
      exact (List.mem_cons.mp hmem).resolve_left hne
  · rintro ⟨hfirst, hrest⟩ k j hj u hu
    cases k with
    | zero =>
      cases hj
      exact absurd hu (hfirst u)
    | succ k =>
      rw [List.take_succ_cons]
      by_cases hui : u.user = i
      · rw [hui]
        exact .head _
      · exact .tail _ (hrest k j hj u ((hslot u _).mpr ⟨hui, hu⟩))

theorem eraseAll_spec (l : List InstId) {s : PromoteState} (h : s.context.Sound)
    (hnodup : l.Nodup) (hparent : ∀ i ∈ l, ∃ b, (s.context.inst i).parent = some b) :
    (UnreadInOrder s.context l →
      ∃ d, eraseAll l s = .ok () { s with context := d } ∧ s.context.Erased d l) ∧
    (¬ UnreadInOrder s.context l →
      ∃ text n s', eraseAll l s = .error (.contract (.stillUsed text n)) s') := by
  induction l generalizing s with
  | nil =>
    refine ⟨fun _ => ⟨s.context, rfl, .nil h⟩, fun hnot => absurd ?_ hnot⟩
    intro k i hi
    cases hi
  | cons i l ih =>
    obtain ⟨hi, hl⟩ := List.nodup_cons.mp hnodup
    obtain ⟨b, hb⟩ := hparent i (.head _)
    by_cases hunread : s.context.Unread i
    · obtain ⟨d, hd, herased⟩ := Build.erase_of_unread h hb hunread
      have hparent' : ∀ j ∈ l, ∃ b, (d.inst j).parent = some b := by
        intro j hj
        have hne : j ∉ [i] := fun hmem => hi (List.mem_singleton.mp hmem ▸ hj)
        rw [herased.parent, if_neg hne]
        exact hparent j (.tail _ hj)
      obtain ⟨hok, herror⟩ := ih (s := { s with context := d }) herased.sound hl hparent'
      have hstep : eraseAll (i :: l) s = eraseAll l { s with context := d } := by
        rw [eraseAll]
        exact EStateM.bind_of_ok (build_of_ok hd)
      rw [unreadInOrder_cons herased, hstep]
      refine ⟨fun hall => ?_, fun hnot => herror fun hrest => hnot ⟨hunread, hrest⟩⟩
      obtain ⟨e, he, herased'⟩ := hok hall.2
      exact ⟨e, he, herased.append herased'⟩
    · refine ⟨fun hall => absurd (fun u hu => ?_) hunread, fun _ => ?_⟩
      · exact absurd (hall 0 i rfl u hu) List.not_mem_nil
      · exact ⟨_, _, _,
          EStateM.bind_of_error (build_of_error (Build.erase_of_read h.linked hunread))⟩

end Promote

end SsaIr
