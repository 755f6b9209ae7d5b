import SsaIr.Proofs.Graph.Code

/-!
# Users mirror operands

The users recorded with a value are exactly the operand slots that refer to it, each once. The
property is stated for a class of values, so that it can be kept for local values alone. Read
`Context.Linked` first; `Linked.setUse`, `Linked.addOperand` and `Linked.dropOperands` say that the
changes of operands keep it, and `code_moveUses` that moving the users of a value to another
replaces the value everywhere.
-/

namespace SsaIr

open Instruction

theorem Instruction.mem_operands_iff {x : Instruction} {v : Value} :
    some v ∈ x.operands ↔ ∃ n, x.operand n = some v := by
  rw [Array.mem_iff_getElem?]
  refine exists_congr fun n => ?_
  rw [operand, Array.getD_eq_getD_getElem?]
  cases x.operands[n]? with
  | none => simp
  | some w => simp

namespace Context

def Tracks (c : Context) : Value → Prop
  | .const k => (c.constIndex? k).isSome = true
  | .arg a => a.index < c.args.size
  | .inst i => i.index < c.insts.size
  | .block b => b.index < c.blocks.size
  | .func f => f.index < c.functions.size
  | .global g => g.index < c.globals.size

def slot (c : Context) (u : Use) : Option Value := (c.inst u.user).operand u.index

def HasSlot (c : Context) (u : Use) : Prop := u.index < (c.inst u.user).operands.size

/-- The users of every value of a class are the slots that refer to it, each once. -/
structure Linked (T : Value → Prop) (c : Context) : Prop where
  nodup : ∀ {v}, T v → (c.users v).Nodup
  mem_users : ∀ {v}, T v → ∀ u, u ∈ c.users v ↔ c.slot u = some v

/-- The uses of values without one use of a value. -/
def without (us : Value → List Use) (u : Use) (old : Option Value) (w : Value) : List Use :=
  if old = some w then (us w).erase u else us w

/-- The uses of values after a use was moved from one value to another. -/
def moved (us : Value → List Use) (u : Use) (old new : Option Value) (w : Value) : List Use :=
  if new = some w then u :: without us u old w else without us u old w

section Moved

variable {us : Value → List Use} {w : Value} (h : (us w).Nodup)
include h

theorem nodup_without (u : Use) (old : Option Value) : (without us u old w).Nodup ∧
    ∀ x, x ∈ without us u old w ↔ x ∈ us w ∧ (old = some w → x ≠ u) := by
  unfold without
  split
  · next hv => exact ⟨h.erase u, fun x => by simp [h.mem_erase_iff, hv, and_comm]⟩
  · next hv => exact ⟨h, fun x => by simp [hv]⟩

variable {value : Use → Option Value} (hmem : ∀ x, x ∈ us w ↔ value x = some w)
include hmem

theorem mem_without_iff {u x : Use} : x ∈ without us u (value u) w ↔ x ≠ u ∧ value x = some w := by
  rw [(nodup_without h u _).2, hmem]
  constructor
  · rintro ⟨hx, hne⟩
    refine ⟨?_, hx⟩
    rintro rfl
    exact hne hx rfl
  · exact fun ⟨hne, hx⟩ => ⟨hx, fun _ => hne⟩

theorem nodup_moved (u : Use) (v : Option Value) : (moved us u (value u) v w).Nodup ∧
    ∀ x, x ∈ moved us u (value u) v w ↔ Function.update value u v x = some w := by
  have hrest := fun {x} => mem_without_iff h hmem (u := u) (x := x)
  have hnodup := (nodup_without h u (value u)).1
  unfold moved
  by_cases hv : v = some w
  · rw [if_pos hv]
    refine ⟨List.nodup_cons.mpr ⟨fun hu => (hrest.mp hu).1 rfl, hnodup⟩, fun x => ?_⟩
    rw [List.mem_cons, hrest, Function.update_apply]
    by_cases hx : x = u <;> simp [hx, hv]
  · rw [if_neg hv]
    refine ⟨hnodup, fun x => ?_⟩
    rw [hrest, Function.update_apply]
    by_cases hx : x = u <;> simp [hx, hv]

end Moved

theorem users_new (v : Value) : new.users v = [] := by
  cases v with
  | const k =>
    have hnone : ∀ i, (new.constants.getD i default).users = [] := by
      intro i
      match i with
      | 0 | 1 => rfl
      | i + 2 => rw [Array.getD_of_not_lt _ (Nat.le_add_left 2 i).not_gt]; rfl
    rw [users]
    split
    · exact hnone _
    · rfl
  | _ => rfl

section Users

variable (c : Context)

theorem constIndex?_eq (k : Const) : c.constIndex? k =
    (c.constants.map ConstEntry.const).findIdx? (fun x => decide (x = k)) := by
  rw [Array.findIdx?_map]
  rfl

theorem constIndex?_modifyUsers (v : Value) (f : List Use → List Use) (k : Const) :
    (c.modifyUsers v f).constIndex? k = c.constIndex? k := by
  cases v with
  | const k' =>
    simp only [modifyUsers]
    split
    · rw [constIndex?_eq, constIndex?_eq, Array.map_modify_of_forget]
      exact fun _ => rfl
    · rfl
  | _ => rfl

theorem constIndex?_inj {k k' : Const} {i : Nat} (h : c.constIndex? k = some i)
    (h' : c.constIndex? k' = some i) : k = k' := by
  obtain ⟨_, hk, _⟩ := Array.findIdx?_eq_some_iff_getElem.mp h
  obtain ⟨_, hk', _⟩ := Array.findIdx?_eq_some_iff_getElem.mp h'
  rw [decide_eq_true_eq] at hk hk'
  exact hk.symm.trans hk'

theorem users_modifyUsers (v w : Value) (f : List Use → List Use) (hv : c.Tracks v) :
    (c.modifyUsers v f).users w = if v = w then f (c.users w) else c.users w := by
  cases v with
  | const k =>
    obtain ⟨i, hi⟩ := Option.isSome_iff_exists.mp hv
    have hlt : i < c.constants.size := (Array.findIdx?_eq_some_iff_getElem.mp hi).1
    cases w with
    | const k' =>
      simp only [users, constIndex?_modifyUsers]
      simp only [modifyUsers, hi]
      by_cases hk : k = k'
      · subst hk
        simp only [hi, Array.getD_modify, hlt, and_self, if_true]
      · have hne : Value.const k ≠ .const k' := fun h => hk (Value.const.inj h)
        rw [if_neg hne]
        cases hj : c.constIndex? k' with
        | none => rfl
        | some j =>
          have hij : i ≠ j := by
            rintro rfl
            exact hk (constIndex?_inj c hi hj)
          simp only [Array.getD_modify, hij, false_and, if_false]
    | _ => simp [users, modifyUsers, hi, arg, inst, block, func, global]
  | arg a =>
    cases w with
    | arg a' =>
      exact Array.apply_getD_modify_of_lt Argument.users (fun _ => by rfl) hv _ _
        (by cases a; cases a'; simp)
    | _ => rfl
  | inst i =>
    cases w with
    | inst j =>
      exact Array.apply_getD_modify_of_lt Instruction.users (fun _ => by rfl) hv _ _
        (by cases i; cases j; simp)
    | _ => rfl
  | block b =>
    cases w with
    | block b' =>
      exact Array.apply_getD_modify_of_lt Block.users (fun _ => by rfl) hv _ _
        (by cases b; cases b'; simp)
    | _ => rfl
  | func f' =>
    cases w with
    | func g =>
      exact Array.apply_getD_modify_of_lt Function.users (fun _ => by rfl) hv _ _
        (by cases f'; cases g; simp)
    | _ => rfl
  | global g =>
    cases w with
    | global h =>
      exact Array.apply_getD_modify_of_lt Global.users (fun _ => by rfl) hv _ _
        (by cases g; cases h; simp)
    | _ => rfl

theorem users_of_not_tracks {v : Value} (hv : ¬ c.Tracks v) : c.users v = [] := by
  cases v with
  | const k =>
    have hnone : c.constIndex? k = none := by
      cases hk : c.constIndex? k with
      | none => rfl
      | some i => exact absurd (by simp [Tracks, hk]) hv
    simp only [users, hnone]
  | arg a => rw [users, arg, Array.getD_of_not_lt _ hv]; rfl
  | inst i => rw [users, inst, Array.getD_of_not_lt _ hv]; rfl
  | block b => rw [users, block, Array.getD_of_not_lt _ hv]; rfl
  | func g => rw [users, func, Array.getD_of_not_lt _ hv]; rfl
  | global g => rw [users, global, Array.getD_of_not_lt _ hv]; rfl

theorem modifyUsers_of_not_tracks {v : Value} (f : List Use → List Use) (hv : ¬ c.Tracks v)
    (w : Value) : (c.modifyUsers v f).users w = c.users w := by
  have hmodify {α : Type} (xs : Array α) {i : Nat} (hi : ¬ i < xs.size) (g : α → α) :
    xs.modify i g = xs :=
    xs.modify_of_size_le (not_lt.mp hi) g
  cases v with
  | const k =>
    cases hk : c.constIndex? k with
    | none => simp only [modifyUsers, hk]
    | some i => exact absurd (by simp [Tracks, hk]) hv
  | arg a => simp only [modifyUsers, modifyArg, hmodify c.args hv]
  | inst i => simp only [modifyUsers, modifyInst, hmodify c.insts hv]
  | block b => simp only [modifyUsers, modifyBlock, hmodify c.blocks hv]
  | func g => simp only [modifyUsers, modifyFunc, hmodify c.functions hv]
  | global g => simp only [modifyUsers, modifyGlobal, hmodify c.globals hv]

theorem users_unlinkUse (v : Option Value) (u : Use) (w : Value) :
    (c.unlinkUse v u).users w = without c.users u v w := by
  unfold without
  cases v with
  | none => rfl
  | some v =>
    by_cases hv : c.Tracks v
    · simp only [unlinkUse, users_modifyUsers c v w _ hv, Option.some.injEq]
    · rw [unlinkUse, modifyUsers_of_not_tracks c _ hv]
      split
      · rename_i hvw
        cases hvw
        rw [users_of_not_tracks c hv, List.erase_nil]
      · rfl

theorem users_linkUse {v : Option Value} {w : Value} (hv : v = some w → c.Tracks w) (u : Use) :
    (c.linkUse v u).users w = if v = some w then u :: c.users w else c.users w := by
  cases v with
  | none => rfl
  | some v =>
    by_cases htracks : c.Tracks v
    · simp only [linkUse, users_modifyUsers c v w _ htracks, Option.some.injEq]
    · have hne : some v ≠ some w := fun h => htracks (Option.some.inj h ▸ hv h)
      rw [linkUse, modifyUsers_of_not_tracks c _ htracks, if_neg hne]

end Users

/-! ## What the context keeps users of -/

section Tracks

variable (c : Context)

theorem tracks_modifyUsers (v : Value) (f : List Use → List Use) (w : Value) :
    (c.modifyUsers v f).Tracks w ↔ c.Tracks w := by
  cases w with
  | const k => simp only [Tracks, constIndex?_modifyUsers]
  | _ =>
    cases v <;> simp only [Tracks, modifyUsers, modifyArg, modifyInst, modifyBlock, modifyFunc,
      modifyGlobal, Array.size_modify]
    split <;> rfl

@[simp]
theorem tracks_unlinkUse (v : Option Value) (u : Use) (w : Value) :
    (c.unlinkUse v u).Tracks w ↔ c.Tracks w := by
  cases v with
  | none => rfl
  | some v => exact tracks_modifyUsers c v _ w

@[simp]
theorem tracks_linkUse (v : Option Value) (u : Use) (w : Value) :
    (c.linkUse v u).Tracks w ↔ c.Tracks w := by
  cases v with
  | none => rfl
  | some v => exact tracks_modifyUsers c v _ w

@[simp]
theorem tracks_modifyInst (i : InstId) (f : Instruction → Instruction) (w : Value) :
    (c.modifyInst i f).Tracks w ↔ c.Tracks w := by
  cases w <;> simp only [Tracks, modifyInst, Array.size_modify, constIndex?]

theorem users_modifyInst (i : InstId) {f : Instruction → Instruction}
    (hf : ∀ x, (f x).users = x.users) (w : Value) : (c.modifyInst i f).users w = c.users w := by
  cases w with
  | inst j => exact Array.apply_getD_modify Instruction.users c.insts hf i.index j.index default
  | _ => rfl

variable (u : Use) (i : InstId) (v : Option Value) (w : Value)

theorem setUse_eq : c.setUse u v = ((c.unlinkUse (c.slot u) u).putOperand u v).linkUse v u := rfl

theorem addOperand_eq :
    c.addOperand i v = (({ c with useCount := c.useCount + 1 } : Context).pushOperand i v).linkUse v
      { user := i, index := (c.inst i).operands.size } := rfl

theorem users_putOperand : (c.putOperand u v).users w = c.users w := by
  rw [putOperand, users_modifyInst]
  exact fun _ => rfl

theorem users_pushOperand : (c.pushOperand i v).users w = c.users w := by
  rw [pushOperand, users_modifyInst]
  exact fun _ => rfl

@[simp]
theorem tracks_putOperand : (c.putOperand u v).Tracks w ↔ c.Tracks w :=
  tracks_modifyInst c u.user _ w

@[simp]
theorem tracks_pushOperand : (c.pushOperand i v).Tracks w ↔ c.Tracks w :=
  tracks_modifyInst c i _ w

@[simp]
theorem tracks_setUse : (c.setUse u v).Tracks w ↔ c.Tracks w := by
  simp only [setUse_eq, tracks_linkUse, tracks_putOperand, tracks_unlinkUse]

@[simp]
theorem tracks_addOperand : (c.addOperand i v).Tracks w ↔ c.Tracks w := by
  simp only [addOperand_eq, tracks_linkUse, tracks_pushOperand]
  cases w <;> rfl

end Tracks

/-! ## Slots -/

section Slots

variable {c d : Context}

theorem slot_code (c : Context) (u : Use) : c.code.slot u = c.slot u := by
  simp only [slot, code_inst]
  rfl

theorem hasSlot_of_code (h : c.code = d.code) (u : Use) : c.HasSlot u ↔ d.HasSlot u := by
  rw [HasSlot, HasSlot, ← operands_code c, ← operands_code d, h]

theorem hasSlot_of_slot {u : Use} {v : Value} (h : c.slot u = some v) : c.HasSlot u :=
  Array.lt_size_of_getD (p := fun w => w = some v) h nofun

theorem HasSlot.lt {u : Use} (h : c.HasSlot u) : u.user.index < c.insts.size :=
  Array.lt_size_of_getD (p := fun x => u.index < x.operands.size) h (Nat.not_lt_zero _)

theorem slot_putOperand {u : Use} (h : c.HasSlot u) (v : Option Value) (u' : Use) :
    (c.putOperand u v).slot u' = if u = u' then v else c.slot u' := by
  have hlt := h.lt
  cases u with | mk i n => cases i with | mk i =>
  cases u' with | mk j m => cases j with | mk j =>
  rw [HasSlot] at h
  simp only [slot, putOperand, modifyInst, inst, Array.getD_modify, Use.mk.injEq, InstId.mk.injEq,
    operand] at hlt h ⊢
  by_cases hij : i = j
  · subst hij
    simp only [hlt, and_self, if_true, Array.getD_setIfInBounds, true_and]
    simp only [h, and_true]
  · simp only [hij, false_and, if_false]

theorem slot_pushOperand {i : InstId} (hi : i.index < c.insts.size) (v : Option Value) (u : Use) :
    (c.pushOperand i v).slot u =
      if u = { user := i, index := (c.inst i).operands.size } then v else c.slot u := by
  cases u with | mk j n => cases j with | mk j => cases i with | mk i =>
  simp only [slot, pushOperand, modifyInst, inst, Array.getD_modify, Use.mk.injEq, InstId.mk.injEq,
    operand, hi, and_true]
  by_cases hij : i = j
  · subst hij
    simp only [if_true, true_and, Array.getD_push]
  · simp only [hij, Ne.symm hij, false_and, if_false]

theorem slot_setUse {u : Use} (h : c.HasSlot u) (v : Option Value) (u' : Use) :
    (c.setUse u v).slot u' = if u = u' then v else c.slot u' := by
  rw [← slot_code, code_setUse, slot_putOperand ((hasSlot_of_code (code_code c) u).mpr h),
    slot_code]

theorem slot_addOperand {i : InstId} (hi : i.index < c.insts.size) (v : Option Value) (u : Use) :
    (c.addOperand i v).slot u =
      if u = { user := i, index := (c.inst i).operands.size } then v else c.slot u := by
  rw [← slot_code, code_addOperand, slot_pushOperand, slot_code, code_inst]
  · rfl
  · rwa [code_insts_size]

theorem slot_new (c : Context) (i : InstId) :
    c.slot { user := i, index := (c.inst i).operands.size } = none := by
  rw [slot, operand, Array.getD_of_not_lt _ (lt_irrefl _)]

theorem users_setUse (c : Context) (u : Use) {v : Option Value} {w : Value}
    (hv : v = some w → c.Tracks w) : (c.setUse u v).users w = moved c.users u (c.slot u) v w := by
  have htracks : v = some w → ((c.unlinkUse (c.slot u) u).putOperand u v).Tracks w := by
    rw [tracks_putOperand, tracks_unlinkUse]
    exact hv
  rw [setUse_eq, users_linkUse _ htracks, users_putOperand, users_unlinkUse, moved]

theorem users_addOperand (c : Context) (i : InstId) {v : Option Value} {w : Value}
    (hv : v = some w → c.Tracks w) : (c.addOperand i v).users w =
      if v = some w then { user := i, index := (c.inst i).operands.size } :: c.users w
      else c.users w := by
  have hcount : ({ c with useCount := c.useCount + 1 } : Context).users w = c.users w := by
    cases w <;> rfl
  have htracks : v = some w →
      (({ c with useCount := c.useCount + 1 } : Context).pushOperand i v).Tracks w := by
    rw [tracks_pushOperand]
    cases w <;> exact hv
  rw [addOperand_eq, users_linkUse _ htracks, users_pushOperand, hcount]

end Slots

/-! ## Changes of operands keep users and operands together -/

namespace Linked

variable {T : Value → Prop} {c d : Context}

section

variable (h : c.Linked T)
include h

theorem congr (husers : ∀ v, T v → d.users v = c.users v)
    (hslot : ∀ u, d.slot u = c.slot u) : d.Linked T := by
  refine ⟨fun hv => ?_, fun hv u => ?_⟩
  · rw [husers _ hv]
    exact h.nodup hv
  · rw [husers _ hv, hslot]
    exact h.mem_users hv u

theorem mono {S : Value → Prop} (hle : ∀ v, S v → T v) : c.Linked S :=
  ⟨fun hv => h.nodup (hle _ hv), fun hv => h.mem_users (hle _ hv)⟩

/-- Users with one slot moved from a value to another: the general form of setting, adding and
clearing an operand. -/
theorem move (u : Use) (v : Option Value)
    (hslot : ∀ u', d.slot u' = if u = u' then v else c.slot u')
    (husers : ∀ w, T w → d.users w = moved c.users u (c.slot u) v w) : d.Linked T := by
  have hupdate : d.slot = Function.update c.slot u v := funext fun u' => by
    simp only [hslot, Function.update_apply, eq_comm]
  refine ⟨fun {w} hw => ?_, fun {w} hw u' => ?_⟩ <;> rw [husers w hw]
  · exact (nodup_moved (h.nodup hw) (h.mem_users hw) u v).1
  · rw [hupdate]
    exact (nodup_moved (h.nodup hw) (h.mem_users hw) u v).2 u'

theorem setUse {u : Use} (hu : c.HasSlot u) {v : Option Value}
    (hv : ∀ w, v = some w → T w → c.Tracks w) : (c.setUse u v).Linked T :=
  h.move u v (fun u' => slot_setUse hu v u') fun w hw => users_setUse c u fun hvw => hv w hvw hw

theorem addOperand {i : InstId} (hi : i.index < c.insts.size) {v : Option Value}
    (hv : ∀ w, v = some w → T w → c.Tracks w) : (c.addOperand i v).Linked T := by
  refine h.move { user := i, index := (c.inst i).operands.size } v (fun u' => ?_) fun w hw => ?_
  · rw [slot_addOperand hi]
    by_cases hu : u' = { user := i, index := (c.inst i).operands.size }
    · rw [if_pos hu, if_pos hu.symm]
    · rw [if_neg hu, if_neg (Ne.symm hu)]
  · rw [slot_new]
    exact users_addOperand c i fun hvw => hv w hvw hw

end

end Linked

/-! ## Moving the users of a value -/

/-- One context is another with other operands in the same slots. -/
structure Rewired (c d : Context) : Prop where
  frame : d.frame = c.frame
  sizes : ∀ i, (d.inst i).operands.size = (c.inst i).operands.size
  tracks : ∀ v, d.Tracks v ↔ c.Tracks v

namespace Rewired

variable {c d e : Context}

theorem refl (c : Context) : c.Rewired c := ⟨rfl, fun _ => rfl, fun _ => Iff.rfl⟩

theorem trans (hcd : c.Rewired d) (hde : d.Rewired e) : c.Rewired e :=
  ⟨hde.frame.trans hcd.frame, fun i => (hde.sizes i).trans (hcd.sizes i),
    fun v => (hde.tracks v).trans (hcd.tracks v)⟩

theorem hasSlot_iff (h : c.Rewired d) (u : Use) : d.HasSlot u ↔ c.HasSlot u := by
  rw [HasSlot, HasSlot, h.sizes]

theorem operands_eq (h : c.Rewired d) (i : InstId) (g : Option Value → Option Value)
    (hg : ∀ n, c.HasSlot ⟨i, n⟩ → d.slot ⟨i, n⟩ = g (c.slot ⟨i, n⟩)) :
    (d.inst i).operands = (c.inst i).operands.map g := by
  refine Array.ext (by rw [Array.size_map, h.sizes]) fun n hn hn' => ?_
  rw [Array.size_map] at hn'
  have hslot := hg n hn'
  simp only [slot, operand, Array.getD_of_lt _ hn, Array.getD_of_lt _ hn'] at hslot
  rwa [Array.getElem_map]

end Rewired

theorem setUse_rewired (c : Context) (u : Use) (v : Option Value) : c.Rewired (c.setUse u v) := by
  refine ⟨frame_setUse c u v, fun i => ?_, tracks_setUse c u v⟩
  rw [← operands_code, ← operands_code c, code_setUse]
  simp only [putOperand, modifyInst, inst, Array.getD_modify]
  split
  · exact Array.size_setIfInBounds
  · rfl

variable {T : Value → Prop} {c : Context}

/-- Moving slots to a value rewires, keeps users and operands together, and puts the value into the
slots. -/
theorem moveUses_spec (h : c.Linked T) (us : List Use) (hus : ∀ u ∈ us, c.HasSlot u) {v : Value}
    (hv : T v → c.Tracks v) :
    c.Rewired (c.moveUses us v) ∧ (c.moveUses us v).Linked T ∧
      ∀ u, (c.moveUses us v).slot u = if u ∈ us then some v else c.slot u := by
  induction us generalizing c with
  | nil => exact ⟨.refl c, h, fun u => by simp [moveUses]⟩
  | cons u us ih =>
    have hslot := hus u (.head _)
    have hwire := setUse_rewired c u (some v)
    have hset : (c.setUse u (some v)).Linked T := by
      refine h.setUse hslot fun w hw hT => ?_
      cases hw
      exact hv hT
    obtain ⟨hrest, hlinked, hslots⟩ := ih hset
      (fun u' hu' => (hwire.hasSlot_iff u').mpr (hus u' (.tail _ hu')))
      (fun hT => (hwire.tracks v).mpr (hv hT))
    refine ⟨hwire.trans hrest, hlinked, fun u' => ?_⟩
    rw [moveUses, List.foldl_cons]
    rw [moveUses] at hslots
    rw [hslots u', slot_setUse hslot]
    by_cases huu : u = u'
    · simp [huu]
    · simp [huu, Ne.symm huu]

def substOperand (old new : Value) (v : Option Value) : Option Value :=
  if v = some old then some new else v

theorem moveUsers_spec (h : c.Linked T) {old new : Value} (hold : T old)
    (hnew : T new → c.Tracks new) :
    c.Rewired (c.moveUses (c.users old) new) ∧ (c.moveUses (c.users old) new).Linked T ∧
      ∀ i, ((c.moveUses (c.users old) new).inst i).operands =
        (c.inst i).operands.map (substOperand old new) := by
  obtain ⟨hwire, hlinked, hslots⟩ := moveUses_spec h (c.users old)
    (fun u hu => hasSlot_of_slot ((h.mem_users hold u).mp hu)) hnew
  refine ⟨hwire, hlinked, fun i => hwire.operands_eq i _ fun n _ => ?_⟩
  rw [hslots, substOperand]
  simp only [h.mem_users hold]

/-! ## Clearing the operands of an instruction -/

/-- Take slots of an instruction out of the users of the operands listed with them. -/
def unlinkAll (c : Context) (i : InstId) (ps : List (Option Value × Nat)) : Context :=
  ps.foldl (fun c p => c.unlinkUse p.1 { user := i, index := p.2 }) c

section

variable (c : Context) (i : InstId) (ps : List (Option Value × Nat))

theorem code_unlinkAll : (c.unlinkAll i ps).code = c.code := by
  induction ps generalizing c with
  | nil => rfl
  | cons p ps ih => exact (ih _).trans (code_unlinkUse c p.1 _)

theorem tracks_unlinkAll (v : Value) : (c.unlinkAll i ps).Tracks v ↔ c.Tracks v := by
  induction ps generalizing c with
  | nil => rfl
  | cons p ps ih => exact (ih _).trans (tracks_unlinkUse c p.1 _ v)

theorem users_unlinkAll (v : Value) (hnodup : (c.users v).Nodup) :
    ((c.unlinkAll i ps).users v).Nodup ∧ ∀ u, u ∈ (c.unlinkAll i ps).users v ↔
      u ∈ c.users v ∧ ∀ p ∈ ps, p.1 = some v → u ≠ { user := i, index := p.2 } := by
  induction ps generalizing c with
  | nil => exact ⟨hnodup, fun u => by simp [unlinkAll]⟩
  | cons p ps ih =>
    obtain ⟨hnodup', hstep⟩ := nodup_without hnodup { user := i, index := p.2 } p.1
    rw [← users_unlinkUse] at hnodup' hstep
    obtain ⟨hrest, hmem⟩ := ih _ hnodup'
    refine ⟨hrest, fun u => (hmem u).trans ?_⟩
    rw [hstep, List.forall_mem_cons, and_assoc]

end

def clearOperands (c : Context) (i : InstId) : Context :=
  c.modifyInst i fun x => { x with operands := #[] }

section

variable (c : Context) (i : InstId)

theorem dropOperands_eq : c.dropOperands i =
    (c.unlinkAll i (c.inst i).operands.toList.zipIdx).clearOperands i := rfl

theorem code_dropOperands : (c.dropOperands i).code = c.code.clearOperands i := by
  rw [dropOperands_eq, clearOperands, code_modifyInst, code_unlinkAll]
  · rfl
  · exact fun _ => rfl

theorem slot_dropOperands (u : Use) :
    (c.dropOperands i).slot u = if u.user = i then none else c.slot u := by
  rw [← slot_code, code_dropOperands, ← slot_code c]
  cases u with | mk j n => cases j with | mk j => cases i with | mk i =>
  simp only [slot, clearOperands, modifyInst, inst, Array.getD_modify, InstId.mk.injEq,
    operand]
  by_cases hij : i = j
  · subst hij
    by_cases hi : i < c.code.insts.size
    · simp only [hi, and_self, if_true]
      exact Array.getD_of_not_lt _ (Nat.not_lt_zero n) none
    · simp only [hi, and_false, if_false, if_true]
      rw [Array.getD_of_not_lt c.code.insts hi]
      rfl
  · simp only [hij, Ne.symm hij, false_and, if_false]

end

theorem Linked.dropOperands (h : c.Linked T) (i : InstId) : (c.dropOperands i).Linked T := by
  have husers : ∀ v, (c.dropOperands i).users v =
      (c.unlinkAll i (c.inst i).operands.toList.zipIdx).users v := by
    intro v
    rw [dropOperands_eq, clearOperands, users_modifyInst]
    exact fun _ => rfl
  refine ⟨fun {v} hv => ?_, fun {v} hv u => ?_⟩
  · rw [husers]
    exact (users_unlinkAll c i _ v (h.nodup hv)).1
  · rw [husers, (users_unlinkAll c i _ v (h.nodup hv)).2 u, slot_dropOperands, h.mem_users hv]
    by_cases hu : u.user = i
    · rw [if_pos hu]
      constructor
      · rintro ⟨hslot, hall⟩
        -- The slot itself is among those taken out.
        have hlt : u.index < (c.inst i).operands.size := by
          have := hasSlot_of_slot hslot
          rwa [HasSlot, hu] at this
        refine absurd ?_ (hall (some v, u.index) ?_ rfl)
        · cases u
          simp only at hu
          rw [hu]
        · rw [List.mk_mem_zipIdx_iff_getElem?, Array.getElem?_toList,
            Array.getElem?_eq_getElem hlt]
          rw [slot, hu, operand, Array.getD_of_lt _ hlt] at hslot
          rw [hslot]
      · intro hn
        cases hn
    · rw [if_neg hu]
      constructor
      · exact And.left
      · intro hslot
        refine ⟨hslot, fun p _ _ huse => hu ?_⟩
        rw [huse]

theorem frame_dropOperands (c : Context) (i : InstId) : (c.dropOperands i).frame = c.frame := by
  rw [dropOperands_eq, clearOperands, frame_modifyInst, frame_of_code (code_unlinkAll c i _)]
  exact fun _ => rfl

theorem tracks_dropOperands (c : Context) (i : InstId) (v : Value) :
    (c.dropOperands i).Tracks v ↔ c.Tracks v := by
  rw [dropOperands_eq, clearOperands, tracks_modifyInst, tracks_unlinkAll]

end Context

end SsaIr
