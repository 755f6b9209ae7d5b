import SsaIr.Proofs.Graph.Erase
import SsaIr.Proofs.Parse.Proper
import SsaIr.Proofs.Verify.Built

/-!
# Edited programs are regular

Whatever is edited, everything stands in the lists that it should and has proper types, if the
modules named by edits exist, the types given are proper, and no operands are added to what was
erased. Edits that make something are followed in `Edit.builds_run`; the others leave all but
operands, initial values or one instruction alone. The main results are `Workshop.regular_run` and
`Workshop.sound_run`.
-/

namespace SsaIr

open EStateM Build Context

theorem Context.Filed.erased {c d : Context} {id : InstId} {b : BlockId} (h : c.Filed)
    (hparent : (c.inst id).parent = some b) (hframe : d.frame = frameErase c id b) : d.Filed where
  toStanding := h.toStanding.erased hparent hframe
  arg_mem {a n} hn := by
    have harg : (d.arg a).code = (c.arg a).code := by
      rw [← frame_arg, hframe]
      exact frame_arg c a
    obtain ⟨-, -, hin, hindex⟩ := Argument.of_code harg
    have hfunc : (d.func (c.arg a).parent).code = (c.func (c.arg a).parent).code := by
      rw [← frame_func, hframe]
      exact frame_func c _
    rw [hin, (Function.of_code hfunc).2.1]
    exact h.arg_mem (hindex ▸ hn)
  func_mem {f} hf := by
    have hfunc : (d.func f).code = (c.func f).code := by
      rw [← frame_func, hframe]
      exact frame_func c f
    obtain ⟨-, -, -, -, -, hin, hlinked⟩ := Function.of_code hfunc
    have hmodules : d.modules = c.modules := congrArg (·.modules) hframe
    rw [hin, Context.module, hmodules]
    exact h.func_mem (hlinked ▸ hf)
  global_mem {g} hg := by
    have hglobal : (d.global g).code = (c.global g).code := by
      rw [← frame_global, hframe]
      exact frame_global c g
    have hmodules : d.modules = c.modules := congrArg (·.modules) hframe
    have hsize : d.frame.globals.size = c.frame.globals.size := congrArg (·.globals.size) hframe
    have hsizes : ∀ e : Context, e.frame.globals.size = e.globals.size := fun e => Array.size_map
    rw [(Global.of_code hglobal).2.1, Context.module, hmodules]
    rw [hsizes, hsizes] at hsize
    exact h.global_mem (hsize ▸ hg)

/-- What editing keeps up. -/
structure Context.Tended (c : Context) : Prop extends c.Lodged, c.Proper

namespace Edit

/-- The types that an edit is given, those of constants too. -/
def types (e : Edit) : List Ty :=
  (match e with
    | newFunction _ _ t _ | addArgument _ t _ | newPlaceholder _ t _ | newGlobal _ _ t _ | undef t
    | null t => t.toList
    | create i => i.types
    | _ => []) ++ e.values.filterMap fun
      | .const k => some k.type
      | _ => none

/-- Create instructions at the end of a block. -/
def fill (b : BlockId) (is : List Creation) : List Edit := .insertAt (some b) :: is.map .create

/-- The edit refers to what is there, and the types given are put together as types may be. -/
def Sensible (c : Context) (e : Edit) : Prop :=
  e.Sited c ∧ ∀ t ∈ e.types, t.isProper = true

instance (c : Context) (e : Edit) : Decidable (e.Sensible c) :=
  inferInstanceAs (Decidable (_ ∧ _))

variable {s t : Bench} {e : Edit}

set_option synthInstance.maxSize 1024

theorem keepsTypes_run (h : ∀ t ∈ e.types, t.isProper = true) : KeepsTypes e.run := by
  have hvalue : ∀ {v : Option Value}, (∀ w ∈ v, w ∈ e.values) → Fine v := by
    refine fun hv => ⟨?_⟩
    rintro w hw k rfl
    exact h _ (List.mem_append_right _ (List.mem_filterMap.mpr ⟨_, hv _ hw, rfl⟩))
  cases e <;> dsimp only [run]
  case newFunction t _ | addArgument t _ | newPlaceholder t _ | newGlobal t _ | undef t | null t =>
    have : Fine t := ⟨fun u hu => h u (List.mem_append_left _ (Option.mem_toList.mpr hu))⟩
    infer_instance
  case newBlock linked => cases linked <;> infer_instance
  case create i =>
    have hops : Fine i.operands := ⟨fun v hv => (hvalue fun w hw => ?_).out⟩
    have : Fine i.types := ⟨fun u hu => h u (List.mem_append_left _ hu)⟩
    · infer_instance
    · exact List.mem_filterMap.mpr ⟨v, hv, hw⟩
  case addIncoming v _ | setOperand _ v =>
    have : Fine v := hvalue fun w hw => by simp [values, Option.mem_def.mp hw]
    infer_instance
  case addCase k _ =>
    have : Fine k := ⟨fun l hl => (hvalue (v := some (.const l)) fun w hw => ?_).out _ rfl l rfl⟩
    · infer_instance
    · cases hw
      simp [values, Option.mem_def.mp hl]
  case replaceUses new =>
    have hnew : Fine (some new) := hvalue fun w hw => by simp [values, Option.some.inj hw]
    have : Fine new := ⟨hnew.out new rfl⟩
    infer_instance
  case newModule name =>
    have : KeepsTypes (Build.newModule name) :=
      .step fun _ => .bind (.modify fun _ hd => { hd with }) inferInstance
    infer_instance
  case insertAt => exact .modify fun _ hs => hs
  all_goals infer_instance

theorem proper_reached (he : e.Sensible s.context) (h : s.context.Proper) :
    (reached e.run s).context.Proper := by
  unfold reached
  cases hrun : e.run s with
  | ok _ t => exact ((keepsTypes_run he.2).run (s := s) h hrun).1
  | error _ t =>
    obtain ⟨hlearned | ⟨m, name, r, rfl, hret, hlearned⟩, -⟩ := e.eq_error hrun
    · exact h.learned hlearned
    · have hr : r.isProper = true := he.2 r (.head _)
      refine Proper.learned ?_ hlearned
      exact { h with functions := Array.forall_push h.functions ⟨hret, hr, by simp⟩ }

section

variable (hl : s.context.Linked fun _ => True)
include hl

theorem lodged_run (hmaking : e.isMaking = false) (he : e.Applies s.context)
    (h : e.run s = .ok () t) (hc : s.context.Lodged) :
    t.context.Lodged ∧ t.builder = s.builder ∧ ∀ b : BlockId,
      b.index < s.context.blocks.size → b.index < t.context.blocks.size := by
  obtain ⟨c, b⟩ := s
  obtain ⟨d, b'⟩ := t
  have hrewired : c.Rewired d → d.Lodged ∧ b = b ∧ ∀ b : BlockId, b.index < c.blocks.size →
      b.index < d.blocks.size := by
    intro hwire
    have hreworked := reworked_of_frame hwire.frame fun {k} => (hwire.tracks (.const k)).mpr
    exact ⟨hc.congr (hreworked.filed hc.toFiled)
      (fun i => (hreworked.inst i).2.2.2) hwire.sizes, rfl,
      fun b => (hwire.tracks (.block b)).mpr⟩
  unfold run at h
  cases e with
  | setInitializer g init =>
    obtain ⟨rfl, hset⟩ := ofBuild_eq_ok h
    rw [Build.setInitializer, get_bind_apply] at hset
    obtain ⟨_, e, hcheck, hset⟩ := bind_eq_ok_iff.mp hset
    obtain ⟨rfl, -⟩ := checkInitializer_eq_ok hcheck
    cases hset
    refine ⟨{ hc with global_mem := fun {g'} hg => ?_ }, rfl, fun _ => id⟩
    have hin : ((c.modifyGlobal g fun x => { x with init }).global g').parent =
      (c.global g').parent :=
      Array.apply_getD_modify Global.parent _ (fun _ => by rfl) g.index g'.index default
    rw [hin]
    exact hc.global_mem (hg.trans_eq Array.size_modify)
  | setOperand i n v =>
    obtain ⟨rfl, hset⟩ := ofBuild_eq_ok h
    cases hset
    exact hrewired (setUse_rewired c ⟨i, n⟩ v)
  | replaceUses old new =>
    obtain ⟨rfl, hreplace⟩ := ofBuild_eq_ok h
    rw [replaceUses_eq] at hreplace
    split at hreplace
    · cases hreplace
      exact ⟨hc, rfl, fun _ => id⟩
    · split at hreplace <;> cases hreplace
      exact hrewired (moveUses_spec hl (c.users old)
        (fun u hu => hasSlot_of_slot ((hl.mem_users trivial u).mp hu))
        fun _ => he.1 _ (.tail _ (.head _))).1
  | erase i =>
    obtain ⟨rfl, herase⟩ := ofBuild_eq_ok h
    have hrun := herase
    rw [erase_eq] at hrun
    split at hrun
    · next husers =>
        cases hparent : (c.inst i).parent with rw [hparent] at hrun
        | none =>
          cases hrun
          exact ⟨hc, rfl, fun _ => id⟩
        | some block =>
          have hs : c.Sound := ⟨⟨hc.toStanding, hc.operands_parent⟩, hl.mono fun _ _ => trivial⟩
          obtain ⟨d', hrun', hedited⟩ := erase_spec hs.linked hparent husers
          cases hrun'.symm.trans herase
          exact ⟨⟨hc.erased hparent hedited.frame_eq,
            (hs.erased hparent hedited).sound.operands_parent⟩, rfl,
            fun b => hedited.tracks (.block b)⟩
    · cases hrun
  | _ => cases hmaking

/-- Whatever happens to a sensible edit, a tended program stays tended. -/
theorem tended_reached
    (hb : ∀ block, s.builder.block = some block → block.index < s.context.blocks.size)
    (he : e.Applies s.context) (hs : e.Sensible s.context) (h : s.context.Tended) :
    (reached e.run s).context.Tended ∧ ∀ block, (reached e.run s).builder.block = some block →
      block.index < (reached e.run s).context.blocks.size := by
  have hproper := proper_reached hs h.toProper
  cases hmaking : e.isMaking with
  | true =>
    obtain ⟨hbuilds, hblock⟩ := builds_reached hl hb he hmaking
    exact ⟨⟨hbuilds.lodged hs.1 h.toLodged, hproper⟩, hblock⟩
  | false =>
    unfold reached at hproper ⊢
    cases hrun : e.run s with rw [hrun] at hproper
    | ok _ t =>
      obtain ⟨hlodged, hsame, hkept⟩ := lodged_run hl hmaking he hrun h.toLodged
      exact ⟨⟨hlodged, hproper⟩, fun block hblock => hkept block (hb block (hsame ▸ hblock))⟩
    | error _ t =>
      obtain ⟨hbuilds, hsame⟩ := builds_refused hrun
      exact ⟨⟨hbuilds.lodged hs.1 h.toLodged, hproper⟩,
        fun block hblock => (hbuilds.onward.block (hb block (hsame ▸ hblock))).1⟩

end

end Edit

namespace Workshop

/-- Each edit is sensible when its turn comes. -/
def Sensible : Workshop → List Edit → Prop
  | _, [] => True
  | s, e :: es => e.Sensible s.context ∧ (s.serve e).Sensible es

instance : ∀ (s : Workshop) (es : List Edit), Decidable (s.Sensible es)
  | _, [] => inferInstanceAs (Decidable True)
  | s, e :: es =>
    have := instDecidableSensible (s.serve e) es
    inferInstanceAs (Decidable (_ ∧ _))

/-- A tended program that is edited in sensible ways stays tended, also where edits are refused. -/
theorem tended_foldl {s : Workshop} {es : List Edit} (hes : s.Sensible es)
    (hm : s.threads.Mirrors s.context)
    (hb : ∀ b, s.builder.block = some b → b.index < s.context.blocks.size)
    (h : s.context.Tended) : (es.foldl serve s).context.Tended := by
  induction es generalizing s with
  | nil => exact h
  | cons e es ih =>
    obtain ⟨he, hes⟩ := hes
    have hserve : (s.serve e).context.Tended ∧
        ∀ b, (s.serve e).builder.block = some b → b.index < (s.serve e).context.blocks.size := by
      unfold serve
      split
      · next happlies => exact Edit.tended_reached hm.linked hb happlies he h
      · exact ⟨h, hb⟩
    exact ih hes (mirrors_serve hm e) hserve.2 hserve.1

variable {es : List Edit} (hes : (run []).Sensible es)
include hes

theorem tended_run : (run es).context.Tended :=
  tended_foldl hes (mirrors_run []) nofun
    ⟨⟨regular_new.toFiled, orderly_new.operands_parent⟩, proper_new⟩

theorem regular_run : (run es).context.Regular :=
  ⟨(tended_run hes).toFiled, (tended_run hes).toProper⟩

theorem sound_run : (run es).context.Sound :=
  ⟨⟨(tended_run hes).toStanding, (tended_run hes).operands_parent⟩,
    (mirrors_run es).linked.mono fun _ _ => trivial⟩

end Workshop

end SsaIr
