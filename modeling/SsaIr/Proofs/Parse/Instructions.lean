import SsaIr.Proofs.Graph.Regular
import SsaIr.Proofs.Parse.Operands
import SsaIr.Proofs.Parse.Writing

/-!
# Reading instructions stays coherent

Each opcode reads operands that can be used and lets the builder make a well-typed instruction of
them. What `instruction` leaves is again coherent, with the result bound to its name.
-/

namespace SsaIr

open EStateM Builder

variable {want : Option Ty}

namespace Parse

variable {s s' t : ParseState} {pending : Value → Prop} {m : ModuleId} {f : FuncId}
  {b : BlockId} {vs : List (Option Value)} {n : Nat} {i : InstId} {name : String} {u : Unit}

/-! ## Several operands -/

/-- Several operands were read, all of which can be used. -/
structure GivesAll (s s' : ParseState) (pending : Value → Prop) (vs : List (Option Value)) :
    Prop where
  grows : s.Grows s'
  coherent : s'.Coherent pending
  usable : ∀ v ∈ vs, ∃ w, v = some w ∧ s'.Usable w

theorem Gives.all {v : Value} (h : Gives s s' pending v) : GivesAll s s' pending [some v] where
  grows := h.grows
  coherent := h.coherent
  usable w hw := by
    rw [List.mem_singleton.mp hw]
    exact ⟨v, rfl, h.usable⟩

theorem GivesAll.nil (hs : s.Coherent pending) : GivesAll s s pending [] :=
  ⟨.refl s, hs, nofun⟩

theorem GivesAll.append {ws : List (Option Value)} (h : GivesAll s t pending vs)
    (h' : GivesAll t s' pending ws) : GivesAll s s' pending (vs ++ ws) where
  grows := h.grows.trans h'.grows
  coherent := h'.coherent
  usable v hv := by
    rcases List.mem_append.mp hv with hv | hv
    · obtain ⟨w, rfl, hw⟩ := h.usable v hv
      exact ⟨w, rfl, hw.grows h.coherent h'.grows⟩
    · exact h'.usable v hv

theorem GivesAll.moved (h : GivesAll s t pending vs) (hm : t.Moved s') :
    GivesAll s s' pending vs where
  grows := h.grows.trans hm.grows
  coherent := h.coherent.moved hm
  usable v hv := by
    obtain ⟨w, rfl, hw⟩ := h.usable v hv
    exact ⟨w, rfl, hw.grows h.coherent hm.grows⟩

theorem label_eq_ok (hs : s.Coherent pending) (hf : s.function = some f) {b : BlockId}
    (h : label f s = .ok b s') : Gives s s' pending (.block b) := by
  obtain ⟨-, h⟩ := expect_bind_eq_ok_iff.mp h
  exact .of_moved s.moved_advance (block_eq_ok (hs.moved s.moved_advance) hf h).1

section Steps

variable {α β : Type} {a : α} (hvs : GivesAll s t pending vs)
include hvs

theorem GivesAll.step {x : Parse β} [Moves x] {k : β → Parse α} (h : (x >>= k) t = .ok a s') :
    ∃ y t', GivesAll s t' pending vs ∧ k y t' = .ok a s' := by
  obtain ⟨y, t', hm, hrest⟩ := Moves.of_bind h
  exact ⟨y, t', hvs.moved hm, hrest⟩

theorem GivesAll.operand {k : Value → Parse α}
    (h : (operand want >>= k) t = .ok a s') :
    ∃ v t', GivesAll s t' pending (vs ++ [some v]) ∧ k v t' = .ok a s' := by
  obtain ⟨v, t', hv, hrest⟩ := bind_eq_ok_iff.mp h
  exact ⟨v, t', hvs.append (operand_eq_ok hvs.coherent hv).all, hrest⟩

theorem GivesAll.label (hf : s.function = some f) {k : BlockId → Parse α}
    (h : (comma >>= fun _ => label f >>= k) t = .ok a s') :
    ∃ dest t', GivesAll s t' pending (vs ++ [some (.block dest)]) ∧ k dest t' = .ok a s' := by
  obtain ⟨_, s₁, h₁, h⟩ := hvs.step h
  obtain ⟨dest, s₂, hdest, h⟩ := bind_eq_ok_iff.mp h
  exact ⟨dest, s₂, h₁.append (label_eq_ok h₁.coherent (h₁.grows.function.trans hf) hdest).all, h⟩

theorem GivesAll.operandPair {k : Value × Value → Parse α} (h : (operandPair >>= k) t = .ok a s') :
    ∃ p t', GivesAll s t' pending (vs ++ [some p.1] ++ [some p.2]) ∧ k p t' = .ok a s' := by
  obtain ⟨p, t', hp, hrest⟩ := bind_eq_ok_iff.mp h
  obtain ⟨lhs, s₁, h₁, hp⟩ := hvs.operand hp
  obtain ⟨_, s₂, h₂, hp⟩ := h₁.step hp
  rw [inContext_bind] at hp
  obtain ⟨rhs, s₃, h₃, hp⟩ := h₂.operand hp
  obtain ⟨rfl, rfl⟩ := pure_eq_ok_iff.mp hp
  exact ⟨_, _, h₃, hrest⟩

end Steps

theorem indices_eq_ok (hs : s.Coherent pending) (h : indices n s = .ok vs s') :
    GivesAll s s' pending vs := by
  induction n generalizing s vs with
  | zero => cases h
  | succ n ih =>
    rw [indices, eat_bind] at h
    split at h
    · obtain ⟨v, s₁, h₁, h⟩ := ((GivesAll.nil hs).moved s.moved_advance).operand h
      obtain ⟨ws, s₂, hws, h⟩ := bind_eq_ok_iff.mp h
      obtain ⟨rfl, rfl⟩ := pure_eq_ok_iff.mp h
      exact h₁.append (ih h₁.coherent hws)
    · obtain ⟨rfl, rfl⟩ := pure_eq_ok_iff.mp h
      exact .nil hs

theorem arguments_eq_ok {first : Bool} {params : List Ty} (hs : s.Coherent pending)
    (h : arguments n first params s = .ok vs s') : GivesAll s s' pending vs := by
  induction n generalizing s vs first params with
  | zero => cases h
  | succ n ih =>
    rw [arguments, at?_bind] at h
    split at h
    · obtain ⟨rfl, rfl⟩ := pure_eq_ok_iff.mp h
      exact .nil hs
    · obtain ⟨t, hcomma, h⟩ := moved_of_separator h
      obtain ⟨v, s₁, h₁, h⟩ := ((GivesAll.nil hs).moved hcomma).operand h
      obtain ⟨ws, s₂, hws, h⟩ := bind_eq_ok_iff.mp h
      obtain ⟨rfl, rfl⟩ := pure_eq_ok_iff.mp h
      exact h₁.append (ih h₁.coherent hws)

theorem calleeValue_eq_ok (hs : s.Coherent pending) (hf : s.function = some f) {t : Ty} {v : Value}
    (h : calleeValue f t s = .ok v s') : Gives s s' pending v := by
  rw [calleeValue, current_bind, eat_bind] at h
  split at h
  · rw [if_pos rfl, at?_bind] at h
    split at h
    · obtain ⟨u, s₁, hu, h⟩ := bind_eq_ok_iff.mp h
      have hmoved := Moves.moved hu
      obtain ⟨_, s₂, hcheck, h⟩ := bind_eq_ok_iff.mp h
      obtain rfl := checkType_eq_ok hcheck
      have hall := s.moved_advance.trans hmoved
      exact .of_moved hall (localValue_eq_ok (hs.moved hall) (hall.grows.function.trans hf) h)
    · exact .of_moved s.moved_advance (localValue_eq_ok (hs.moved s.moved_advance) hf h)
  · exact operand_eq_ok hs h

instance {op : Opcode} : Moves (predicate op) := by
  refine .bind inferInstance fun tok => ?_
  dsimp only
  split <;> infer_instance

/-! ## Building -/

/-- An instruction was made in the block and waits to be bound to the name asked for. -/
structure Builds (s : ParseState) (m : ModuleId) (f : FuncId) (b : BlockId) (name : String)
    (i : InstId) : Prop where
  place : s.At m f b (· = .inst i)
  parent : (s.context.inst i).parent = some b
  name : (s.context.inst i).type ≠ .void → name ≠ "" → (s.context.inst i).name = name

theorem builds_of_emit (hs : s.At m f b fun _ => False)
    (hvs : GivesAll s t (fun _ => False) vs) {x : Building InstId}
    (hx : ∀ {u}, x ⟨t.context, t.builder⟩ = .ok i u → Emits ⟨t.context, t.builder⟩ name vs i u)
    (h : emit x t = .ok i s') : Builds s' m f b name i := by
  obtain ⟨u, hbuilt, rfl⟩ := emit_eq_ok_iff.mp h
  obtain ⟨hat, hparent, hname⟩ :=
    (hs.grows hvs.grows hvs.coherent).emit hvs.usable (hx hbuilt)
  exact ⟨hat, hparent, hname⟩

theorem Builds.addOperands (h : Builds s m f b name i)
    (hvs : GivesAll s t (· = .inst i) vs) {d : Context} (hd : d = t.context.addOperands i vs)
    (hx : ∀ y : Instruction, y.op = (t.context.inst i).op → y.type = (t.context.inst i).type →
      y.operands = (t.context.inst i).operands ++ vs.toArray → t.context.Fits f (t.context.inst i) →
        t.context.Fits f y) : Builds (t.within d) m f b name i := by
  have hat := h.place.grows hvs.grows hvs.coherent
  have hinst := hvs.grows.context.inst i
  obtain ⟨hat', hreworked⟩ := hat.addOperands (hinst ▸ h.parent) hvs.usable hx hd
  obtain ⟨-, hname, htype, hparent⟩ := hreworked.inst i
  rw [hinst] at hname htype hparent
  refine ⟨hat', hparent.trans h.parent, fun hne hhint => hname.trans (h.name ?_ hhint)⟩
  exact htype ▸ hne

theorem Builds.moved (h : Builds s m f b name i) (hm : s.Moved s') : Builds s' m f b name i := by
  have hinst := hm.grows.context.inst i
  exact ⟨h.place.grows hm.grows (h.place.moved hm), hinst ▸ h.parent, hinst ▸ h.name⟩

theorem switchCases_eq_ok (hs : Builds s m f b name i)
    (h : switchCases f i want n s = .ok u s') : Builds s' m f b name i := by
  induction n generalizing s with
  | zero => cases h
  | succ n ih =>
    rw [switchCases, eat_bind] at h
    split at h
    · obtain ⟨_, s₁, h₁, h⟩ := ((GivesAll.nil hs.place.toCoherent).moved s.moved_advance).step h
      rw [current_bind] at h
      obtain ⟨k, s₂, h₂, h⟩ := h₁.operand h
      split at h
      · next w v =>
          obtain ⟨dest, s₃, h₃, h⟩ := h₂.label hs.place.function h
          obtain ⟨_, d, hadd, h⟩ := construct_bind_eq_ok_iff.mp h
          obtain ⟨hd, -, htyped⟩ := Build.addCase_eq_ok (f := f) hadd
          obtain ⟨_, s₄, hmoved, h⟩ := Moves.of_bind h
          exact ih ((hs.addOperands h₃ hd (htyped rfl)).moved hmoved) h
      · simp at h
    · obtain ⟨-, rfl⟩ := pure_eq_ok_iff.mp h
      exact hs

theorem phiPairs_eq_ok (hs : Builds s m f b name i)
    (h : phiPairs f i want n s = .ok u s') : Builds s' m f b name i := by
  induction n generalizing s with
  | zero => cases h
  | succ n ih =>
    rw [phiPairs] at h
    obtain ⟨_, s₁, h₁, h⟩ := (GivesAll.nil hs.place.toCoherent).step h
    obtain ⟨v, s₂, h₂, h⟩ := h₁.operand h
    obtain ⟨dest, s₃, h₃, h⟩ := h₂.label hs.place.function h
    obtain ⟨_, d, hadd, h⟩ := construct_bind_eq_ok_iff.mp h
    obtain ⟨hd, -, -, htyped⟩ := Build.addIncoming_eq_ok (f := f) hadd
    obtain ⟨_, s₄, hmoved, h⟩ := Moves.of_bind h
    have hbuilt := (hs.addOperands h₃ hd htyped).moved hmoved
    rw [eat_bind] at h
    split at h
    · exact ih (hbuilt.moved (ParseState.moved_advance _)) h
    · obtain ⟨-, rfl⟩ := pure_eq_ok_iff.mp h
      exact hbuilt

theorem build_eq_ok (hs : s.At m f b fun _ => False) {op : Opcode} {opPos : Position}
    {t : Option Ty}
    (h : build f op opPos t name s = .ok i s') : Builds s' m f b name i := by
  have hnone := GivesAll.nil hs.toCoherent
  cases op with
  | ret =>
    rw [build, eat_bind] at h
    split at h
    · exact builds_of_emit hs (hnone.moved s.moved_advance) retVoid_emits h
    · obtain ⟨v, s₁, h₁, h⟩ := hnone.operand h
      exact builds_of_emit hs h₁ ret_emits h
  | br =>
    rw [build, at?_bind] at h
    split at h
    · obtain ⟨dest, s₁, hdest, h⟩ := bind_eq_ok_iff.mp h
      exact builds_of_emit hs (label_eq_ok hs.toCoherent hs.function hdest).all br_emits h
    · obtain ⟨cond, s₁, h₁, h⟩ := hnone.operand h
      obtain ⟨yes, s₂, h₂, h⟩ := h₁.label hs.function h
      obtain ⟨no, s₃, h₃, h⟩ := h₂.label hs.function h
      exact builds_of_emit hs h₃ condBr_emits h
  | switch =>
    rw [build] at h
    obtain ⟨cond, s₁, h₁, h⟩ := hnone.operand h
    obtain ⟨default, s₂, h₂, h⟩ := h₁.label hs.function h
    obtain ⟨j, s₃, hemit, h⟩ := bind_eq_ok_iff.mp h
    have hbuilt : Builds s₃ m f b name j := builds_of_emit hs h₂ switch_emits hemit
    rw [inContext_bind, budget_bind] at h
    obtain ⟨_, s₄, hcases, h⟩ := bind_eq_ok_iff.mp h
    obtain ⟨rfl, rfl⟩ := pure_eq_ok_iff.mp h
    exact switchCases_eq_ok hbuilt hcases
  | int op | float op =>
    rw [build] at h
    obtain ⟨p, s₁, h₁, h⟩ := hnone.operandPair h
    exact builds_of_emit hs h₁ binary_emits h
  | icmp =>
    rw [build] at h
    obtain ⟨q, s₁, h₁, h⟩ := hnone.step h
    obtain ⟨p, s₂, h₂, h⟩ := h₁.operandPair h
    exact builds_of_emit hs h₂ icmp_emits h
  | fcmp =>
    rw [build] at h
    obtain ⟨q, s₁, h₁, h⟩ := hnone.step h
    obtain ⟨p, s₂, h₂, h⟩ := h₁.operandPair h
    exact builds_of_emit hs h₂ fcmp_emits h
  | alloca =>
    rw [build] at h
    obtain ⟨u, s₁, h₁, h⟩ := hnone.step h
    exact builds_of_emit hs h₁ alloca_emits h
  | load =>
    rw [build] at h
    obtain ⟨ptr, s₁, h₁, h⟩ := hnone.operand h
    exact builds_of_emit hs h₁ load_emits h
  | store =>
    rw [build] at h
    obtain ⟨v, s₁, h₁, h⟩ := hnone.operand h
    obtain ⟨_, s₂, h₂, h⟩ := h₁.step h
    obtain ⟨ptr, s₃, h₃, h⟩ := h₂.operand h
    exact builds_of_emit hs h₃ store_emits h
  | gep =>
    rw [build] at h
    obtain ⟨inBounds, s₁, h₁, h⟩ := hnone.step h
    obtain ⟨source, s₂, h₂, h⟩ := h₁.step h
    obtain ⟨_, s₃, h₃, h⟩ := h₂.step h
    obtain ⟨base, s₄, h₄, h⟩ := h₃.operand h
    rw [budget_bind] at h
    obtain ⟨idx, s₅, hidx, h⟩ := bind_eq_ok_iff.mp h
    exact builds_of_emit hs (h₄.append (indices_eq_ok h₄.coherent hidx)) gep_emits h
  | cast k =>
    rw [build] at h
    obtain ⟨v, s₁, h₁, h⟩ := hnone.operand h
    exact builds_of_emit hs h₁ cast_emits h
  | phi =>
    rw [build] at h
    obtain ⟨j, s₁, hemit, h⟩ := bind_eq_ok_iff.mp h
    have hbuilt := builds_of_emit hs hnone phi_emits hemit
    rw [at?_bind] at h
    split at h
    · rw [budget_bind] at h
      obtain ⟨_, s₂, hpairs, h⟩ := bind_eq_ok_iff.mp h
      obtain ⟨rfl, rfl⟩ := pure_eq_ok_iff.mp h
      exact phiPairs_eq_ok hbuilt hpairs
    · obtain ⟨rfl, rfl⟩ := pure_eq_ok_iff.mp h
      exact hbuilt
  | call =>
    rw [build, current_bind] at h
    obtain ⟨fnType, s₁, h₁, h⟩ := hnone.step h
    split at h
    · obtain ⟨callee, s₂, hcallee, h⟩ := bind_eq_ok_iff.mp h
      have h₂ := calleeValue_eq_ok h₁.coherent (h₁.grows.function.trans hs.function) hcallee
      obtain ⟨_, s₃, h₃, h⟩ := (h₁.append h₂.all).step h
      rw [budget_bind] at h
      obtain ⟨args, s₄, hargs, h⟩ := bind_eq_ok_iff.mp h
      obtain ⟨_, s₅, h₅, h⟩ := (h₃.append (arguments_eq_ok h₃.coherent hargs)).step h
      exact builds_of_emit hs h₅ call_emits h
    · simp at h
  | condBr => simp [build] at h
  | unknown n => simp [build] at h

/-! ## Whole instructions -/

theorem result_eq_ok (hs : ∀ w ∈ s.ahead, w.Scanned) {r : Option (String × Ty)}
    (h : result s = .ok r s') :
    s.Moved s' ∧ ∀ name t, r = some (name, t) → name ≠ "" := by
  rw [result, current_bind, eat_bind] at h
  split at h
  · next hkind =>
      rw [if_pos rfl] at h
      obtain ⟨t, s₁, ht, h⟩ := bind_eq_ok_iff.mp h
      obtain ⟨-, h⟩ := pass_bind_eq_ok_iff.mp h
      obtain ⟨rfl, rfl⟩ := pure_eq_ok_iff.mp h
      refine ⟨(s.moved_advance.trans (Moves.moved ht)).trans s₁.moved_advance, fun name t hr => ?_⟩
      cases hr
      exact ((hs _ (.head _)).name (.inr (.inl hkind))).1
  · obtain ⟨rfl, rfl⟩ := pure_eq_ok_iff.mp h
    exact ⟨.refl s, nofun⟩

instance : Moves opcode := by
  refine .bind inferInstance fun tok => ?_
  cases Opcode.ofMnemonic? tok.literal <;> infer_instance

theorem Builds.define (h : Builds s m f b name i)
    (htype : (s.context.inst i).type ≠ .void) (hname : name ≠ "") {pos : Position}
    (hdefine : define name pos (.inst i) s = .ok u s') : s'.At m f b fun _ => False := by
  have howns : s.context.Owns f (.inst i) :=
    ⟨htype, b, h.parent, Context.block_lt_of_linked h.place.linked, h.place.parent⟩
  obtain ⟨hcoherent, hreworked, -, hfunction, hbuilder, hmodule⟩ := define_eq_ok (v := .inst i)
    h.place.toCoherent h.place.function trivial (h.name htype hname) howns nofun
      (fun ht => htype (Option.some.inj ht)) hdefine
  exact
    { toCoherent := hcoherent.settle (fun _ _ hp => hp.2 hp.1) fun _ hp => hp.2 hp.1
      module := hmodule.trans h.place.module
      function := hfunction.trans h.place.function
      builder := hbuilder ▸ h.place.builder
      parent := (hreworked.block b).2.1.trans h.place.parent
      linked := hreworked.onward.block_linked h.place.linked }

theorem instruction_eq_ok (hs : s.At m f b fun _ => False)
    (h : instruction f b s = .ok u s') : s'.At m f b fun _ => False := by
  rw [instruction, current_bind, modify_bind_apply] at h
  have hstart : ({ s with instPos := s.stream.current.pos } : ParseState).At m f b fun _ => False :=
    ⟨hs.congr, hs.module, hs.function, hs.builder, hs.parent, hs.linked⟩
  obtain ⟨res, s₁, hres, h⟩ := bind_eq_ok_iff.mp h
  obtain ⟨hmoved₁, hname⟩ := result_eq_ok hstart.scanned hres
  rw [current_bind] at h
  obtain ⟨op, s₂, hop, h⟩ := bind_eq_ok_iff.mp h
  have hmoved := hmoved₁.trans (Moves.moved hop)
  have hat := hstart.grows hmoved.grows (hstart.moved hmoved)
  rw [get_bind_apply] at h
  dsimp only at h
  split at h
  · simp [bind_eq_ok_iff] at h
  split at h
  · simp [bind_eq_ok_iff] at h
  obtain ⟨i, s₃, hi, h⟩ := bind_eq_ok_iff.mp h
  have hbuilds := build_eq_ok hat hi
  rw [inContext_bind] at h
  cases res with
  | none =>
    simp only at h
    split at h
    · simp at h
    · next hvoid =>
        obtain ⟨-, rfl⟩ := pure_eq_ok_iff.mp h
        have hvoid : (s₃.context.inst i).type = .void := Ty.isVoid_iff.mp (by simpa using hvoid)
        refine ⟨hbuilds.place.settle (fun _ _ hp => by cases hp) fun hne hp => ?_,
          hbuilds.place.module, hbuilds.place.function, hbuilds.place.builder, hbuilds.place.parent,
          hbuilds.place.linked⟩
        cases hp
        exact hne hvoid
  | some res =>
    obtain ⟨name, declared⟩ := res
    simp only at h
    split at h
    · simp [bind_eq_ok_iff] at h
    · next hvoid =>
        split at h
        · simp [bind_eq_ok_iff] at h
        · refine hbuilds.define (fun hv => hvoid ?_) (hname name declared rfl) h
          rw [hv]
          rfl

end Parse

end SsaIr
