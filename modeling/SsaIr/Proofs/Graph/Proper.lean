import SsaIr.Proofs.Graph.Creation
import SsaIr.Proofs.Graph.Regular

/-!
# Constructors and builders keep types proper

Given proper types and values, constructors and builders make only entities with proper types. The
types that they give are proper too. `KeepsTypes` says so of a computation; its instances follow the
computation step by step, and `Fine` is what is known of the data on the way.
-/

namespace SsaIr

/-! ## Data with proper types -/

/-- Data in which types occur, and what it means that they are proper. -/
class HasTypes (α : Type) where
  IsProper : α → Prop

/-- The types that occur in the data are proper. -/
class Fine {α : Type} [HasTypes α] (a : α) : Prop where
  out : HasTypes.IsProper a

section Data

variable {α β : Type}

instance (priority := low) noTypes : HasTypes α := ⟨fun _ => True⟩

instance (priority := low) {a : α} : @Fine α noTypes a := ⟨trivial⟩

instance : HasTypes Ty := ⟨(·.isProper = true)⟩

instance : Fine Ty.i1 := ⟨rfl⟩

instance : HasTypes Const := ⟨(·.type.isProper = true)⟩

instance : HasTypes Value := ⟨Value.IsProper⟩

instance : HasTypes Context := ⟨Context.Proper⟩

instance : HasTypes Bench := ⟨fun s => s.context.Proper⟩

instance [HasTypes α] : HasTypes (Option α) := ⟨fun o => ∀ a ∈ o, HasTypes.IsProper a⟩

instance listTypes [HasTypes α] : HasTypes (List α) := ⟨fun l => ∀ a ∈ l, HasTypes.IsProper a⟩

instance {l : List α} : @Fine _ (@listTypes α noTypes) l := ⟨fun _ _ => trivial⟩

instance [HasTypes α] [HasTypes β] : HasTypes (α × β) :=
  ⟨fun p => HasTypes.IsProper p.1 ∧ HasTypes.IsProper p.2⟩

variable [HasTypes α] [HasTypes β]

instance : Fine (none : Option α) := ⟨nofun⟩

instance {a : α} [h : Fine a] : Fine (some a) := by
  refine ⟨fun b hb => ?_⟩
  cases hb
  exact h.out

instance : Fine ([] : List α) := ⟨nofun⟩

instance {a : α} {l : List α} [h : Fine a] [hl : Fine l] : Fine (a :: l) :=
  ⟨List.forall_mem_cons.mpr ⟨h.out, hl.out⟩⟩

instance {l : List α} [hl : Fine l] : Fine (l.map some) := by
  refine ⟨fun o ho a ha => ?_⟩
  obtain ⟨b, hb, heq⟩ := List.mem_map.mp ho
  cases heq.trans (Option.mem_def.mp ha)
  exact hl.out a hb

instance {p : α × β} [h : Fine p] : Fine p.1 := ⟨h.out.1⟩

instance {p : α × β} [h : Fine p] : Fine p.2 := ⟨h.out.2⟩

instance {a : α} {b : β} [h : Fine a] [h' : Fine b] : Fine (a, b) := ⟨h.out, h'.out⟩

instance {a : ArgId} : Fine (Value.arg a) := ⟨nofun⟩

instance {i : InstId} : Fine (Value.inst i) := ⟨nofun⟩

instance {b : BlockId} : Fine (Value.block b) := ⟨nofun⟩

instance {f : FuncId} : Fine (Value.func f) := ⟨nofun⟩

instance {k : Const} [h : Fine k] : Fine (Value.const k) := by
  refine ⟨fun k' hk => ?_⟩
  cases hk
  exact h.out

instance {x : Symbol} : Fine x.value := by
  refine ⟨fun k hk => ?_⟩
  cases x <;> cases hk

instance {w : IntWidth} {v : Int64} : Fine (Const.int w v) := ⟨rfl⟩

instance {b : Bool} : Fine (Const.ofBool b) := ⟨rfl⟩

instance {c : Context} {v : Value} [hc : Fine c] [hv : Fine v] : Fine (c.typeOf v) :=
  ⟨fun _ ht => Context.Proper.typeOf hc.out hv.out ht⟩

instance {c : Context} {i : InstId} [hc : Fine c] : Fine (c.inst i).type :=
  ⟨(Context.Proper.inst hc.out i).type.proper⟩

end Data

/-! ## Changes of entities and operands -/

namespace Context.Proper

variable {c d : Context}

theorem learned (h : c.Proper) (hd : c.Learned d) : d.Proper := by
  obtain ⟨types, constants, rfl⟩ := hd.same
  exact { h with }

theorem modifyArg (h : c.Proper) (a : ArgId) {f : Argument → Argument}
    (hf : ∀ x, (f x).type = x.type) : (c.modifyArg a f).Proper :=
  { h with args := Array.forall_modify h.args (fun x hx t ht => hx t (hf x ▸ ht)) a.index }

theorem modifyInst (h : c.Proper) (i : InstId) {f : Instruction → Instruction}
    (hf : ∀ x, x.IsProper → (f x).IsProper) : (c.modifyInst i f).Proper :=
  { h with insts := Array.forall_modify h.insts hf i.index }

theorem modifyFunc (h : c.Proper) (g : FuncId) {f : Function → Function}
    (hf : ∀ x, x.IsProper → (f x).IsProper) : (c.modifyFunc g f).Proper :=
  { h with functions := Array.forall_modify h.functions hf g.index }

theorem modifyGlobal (h : c.Proper) (g : GlobalId) {f : Global → Global}
    (hf : ∀ x, x.IsProper → (f x).IsProper) : (c.modifyGlobal g f).Proper :=
  { h with globals := Array.forall_modify h.globals hf g.index }

theorem modifyUsers (h : c.Proper) (v : Value) (f : List Use → List Use) :
    (c.modifyUsers v f).Proper := by
  cases v with
  | const k =>
    unfold Context.modifyUsers
    dsimp only
    split
    · exact { h with }
    · exact h
  | arg a => exact h.modifyArg a fun _ => rfl
  | inst i => exact h.modifyInst i fun _ hx => ⟨hx.type, hx.operand⟩
  | block b => exact { h with }
  | func g => exact h.modifyFunc g fun _ hx => ⟨hx.returnable, hx.ret, hx.signature⟩
  | global g => exact h.modifyGlobal g fun _ hx => hx

theorem linkUse (h : c.Proper) (v : Option Value) (u : Use) : (c.linkUse v u).Proper := by
  cases v with
  | none => exact h
  | some v => exact h.modifyUsers v _

theorem unlinkUse (h : c.Proper) (v : Option Value) (u : Use) : (c.unlinkUse v u).Proper := by
  cases v with
  | none => exact h
  | some v => exact h.modifyUsers v (·.erase u)

theorem setUse (h : c.Proper) (u : Use) {v : Option Value} (hv : ∀ w ∈ v, w.IsProper) :
    (c.setUse u v).Proper := by
  unfold Context.setUse
  refine linkUse ?_ v u
  refine modifyInst (h.unlinkUse _ u) u.user ?_
  refine fun x hx => ⟨hx.type, fun w hw => ?_⟩
  rcases Array.mem_or_eq_of_mem_setIfInBounds hw with hw | hw
  · exact hx.operand w hw
  · exact hv w hw.symm

theorem moveUses (h : c.Proper) (uses : List Use) {v : Value} (hv : v.IsProper) :
    (c.moveUses uses v).Proper := by
  unfold Context.moveUses
  induction uses generalizing c with
  | nil => exact h
  | cons u rest ih =>
    refine ih (h.setUse u fun w hw => ?_)
    cases hw
    exact hv

theorem addOperand (h : c.Proper) (i : InstId) {v : Option Value} (hv : ∀ w ∈ v, w.IsProper) :
    (c.addOperand i v).Proper := by
  unfold Context.addOperand
  have hcount : ({ c with useCount := c.useCount + 1 } : Context).Proper := { h with }
  refine linkUse ?_ v _
  refine modifyInst hcount i ?_
  refine fun x hx => ⟨hx.type, fun w hw => ?_⟩
  rcases Array.mem_push.mp hw with hw | hw
  · exact hx.operand w hw
  · exact hv w hw.symm

theorem addOperands (h : c.Proper) (i : InstId) {vs : List (Option Value)}
    (hvs : ∀ v, some v ∈ vs → v.IsProper) : (c.addOperands i vs).Proper := by
  unfold Context.addOperands
  induction vs generalizing c with
  | nil => exact h
  | cons v rest ih =>
    refine ih (h.addOperand i fun w hw => hvs w ?_) fun w hw => hvs w (.tail _ hw)
    rw [Option.mem_def.mp hw]
    exact .head _

theorem dropOperands (h : c.Proper) (i : InstId) : (c.dropOperands i).Proper := by
  have hunlinked : ∀ (ps : List (Option Value × Nat)) {d : Context}, d.Proper →
      (ps.foldl (fun d p => d.unlinkUse p.1 { user := i, index := p.2 }) d).Proper := by
    intro ps
    induction ps with
    | nil => exact id
    | cons p rest ih => exact fun hd => ih (hd.unlinkUse _ _)
  refine (hunlinked _ h).modifyInst i fun x hx => ⟨hx.type, fun w hw => ?_⟩
  exact absurd hw (Array.not_mem_empty _)

theorem emitted (h : c.Proper) (b : BlockId) {op : Operation} (name : String) {t : Ty}
    {operands : List (Option Value)} (ht : op.MayGive t)
    (hvs : ∀ v, some v ∈ operands → v.IsProper) : (c.emitted b op name t operands).Proper := by
  have hinst : (c.withInst { op, name, type := t, parent := some b }).Proper := by
    refine { h with insts := Array.forall_push h.insts ⟨ht, fun v hv => ?_⟩ }
    exact absurd hv (Array.not_mem_empty _)
  exact { hinst.addOperands ⟨c.insts.size⟩ hvs with }

end Context.Proper

/-! ## Computations -/

/-- Where types are proper they stay proper, and those of the result are. -/
class KeepsTypes {ε σ α : Type} [HasTypes σ] [HasTypes α] (x : EStateM ε σ α) : Prop where
  run : ∀ {s a t}, HasTypes.IsProper s → x s = .ok a t → HasTypes.IsProper t ∧ HasTypes.IsProper a

section Computations

variable {ε σ α β : Type} [HasTypes σ] [HasTypes α] [HasTypes β] {x y : EStateM ε σ α}

instance {a : α} [h : Fine a] : KeepsTypes (pure a : EStateM ε σ α) := by
  refine ⟨fun hs heq => ?_⟩
  cases heq
  exact ⟨hs, h.out⟩

instance {e : ε} : KeepsTypes (throw e : EStateM ε σ α) := ⟨nofun⟩

instance : KeepsTypes (get : EStateM ε σ σ) := by
  refine ⟨fun hs heq => ?_⟩
  cases heq
  exact ⟨hs, hs⟩

theorem KeepsTypes.bind {f : α → EStateM ε σ β} (hx : KeepsTypes x)
    (hf : ∀ a, [Fine a] → KeepsTypes (f a)) : KeepsTypes (x >>= f) where
  run hs h := by
    obtain ⟨a, t, hrun, hrest⟩ := EStateM.bind_eq_ok_iff.mp h
    obtain ⟨ht, ha⟩ := hx.run hs hrun
    have : Fine a := ⟨ha⟩
    exact (hf a).run ht hrest

theorem KeepsTypes.step [KeepsTypes x] {f : α → EStateM ε σ β}
    (hf : ∀ a, [Fine a] → KeepsTypes (f a)) : KeepsTypes (x >>= f) := .bind inferInstance hf

instance {a : { a : α // HasTypes.IsProper a }} : Fine a.1 := ⟨a.2⟩

-- The search for instances drops hypotheses on `a`, so they go with it.
instance {f : α → EStateM ε σ β} [KeepsTypes x]
    [hf : ∀ a : { a : α // HasTypes.IsProper a }, KeepsTypes (f a.1)] : KeepsTypes (x >>= f) :=
  .step fun a {ha} => hf ⟨a, ha.out⟩

instance {g : α → β} [hx : KeepsTypes x]
    [hg : ∀ a : { a : α // HasTypes.IsProper a }, Fine (g a.1)] :
    KeepsTypes (g <$> x) where
  run hs h := by
    obtain ⟨a, hrun, rfl⟩ := EStateM.map_eq_ok_iff.mp h
    obtain ⟨ht, ha⟩ := hx.run hs hrun
    exact ⟨ht, (hg ⟨a, ha⟩).out⟩

instance [KeepsTypes x] : KeepsTypes (discard x) :=
  inferInstanceAs (KeepsTypes ((fun _ => ()) <$> x))

instance {p : Prop} [Decidable p] [KeepsTypes x] [KeepsTypes y] :
    KeepsTypes (if p then x else y) := by
  split <;> assumption

theorem KeepsTypes.modify {f : σ → σ} (hf : ∀ s, HasTypes.IsProper s → HasTypes.IsProper (f s)) :
    KeepsTypes (modify f : EStateM ε σ PUnit) := by
  refine ⟨fun {s _ _} hs heq => ?_⟩
  cases heq
  exact ⟨hf s hs, trivial⟩

variable {b : Bool} {e : ContractError} {z : Unit → EStateM ContractError σ β}

theorem KeepsTypes.require (hz : b = true → KeepsTypes (z ())) :
    KeepsTypes (Build.require b e >>= z) where
  run hs h := by
    obtain ⟨hb, h⟩ := Build.require_bind_eq_ok_iff.mp h
    exact (hz hb).run hs h

instance : KeepsTypes (Build.require b e : EStateM ContractError σ Unit) := by
  unfold Build.require; infer_instance

end Computations

/-! ## Constructors -/

set_option synthInstance.maxSize 1024

namespace Build

variable {α : Type} {t : Option Ty} {ts : List (Option Ty)} {m : ModuleId} {f : FuncId}
  {name : String}

instance {x : Build Unit} [hx : Keeps Context.Learned x] : KeepsTypes x := by
  refine ⟨fun {c _ d} hc h => ?_⟩
  have hlearned := hx.run c
  rw [h] at hlearned
  exact ⟨Context.Proper.learned hc hlearned, trivial⟩

instance {g : Module → Module} : KeepsTypes (modify (·.modifyModule m g) : Build Unit) :=
  .modify fun _ hc => { hc with }

theorem keepsTypes_knowType {t : Ty} (ht : t.isProper = true) : KeepsTypes (knowType t) := by
  have : Fine t := ⟨ht⟩
  exact .bind (.modify fun c hc => Context.Proper.learned hc (c.learned_learn t)) inferInstance

theorem keepsTypes_knowConst {k : Const} (hk : k.type.isProper = true) :
    KeepsTypes (knowConst k) := by
  have : Fine k := ⟨hk⟩
  exact .bind (.modify fun c hc => Context.Proper.learned hc (c.learned_learnConst k)) inferInstance

instance {v : Int64} : KeepsTypes (constInt t v) := by
  unfold constInt
  split
  · exact keepsTypes_knowConst rfl
  · infer_instance

instance {bits : UInt64} : KeepsTypes (constFloat t bits) := by
  unfold constFloat
  split
  · next w => exact keepsTypes_knowConst (by cases w <;> rfl)
  · infer_instance

section

variable [ht : Fine t]

instance : KeepsTypes (undef t) := by
  unfold undef
  split
  · infer_instance
  · next u => exact .step fun _ => keepsTypes_knowConst (ht.out u rfl)

instance : KeepsTypes (null t) := by
  unfold null
  split
  · exact keepsTypes_knowConst (ht.out _ rfl)
  · infer_instance

instance : KeepsTypes (pointerTo t) := by
  unfold pointerTo
  split
  · infer_instance
  · infer_instance
  · next u hlabel => exact keepsTypes_knowType (Ty.isProper_pointer hlabel (ht.out u rfl))

instance {n : Int} : KeepsTypes (arrayOf t n) := by
  unfold arrayOf
  split
  · infer_instance
  · next u =>
    refine .require fun hsized => .step fun _ => keepsTypes_knowType ?_
    rw [Ty.isProper, hsized, ht.out u rfl]
    rfl

end

theorem areProper_of_allSized {refusal : Nat → Option Ty → ContractError} {n : Nat} {us : List Ty}
    {c d : Context} (hts : Fine ts) (h : allSized refusal n ts c = .ok us d) :
    Ty.areProper us = true := by
  induction ts generalizing n us c with
  | nil =>
    cases h
    rfl
  | cons t rest ih =>
    cases t with
    | none => cases h
    | some t =>
      obtain ⟨hsized, h⟩ := require_bind_eq_ok_iff.mp h
      obtain ⟨vs, e, hrest, h⟩ := EStateM.bind_eq_ok_iff.mp h
      cases h
      have ht : t.isProper = true := hts.out _ (.head _) t rfl
      have hvs := ih ⟨fun o ho => hts.out o (.tail _ ho)⟩ hrest
      simp only [Ty.areProper, hsized, ht, hvs, Bool.and_true]

/-- What goes on with sized types, given proper ones. -/
theorem keepsTypes_allSized [hts : Fine ts] [HasTypes α] {refusal : Nat → Option Ty → ContractError}
    {f : List Ty → Build α} (hf : ∀ us, Ty.areProper us = true → KeepsTypes (f us)) :
    KeepsTypes (allSized refusal 0 ts >>= f) where
  run {c _ _} hc h := by
    have hkept : Keeps Context.Learned (allSized refusal 0 ts) := inferInstance
    obtain ⟨us, d, hrun, hrest⟩ := EStateM.bind_eq_ok_iff.mp h
    have hlearned := hkept.run c
    rw [hrun] at hlearned
    exact (hf us (areProper_of_allSized hts hrun)).run (Context.Proper.learned hc hlearned) hrest

instance [Fine ts] : KeepsTypes (anonStruct ts) :=
  keepsTypes_allSized fun us hus => keepsTypes_knowType (by rw [Ty.isProper, hus])

instance [Fine ts] : KeepsTypes (namedStruct name ts) := by
  refine .step fun _ => keepsTypes_allSized fun us hus =>
    .step fun c {hc} => ?_
  split
  · next known hknown =>
    have : Fine known := ⟨Context.Proper.named hc.out known (List.mem_of_find?_eq_some hknown)⟩
    have : KeepsTypes (knowType (.struct us)) := keepsTypes_knowType (by rw [Ty.isProper, hus])
    infer_instance
  · have hstruct : (Ty.named name us).isProper = true := by rw [Ty.isProper, hus]
    have : Fine (Ty.named name us) := ⟨hstruct⟩
    refine .bind
      (.modify fun d hd => { (hd : d.Proper) with named := fun t ht => ?_ }) inferInstance
    rcases List.mem_append.mp ht with ht | ht
    · exact Context.Proper.named hd t ht
    · rw [List.mem_singleton.mp ht]
      exact hstruct

instance {variadic : Bool} [ht : Fine t] [Fine ts] : KeepsTypes (funcType t ts variadic) := by
  unfold funcType
  split
  · infer_instance
  · next r =>
    refine .require fun hret => keepsTypes_allSized fun us hus => keepsTypes_knowType ?_
    rw [Ty.isProper, hret, ht.out r rfl, hus]
    rfl

instance : KeepsTypes (renameModule m name) := by unfold renameModule; infer_instance

instance : KeepsTypes (declareStruct m t) := by unfold declareStruct; split <;> infer_instance

instance [ht : Fine t] : KeepsTypes (newDetachedFunction m name t) := by
  unfold newDetachedFunction
  split
  · infer_instance
  · next r =>
    refine .require fun hret => .step fun _ =>
      .bind (.modify fun d hd => { hd with functions := ?_ }) inferInstance
    exact Array.forall_push (Context.Proper.functions hd) ⟨hret, ht.out r rfl, nofun⟩

instance {s : Symbol} : KeepsTypes (define m name s) := by unfold define; infer_instance

/-- The change leaves types of functions alone. -/
instance {g : Function → Function}
    [h : Fact (∀ x, ((g x).ret, (g x).signature) = (x.ret, x.signature))] :
    KeepsTypes (modify (·.modifyFunc f g) : Build Unit) := by
  refine .modify fun d hd => Context.Proper.modifyFunc hd f fun x hx => ?_
  obtain ⟨hret, hsig⟩ := Prod.mk.inj (h.out x)
  exact ⟨hret ▸ hx.returnable, hret ▸ hx.ret, hsig ▸ hx.signature⟩

instance : KeepsTypes (linkFunction m f) := by unfold linkFunction; infer_instance

instance [Fine t] : KeepsTypes (newFunction m name t) := by unfold newFunction; infer_instance

instance [ht : Fine t] {init : Option Value} : KeepsTypes (newGlobal m name t init) := by
  unfold newGlobal
  split
  · infer_instance
  · next u =>
    refine .require fun hsized => .step fun _ => .step fun _ =>
      .step fun _ => .step fun _ => .bind (.modify fun d hd => ?_) inferInstance
    have hglobal := Ty.isProper_pointer (Ty.ne_label_of_isSized hsized) (ht.out u rfl)
    exact { (hd : d.Proper) with globals := Array.forall_push (Context.Proper.globals hd) hglobal }

instance {g : GlobalId} {init : Option Value} : KeepsTypes (setInitializer g init) :=
  .step fun _ => .step fun _ =>
    .modify fun _ hd => Context.Proper.modifyGlobal hd g fun _ hx => hx

theorem keepsTypes_pushArg [ht : Fine t] {parent : FuncId} {index : Option Nat} :
    KeepsTypes (modify fun c => { c with args := c.args.push { name, type := t, parent, index } } :
      Build Unit) :=
  .modify fun d hd =>
    { (hd : d.Proper) with
      args := Array.forall_push (Context.Proper.args hd) fun u hu => ht.out u hu }

instance [Fine t] : KeepsTypes (addArgument f t name) :=
  .step fun _ => .step fun _ => .step fun _ =>
    .step fun _ => .bind keepsTypes_pushArg inferInstance

instance [Fine t] : KeepsTypes (newPlaceholder f t name) :=
  .step fun _ => .bind keepsTypes_pushArg inferInstance

instance {variadic : Bool} : KeepsTypes (finalizeSignature f variadic) := by
  refine .step fun c {hc} => .step fun _ {_} => ?_
  have hret : Fine (some (c.func f).ret) := ⟨fun u hu => Option.some.inj hu ▸ (hc.out.func f).ret⟩
  have hargs : Fine ((c.func f).args.toList.map fun a => (c.arg a).type) := by
    refine ⟨fun o ho => ?_⟩
    obtain ⟨a, -, rfl⟩ := List.mem_map.mp ho
    exact hc.out.arg a
  refine .step fun sig {hsig} => ⟨fun {d _ e} hd h => ?_⟩
  -- A pointer to the signature was made, so that is no label.
  obtain ⟨_, d', hdiscard, h⟩ := EStateM.bind_eq_ok_iff.mp h
  obtain ⟨p, hpointer, -⟩ := EStateM.map_eq_ok_iff.mp hdiscard
  have hkeeps : KeepsTypes (pointerTo (some sig)) := inferInstance
  obtain ⟨hd', hp⟩ := hkeeps.run hd hpointer
  cases h
  refine ⟨Context.Proper.modifyFunc hd' f fun x hx => ⟨hx.returnable, hx.ret, fun sig' hsig' => ?_⟩,
    trivial⟩
  cases hsig'
  cases sig <;> cases hpointer <;> exact hp

instance : KeepsTypes (newDetachedBlock f name) :=
  .step fun _ => .bind (.modify fun _ hd => { hd with }) inferInstance

instance {b : BlockId} : KeepsTypes (appendBlock f b) := by
  have hblock :
    KeepsTypes (modify (·.modifyBlock b fun x => { x with linked := true }) : Build Unit) :=
    .modify fun _ hd => { hd with }
  unfold appendBlock
  infer_instance

instance : KeepsTypes (newBlock f name) := by unfold newBlock; infer_instance

instance {a : ArgId} : KeepsTypes (setName (.arg a) name) :=
  .step fun _ => .modify fun _ hd => Context.Proper.modifyArg hd a fun _ => rfl

instance {i : InstId} {n : Nat} {v : Option Value} [hv : Fine v] : KeepsTypes (setOperand i n v) :=
  .modify fun _ hd => Context.Proper.setUse hd _ hv.out

instance {old new : Value} [hnew : Fine new] : KeepsTypes (replaceUses old new) := by
  have hmove : KeepsTypes (modify fun c => c.moveUses (c.users old) new : Build Unit) :=
    .modify fun _ hd => Context.Proper.moveUses hd _ hnew.out
  unfold replaceUses
  infer_instance

instance {i : InstId} : KeepsTypes (erase i) := by
  refine .step fun _ => .step fun _ => ?_
  split
  · infer_instance
  · refine .bind (.modify fun _ hd => { hd with }) fun _ =>
      .bind (.modify fun _ hd => Context.Proper.dropOperands hd i) fun _ => .modify fun _ hd => ?_
    exact Context.Proper.modifyInst hd i fun _ hx => ⟨hx.type, hx.operand⟩

instance {i : InstId} {vs : List (Option Value)} [hvs : Fine vs] :
    KeepsTypes (modify (·.addOperands i vs) : Build Unit) :=
  .modify fun _ hd => Context.Proper.addOperands hd i fun v hv => hvs.out _ hv v rfl

instance {i : InstId} {v : Option Value} [Fine v] {b : Option BlockId} :
    KeepsTypes (addIncoming i v b) := by
  refine .step fun _ => .step fun _ => ?_
  cases v <;> cases b <;> infer_instance

instance {i : InstId} {k : Option Const} [hk : Fine k] {b : Option BlockId} :
    KeepsTypes (addCase i k b) := by
  refine .step fun _ => .step fun _ => ?_
  split
  · next l _ =>
    have : Fine l := ⟨hk.out l rfl⟩
    infer_instance
  · infer_instance

end Build

/-! ## Builders -/

theorem stepInto_proper {position : Nat} {t u : Ty} {index : Option Value} (ht : t.isProper = true)
    (h : stepInto position t index = .ok u) : u.isProper = true := by
  unfold stepInto at h
  split at h
  · cases h
    rw [Ty.isProper, Bool.and_eq_true] at ht
    exact ht.2
  all_goals first
    | cases h
    | split at h
      · split at h
        · next hmember =>
          cases h
          split at hmember
          · rw [Ty.isProper] at ht
            exact (Ty.areProper_iff.mp ht _ (List.mem_of_getElem? hmember)).2
          · cases hmember
        · cases h
      · cases h

theorem stepAlong_proper {position : Nat} {t u : Ty} {indices : List (Option Value)}
    (ht : t.isProper = true) (h : stepAlong position t indices = .ok u) : u.isProper = true := by
  induction indices generalizing position t with
  | nil =>
    cases h
    exact ht
  | cons index rest ih =>
    obtain ⟨v, hv, hrest⟩ := Except.bind_eq_ok_iff.mp h
    exact ih (stepInto_proper ht hv) hrest

theorem Context.elementType_proper {c : Context} {t : Ty} {indices : List (Option Value)}
    {elem : Option Ty} (ht : t.isProper = true) (h : c.elementType (some t) indices = .ok elem) :
    Fine elem := by
  refine ⟨?_⟩
  unfold Context.elementType at h
  split at h
  · cases h
  · split at h
    · cases h
    · next inner _ _ =>
      dsimp only at h
      cases hstep : stepAlong 1 t inner with rw [hstep] at h
      | error => cases h
      | ok u =>
        cases h
        intro w hw
        cases hw
        exact stepAlong_proper ht hstep

namespace Operation

instance : MayGive .ret .void := ⟨rfl, fun _ => rfl, nofun⟩

instance : MayGive .br .void := ⟨rfl, fun _ => rfl, nofun⟩

instance : MayGive .condBr .void := ⟨rfl, fun _ => rfl, nofun⟩

instance : MayGive .switch .void := ⟨rfl, fun _ => rfl, nofun⟩

instance : MayGive .store .void := ⟨rfl, fun _ => rfl, nofun⟩

variable {t : Ty} [h : Fine t]

instance {p : IntPredicate} : MayGive (.icmp p) t := ⟨h.out, nofun, nofun⟩

instance {p : FloatPredicate} : MayGive (.fcmp p) t := ⟨h.out, nofun, nofun⟩

instance {op : IntOp} : MayGive (.int op) t := ⟨h.out, nofun, nofun⟩

instance {op : FloatOp} : MayGive (.float op) t := ⟨h.out, nofun, nofun⟩

instance {op : CastOp} : MayGive (.cast op) t := ⟨h.out, nofun, nofun⟩

instance {u : Ty} : MayGive (.alloca u) t := ⟨h.out, nofun, nofun⟩

instance {u : Ty} {inBounds : Bool} : MayGive (.gep u inBounds) t := ⟨h.out, nofun, nofun⟩

instance : MayGive .load t := ⟨h.out, nofun, nofun⟩

instance : MayGive .call t := ⟨h.out, nofun, nofun⟩

end Operation

namespace Builder

variable {α : Type} {operands : List (Option Value)} {v w : Option Value} {t : Option Ty}
  {name : String}

instance {x : Build α} [HasTypes α] [hx : KeepsTypes x] : KeepsTypes (Building.ofBuild x) := by
  refine ⟨fun {s a s'} hs h => ?_⟩
  obtain ⟨c, b⟩ := s
  dsimp only [Building.ofBuild] at h
  cases hrun : x c with rw [hrun] at h
  | error => cases h
  | ok =>
    cases h
    exact hx.run hs hrun

instance {x : Build α} [HasTypes α] [KeepsTypes x] : KeepsTypes (liftM x : Building α) :=
  inferInstanceAs (KeepsTypes (Building.ofBuild x))

instance {x : Building Unit} [hx : Build.Keeps Bench.Learned x] : KeepsTypes x := by
  refine ⟨fun {s _ s'} hs h => ?_⟩
  have hlearned := hx.run s
  rw [h] at hlearned
  exact ⟨Context.Proper.learned hs hlearned.1, trivial⟩

instance : KeepsTypes function := by
  refine .step fun s {_} => ?_
  split <;> infer_instance

instance {what : String} [hv : Fine v] : KeepsTypes (operandType v what) := by
  refine .step fun s {hs} => ?_
  split
  · next t ht =>
    obtain ⟨w, hw, ht⟩ := Option.bind_eq_some_iff.mp ht
    have : Fine t := ⟨Context.Proper.typeOf hs.out (hv.out w hw) ht⟩
    infer_instance
  · infer_instance

instance {op : Operation} {t : Ty} {hint : String} [ht : op.MayGive t] [hvs : Fine operands] :
    KeepsTypes (emit op t hint operands) := by
  refine ⟨fun {s i s'} hs h => ?_⟩
  cases hb : s.builder.block with
  | none =>
    rw [emit, EStateM.get_bind_apply, hb] at h
    cases h
  | some block =>
    rw [emit_eq hb] at h
    cases h
    exact ⟨Context.Proper.emitted hs block _ ht fun v hv => hvs.out _ hv v rfl, trivial⟩

instance [Fine v] : KeepsTypes (ret v) := by unfold ret; infer_instance

instance : KeepsTypes retVoid := by unfold retVoid; infer_instance

instance {dest : Option BlockId} : KeepsTypes (br dest) := by unfold br; split <;> infer_instance

instance [Fine v] {yes no : Option BlockId} : KeepsTypes (condBr v yes no) := by
  cases yes <;> cases no <;> exact inferInstanceAs (KeepsTypes (operandType v "br" >>= _))

instance [Fine v] {default : Option BlockId} : KeepsTypes (switch v default) := by
  cases default <;> exact inferInstanceAs (KeepsTypes (operandType v "switch" >>= _))

instance [Fine v] [Fine w] {op : Opcode} : KeepsTypes (binary op v w name) := by
  cases op <;> unfold binary <;> infer_instance

instance [Fine v] [Fine w] {p : Predicate} : KeepsTypes (icmp p v w name) := by
  unfold icmp; split <;> infer_instance

instance [Fine v] [Fine w] {p : Predicate} : KeepsTypes (fcmp p v w name) := by
  unfold fcmp; split <;> infer_instance

instance [Fine t] : KeepsTypes (alloca t name) := by unfold alloca; split <;> infer_instance

instance [Fine v] : KeepsTypes (load v name) := by
  refine .step fun t {ht} => .step fun _ {_} => ?_
  split
  · infer_instance
  · next u hu =>
    have : Fine u := ⟨Ty.isProper_pointee ht.out hu⟩
    infer_instance

instance [Fine v] [Fine w] : KeepsTypes (store v w) := by
  refine .step fun _ => .step fun _ => .step fun _ {_} => ?_
  split <;> infer_instance

instance [ht : Fine t] [Fine v] {inBounds : Bool} {indices : List (Option Value)} [Fine indices] :
    KeepsTypes (gep t v inBounds indices name) := by
  refine .step fun _ {_} => ?_
  split
  · infer_instance
  · next u =>
    refine .step fun _ => .step fun _ => .step fun _ =>
      .step fun _ {_} => ?_
    split
    · infer_instance
    · next elem helem =>
      have := Context.elementType_proper (ht.out u rfl) helem
      infer_instance

instance [Fine v] [ht : Fine t] {op : Opcode} : KeepsTypes (cast op v t name) := by
  refine .step fun _ {_} => ?_
  split
  · infer_instance
  · next u =>
    have : Fine u := ⟨ht.out u rfl⟩
    refine .step fun _ {_} => ?_
    split <;> infer_instance

instance [ht : Fine t] : KeepsTypes (phi t name) := by
  unfold phi
  split
  · infer_instance
  · next u =>
    refine .require fun hsized => ?_
    have : Operation.MayGive .phi u := ⟨ht.out u rfl, nofun, fun _ => hsized⟩
    infer_instance

instance [Fine v] {args : List (Option Value)} [Fine args] : KeepsTypes (call v args name) := by
  refine .step fun t {ht} => .step fun _ {_} => ?_
  split
  · next r ps variadic =>
    have hsig := ht.out
    simp only [HasTypes.IsProper, Ty.isProper, Bool.and_eq_true] at hsig
    have : Fine r := ⟨hsig.2.1.2⟩
    infer_instance
  · infer_instance

end Builder

/-- The types that a builder is given. -/
def Creation.types : Creation → List Ty
  | alloca t _ | phi t _ => t.toList
  | gep source _ _ _ _ => source.toList
  | cast _ _ target _ => target.toList
  | _ => []

instance {i : Creation} [hops : Fine i.operands] [htypes : Fine i.types] : KeepsTypes i.build := by
  have hhead : ∀ {v vs}, Fine (v :: vs : List (Option Value)) → Fine v ∧ Fine vs := fun h =>
    ⟨⟨h.out _ (.head _)⟩, ⟨fun w hw => h.out w (.tail _ hw)⟩⟩
  have htype : ∀ {t : Option Ty}, Fine t.toList → Fine t := fun h =>
    ⟨fun u hu => h.out u (Option.mem_toList.mpr hu)⟩
  cases i <;> dsimp only [Creation.operands, Creation.types, Creation.build] at *
  all_goals try have := htype htypes
  case retVoid | br | alloca | phi => infer_instance
  case ret | condBr | switch | load | gep | cast | call =>
    have ⟨_, _⟩ := hhead hops
    infer_instance
  all_goals
    have ⟨_, hrest⟩ := hhead hops
    have ⟨_, _⟩ := hhead hrest
    infer_instance

end SsaIr
