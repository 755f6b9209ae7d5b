import SsaIr.Proofs.Graph.Proper
import SsaIr.Proofs.Parse.Resolved

/-!
# Reading keeps types proper

Types that are read are proper, and so are the types of all entities that are made while a source is
read. So whatever is read into a context that its constructors kept up is kept up too. The main
result is `parseModule_regular`.
-/

namespace SsaIr

set_option synthInstance.maxSize 4096

instance : HasTypes ParseState := ⟨fun s => s.context.Proper⟩

instance : HasTypes Parse.Param := ⟨fun p => p.type.isProper = true⟩

namespace Parse

variable {α : Type} {f : FuncId} {want t : Option Ty} {name : String} {pos : Position} {n : Nat}

instance {x : Parse α} [hx : Moves x] : @KeepsTypes _ _ _ _ noTypes x :=
  ⟨fun hs h => ⟨Context.Proper.learned hs (hx.moved h).learned, trivial⟩⟩

section Rules

variable [HasTypes α]

instance : KeepsTypes peek := by unfold peek; infer_instance

instance {cause : ParseCause} : KeepsTypes (failAt pos cause : Parse α) := ⟨nofun⟩

instance {cause : ParseCause} : KeepsTypes (fail cause : Parse α) := ⟨nofun⟩

variable {β : Type}

-- What comes after a failure need not be looked at.
instance (priority := high) {cause : ParseCause} {f : β → Parse α} :
    KeepsTypes (failAt pos cause >>= f) :=
  ⟨nofun⟩

instance (priority := high) {cause : ParseCause} {f : β → Parse α} :
    KeepsTypes (fail cause >>= f) :=
  ⟨nofun⟩

theorem keepsTypes_skip {x : Parse β} [hx : Moves x] {f : β → Parse α}
    (hf : ∀ a, KeepsTypes (f a)) : KeepsTypes (x >>= f) := by
  refine ⟨fun hs h => ?_⟩
  obtain ⟨a, t, hmoved, h⟩ := Moves.of_bind h
  exact (hf a).run (Context.Proper.learned hs hmoved.learned) h

instance {x : Build α} [hx : KeepsTypes x] : KeepsTypes (constructAt pos x) := by
  refine ⟨fun hs h => ?_⟩
  obtain ⟨d, hrun, rfl⟩ := constructAt_eq_ok_iff.mp h
  exact hx.run hs hrun

instance {x : Build α} [KeepsTypes x] : KeepsTypes (construct x) := by
  unfold construct; infer_instance

instance {x : Building InstId} [hx : KeepsTypes x] : KeepsTypes (emit x) := by
  refine ⟨fun {s _ _} hs h => ?_⟩
  obtain ⟨t, hrun, rfl⟩ := emit_eq_ok_iff.mp h
  have hs : HasTypes.IsProper (⟨s.context, s.builder⟩ : Bench) := hs
  exact hx.run hs hrun

instance {g : Context → α} [h : ∀ c : { c : Context // c.Proper }, Fine (g c.1)] :
    KeepsTypes (inContext g) := by
  refine ⟨fun {s _ _} hs heq => ?_⟩
  cases heq
  exact ⟨hs, (h ⟨s.context, hs⟩).out⟩

instance {g : ParseState → ParseState} [h : Fact (∀ s, (g s).context = s.context)] :
    KeepsTypes (modify g : Parse Unit) := by
  refine .modify fun s hs => ?_
  show (g s).context.Proper
  rw [h.out]
  exact hs

end Rules

/-! ## Types -/

instance {tok : Token} : KeepsTypes (structNamed tok) := by
  have hnamed : ∀ c : { c : Context // c.Proper }, Fine (Build.lookupStruct c.1 tok.literal) :=
    fun c =>
    ⟨fun t ht => c.2.named t (List.mem_of_find?_eq_some ht)⟩
  refine .step fun r {hr} => ?_
  split
  · next s =>
    have : Fine s := ⟨hr.out s rfl⟩
    infer_instance
  · infer_instance

/-- The readers of types give proper types, within a bound on nesting. -/
structure TypesProper (n : Nat) : Prop where
  type : KeepsTypes (typeWithin n)
  suffix : ∀ t, [Fine t] → KeepsTypes (functionSuffix n t)
  params : ∀ first, KeepsTypes (paramTypes n first)
  base : KeepsTypes (baseType n)
  body : KeepsTypes (structBody n)
  members : ∀ first, KeepsTypes (memberTypes n first)

theorem typesProper (n : Nat) : TypesProper n := by
  induction n with
  | zero =>
    exact ⟨⟨nofun⟩, fun _ => ⟨nofun⟩, fun _ => ⟨nofun⟩, ⟨nofun⟩, ⟨nofun⟩, fun _ => ⟨nofun⟩⟩
  | succ n ih =>
    obtain ⟨htype, hsuffix, hparams, hbase, hbody, hmembers⟩ := ih
    refine ⟨?_, fun t _ => ?_, fun first => ?_, ?_, ?_, fun first => ?_⟩
    · unfold typeWithin
      infer_instance
    · unfold functionSuffix
      infer_instance
    · unfold paramTypes
      infer_instance
    · refine .step fun tok {_} => ?_
      split
      · next t ht =>
        have : Fine t := by
          refine ⟨?_⟩
          unfold primitive? at ht
          split at ht <;> cases ht <;> rfl
        infer_instance
      · split <;> infer_instance
    · unfold structBody
      infer_instance
    · unfold memberTypes
      infer_instance

instance : KeepsTypes type := by
  have htype n : KeepsTypes (typeWithin n) := (typesProper n).type
  unfold type
  infer_instance

instance : KeepsTypes members := by
  have hbody n : KeepsTypes (structBody n) := (typesProper n).body
  unfold members
  infer_instance

instance : KeepsTypes annotation := by unfold annotation; infer_instance

/-! ## Operands -/

instance {tok : Token} : KeepsTypes (checkType tok t want) := by
  unfold checkType; split <;> infer_instance

instance : KeepsTypes (block f name) := by
  refine .step fun s {_} => ?_
  split <;> infer_instance

instance {t : Ty} [ht : Fine t] : KeepsTypes (localValue f name t pos) := by
  refine .step fun s {_} => ?_
  split
  · next v _ =>
    refine ⟨fun hs h => ?_⟩
    rw [inContext_bind] at h
    split at h
    · next hknown =>
      cases h
      refine ⟨hs, fun k hk => ?_⟩
      subst hk
      cases hknown
      exact ht.out
    · cases h
  · infer_instance

theorem keepsTypes_addParameters {ts : List Ty} (hts : Fine ts) :
    KeepsTypes (addParameters f ts) := by
  induction ts with
  | nil => exact inferInstanceAs (KeepsTypes (pure ()))
  | cons t rest ih =>
    have : Fine t := ⟨hts.out t (.head _)⟩
    have : KeepsTypes (addParameters f rest) := ih ⟨fun u hu => hts.out u (.tail _ hu)⟩
    unfold addParameters
    infer_instance

theorem fine_signature {r : Ty} {ps : List Ty} {variadic : Bool}
    (h : Fine (Ty.pointer (.function r ps variadic))) : Fine r ∧ Fine ps := by
  have hsig := h.out
  simp only [HasTypes.IsProper, Ty.isProper, Bool.and_eq_true] at hsig
  exact ⟨⟨hsig.2.1.2⟩, ⟨fun t ht => (Ty.areProper_iff.mp hsig.2.2 t ht).2⟩⟩

instance [hwant : Fine want] {tok : Token} : KeepsTypes (symbol tok want) := by
  refine .step fun s {_} => ?_
  split
  · infer_instance
  · split
    · infer_instance
    · split
      · obtain ⟨_, hparams⟩ := fine_signature ⟨hwant.out _ rfl⟩
        have := fun g => keepsTypes_addParameters (f := g) hparams
        infer_instance
      · infer_instance

instance {tok : Token} {t : Ty} [Fine t] : KeepsTypes (constant tok t) := by
  unfold constant
  split
  all_goals first
    | infer_instance
    | split <;> infer_instance

instance [Fine want] : KeepsTypes (operand want) := by
  refine .step fun tok {_} => ?_
  split
  · refine .step fun _ => .step fun s {_} => ?_
    split <;> infer_instance
  · infer_instance
  · refine .step fun _ => .step fun t => .step fun _ =>
      .step fun s {_} => ?_
    split <;> infer_instance
  · infer_instance

instance {v : Value} [Fine v] : KeepsTypes (define name pos v) := by
  refine .step fun s {_} => ?_
  split
  · infer_instance
  · -- Types are only compared here.
    refine keepsTypes_skip fun standIn => ?_
    split
    · exact ⟨nofun⟩
    · refine keepsTypes_skip fun used => keepsTypes_skip fun t => ?_
      split
      · exact ⟨nofun⟩
      · infer_instance

/-! ## Instructions -/

instance : KeepsTypes (label f) := by unfold label; infer_instance

instance {i : InstId} [Fine want] : KeepsTypes (switchCases f i want n) := by
  induction n with
  | zero => exact ⟨nofun⟩
  | succ n ih =>
    refine .step fun more {_} => ?_
    split
    · refine .step fun _ => .step fun tok => .step fun v {_} => ?_
      split <;> infer_instance
    · infer_instance

instance {i : InstId} [Fine want] : KeepsTypes (phiPairs f i want n) := by
  induction n with
  | zero => exact ⟨nofun⟩
  | succ n ih =>
    unfold phiPairs
    infer_instance

instance : KeepsTypes (indices n) := by
  induction n with
  | zero => exact ⟨nofun⟩
  | succ n ih =>
    unfold indices
    infer_instance

instance {first : Bool} {params : List Ty} [hparams : Fine params] :
    KeepsTypes (arguments n first params) := by
  induction n generalizing first params with
  | zero => exact ⟨nofun⟩
  | succ n ih =>
    have : Fine params.head? := ⟨fun t ht => hparams.out t (List.mem_of_head? ht)⟩
    have : Fine params.tail := ⟨fun t ht => hparams.out t (List.mem_of_mem_tail ht)⟩
    unfold arguments
    infer_instance

instance {t : Ty} [Fine t] : KeepsTypes (calleeValue f t) := by unfold calleeValue; infer_instance

instance : KeepsTypes operandPair := by unfold operandPair; infer_instance

instance {op : Opcode} {opPos : Position} [Fine t] : KeepsTypes (build f op opPos t name) := by
  unfold build
  split
  all_goals try infer_instance
  -- A call is left.
  refine .step fun _ => .step fun fnType {hsig} => ?_
  split
  · obtain ⟨_, _⟩ := fine_signature hsig
    infer_instance
  · infer_instance

instance : KeepsTypes result := by unfold result; infer_instance

instance {b : BlockId} : KeepsTypes (instruction f b) := by
  unfold instruction
  dsimp only
  refine .step fun _ => .step fun _ => .step fun res {hres} => ?_
  have : Fine (res.map (·.2)) := by
    refine ⟨fun t ht => ?_⟩
    obtain ⟨p, hp, rfl⟩ := Option.map_eq_some_iff.mp ht
    exact (hres.out p hp).2
  refine .step fun _ => .step fun op => .step fun s {_} => ?_
  split
  · exact ⟨nofun⟩
  · split
    · exact ⟨nofun⟩
    · refine .step fun i => .step fun t {_} => ?_
      split <;> infer_instance

/-! ## Modules -/

instance : KeepsTypes header := by unfold header; infer_instance

instance : KeepsTypes structDefinition := by unfold structDefinition; infer_instance

instance {tok : Token} : KeepsTypes (checkFree tok) := by unfold checkFree; infer_instance

instance : KeepsTypes globalDefinition := by
  refine .step fun name => .step fun _ => .step fun _ =>
    .step fun ptr => .step fun _ => .step fun _ =>
      .step fun _ => .step fun allocated {_} => ?_
  split
  · infer_instance
  · refine .step fun want {_} => ?_
    split <;> infer_instance

instance {t : Ty} [h : Fine t] : Fine ({ name, type := t, pos } : Param) := ⟨h.out⟩

instance {named first : Bool} : KeepsTypes (paramList named n first) := by
  induction n generalizing first with
  | zero => exact ⟨nofun⟩
  | succ n ih =>
    unfold paramList
    dsimp only
    infer_instance

instance {named : Bool} : KeepsTypes (params named) := by unfold params; infer_instance

theorem keepsTypes_addParams {ps : List Param} (hps : Fine ps) : KeepsTypes (addParams f ps) := by
  induction ps with
  | nil => exact inferInstanceAs (KeepsTypes (pure ()))
  | cons p rest ih =>
    have : Fine p.type := ⟨hps.out p (.head _)⟩
    have : KeepsTypes (addParams f rest) := ih ⟨fun q hq => hps.out q (.tail _ hq)⟩
    unfold addParams
    infer_instance

instance {l : List (ArgId × Param)} : KeepsTypes (nameArgs l) := by
  induction l with
  | nil => exact inferInstanceAs (KeepsTypes (pure ()))
  | cons => unfold nameArgs; infer_instance

instance {tok : Token} {ret : Ty} {ps : List Param} {variadic : Bool} [Fine ret] [hps : Fine ps] :
    KeepsTypes (declared tok ret ps variadic) := by
  have := fun g => keepsTypes_addParams (f := g) hps
  have : Fine (ps.map fun p => some p.type) := by
    refine ⟨fun o ho t ht => ?_⟩
    obtain ⟨p, hp, rfl⟩ := List.mem_map.mp ho
    exact Option.some.inj ht ▸ hps.out p hp
  refine .step fun _ => .step fun s {_} => ?_
  split <;> infer_instance

instance : KeepsTypes declaration := by unfold declaration; infer_instance

instance {b : BlockId} : KeepsTypes (instructions f b n) := by
  induction n with
  | zero => exact ⟨nofun⟩
  | succ n ih =>
    unfold instructions
    infer_instance

instance : KeepsTypes (blockDefinition f) := by unfold blockDefinition; infer_instance

instance : KeepsTypes (blocks f n) := by
  induction n with
  | zero => exact ⟨nofun⟩
  | succ n ih =>
    unfold blocks
    infer_instance

instance {l : List (ArgId × Param)} : KeepsTypes (bindParams l) := by
  induction l with
  | nil => exact inferInstanceAs (KeepsTypes (pure ()))
  | cons => unfold bindParams; infer_instance

instance : KeepsTypes (checkResolved f pos) := by
  refine .step fun s {_} => ?_
  dsimp only
  split
  · exact ⟨nofun⟩
  · split <;> infer_instance

instance : KeepsTypes definition := by
  unfold definition
  dsimp only
  infer_instance

instance : KeepsTypes (definitions n) := by
  induction n with
  | zero => exact ⟨nofun⟩
  | succ n ih =>
    refine .step fun tok {_} => ?_
    split <;> infer_instance

instance : KeepsTypes source := by
  refine .step fun _ => .step fun _ => .step fun s {_} => ?_
  split <;> infer_instance

end Parse

namespace Context

theorem proper_new : new.Proper :=
  ⟨by simp [new], by simp [new], by simp [new], by simp [new], by simp [new]⟩

theorem regular_new : new.Regular := ⟨orderly_new.toFiled, proper_new⟩

end Context

/-- Whatever is read into a context that is in order and has proper types, the context is kept up as
its constructors keep it up. -/
theorem parseModule_regular {file text : String} {c d : Context} {m : ModuleId} (hc : c.Orderly)
    (hproper : c.Proper) (h : parseModule file text c = (.ok m, d)) : d.Regular := by
  have horderly := (resolved_of_parseModule hc h).orderly
  have hd : d.Proper := by
    unfold parseModule at h
    simp only [Build.newModule, EStateM.get_bind_apply, EStateM.modify_bind_apply,
      EStateM.pure_apply] at h
    split at h
    · next u s hsource =>
      cases h
      have hkeeps : KeepsTypes Parse.source := inferInstance
      have hstart : (c.pushModule file).Proper := { hproper with }
      exact (hkeeps.run (s := { context := c.pushModule file, .. }) hstart hsource).1
    · cases h
  exact ⟨horderly.toFiled, hd⟩

end SsaIr
