import SsaIr.Proofs.Graph.Edits
import SsaIr.Proofs.Syntax.Steps

/-!
# Reading types

Reading a type takes words and gets to know types, and nothing else. `Build.Learns` and
`Parse.Moves` say so of constructions and readers; instances follow the shape of the code.
-/

namespace SsaIr

/-! ## Making types -/

namespace Build

variable {c d : Context} {t u : Ty} {α β : Type}

/-- The construction gets to know types and constants, and changes nothing else. -/
class Learns (x : Build α) : Prop where
  learned : ∀ {c d : Context} {a : α}, x c = .ok a d → c.Learned d

instance {a : α} : Learns (pure a) := ⟨fun h => by cases h; exact .refl _⟩

instance {e : ContractError} : Learns (throw e : Build α) := ⟨nofun⟩

instance {x : Build α} {f : α → Build β} [hx : Learns x] [hf : ∀ a, Learns (f a)] :
    Learns (x >>= f) where
  learned h := by
    obtain ⟨a, _, hfirst, hrest⟩ := EStateM.bind_eq_ok_iff.mp h
    exact (hx.learned hfirst).trans ((hf a).learned hrest)

instance {condition : Bool} {e : ContractError} : Learns (require condition e) := by
  unfold require
  split <;> infer_instance

instance : Learns (knowType t) := ⟨fun h => by cases h; exact Context.learned_learn _ t⟩

instance {t : Option Ty} : Learns (pointerTo t) := by unfold pointerTo; split <;> infer_instance

instance {t : Option Ty} {n : Int} : Learns (arrayOf t n) := by
  unfold arrayOf; split <;> infer_instance

instance {refusal : Nat → Option Ty → ContractError} {index : Nat} {ts : List (Option Ty)} :
    Learns (allSized refusal index ts) := by
  fun_induction allSized <;> infer_instance

instance {ts : List (Option Ty)} : Learns (anonStruct ts) := by unfold anonStruct; infer_instance

instance {r : Option Ty} {ts : List (Option Ty)} {variadic : Bool} :
    Learns (funcType r ts variadic) := by
  unfold funcType; split <;> infer_instance

theorem knowType_eq_ok_iff : knowType t c = .ok u d ↔ t = u ∧ c.learn t = d := by
  simp [knowType, EStateM.modify_bind_apply]

theorem pointerTo_eq_ok_iff : pointerTo (some t) c = .ok u d ↔
    t ≠ .label ∧ .pointer t = u ∧ c.learn (.pointer t) = d := by
  cases t <;> simp [pointerTo, knowType_eq_ok_iff]

theorem allSized_eq_ok_iff {refusal : Nat → Option Ty → ContractError} {index : Nat}
    {ts : List (Option Ty)}
    {us : List Ty} : allSized refusal index ts c = .ok us d ↔
      (∀ u ∈ us, u.isSized = true) ∧ ts = us.map some ∧ c = d := by
  induction ts generalizing index us d with
  | nil => cases us <;> simp [allSized]
  | cons t ts ih =>
    cases t with
    | none => cases us <;> simp [allSized]
    | some t =>
      rw [allSized, require_bind_eq_ok_iff]
      simp only [EStateM.bind_eq_ok_iff, ih, EStateM.pure_apply, EStateM.Result.ok.injEq]
      constructor
      · rintro ⟨hsized, us, _, ⟨hall, rfl, rfl⟩, rfl, rfl⟩
        exact ⟨List.forall_mem_cons.mpr ⟨hsized, hall⟩, rfl, rfl⟩
      · rintro ⟨hall, hts, rfl⟩
        obtain ⟨u, us, rfl, hu, rfl⟩ := List.map_eq_cons_iff.mp hts.symm
        cases hu
        rw [List.forall_mem_cons] at hall
        exact ⟨hall.1, us, _, ⟨hall.2, rfl, rfl⟩, rfl, rfl⟩

theorem funcType_eq_ok_iff {r : Ty} {ts : List Ty} {variadic : Bool} :
    funcType (some r) (ts.map some) variadic c = .ok u d ↔
      r.isReturnable = true ∧ (∀ t ∈ ts, t.isSized = true) ∧ .function r ts variadic = u ∧
        c.learn (.function r ts variadic) = d := by
  simp only [funcType, require_bind_eq_ok_iff]
  simp only [EStateM.bind_eq_ok_iff, allSized_eq_ok_iff, knowType_eq_ok_iff,
    List.map_inj_right (fun _ _ => Option.some.inj)]
  constructor
  · rintro ⟨hr, _, _, ⟨hall, rfl, rfl⟩, h⟩
    exact ⟨hr, hall, h⟩
  · rintro ⟨hr, hall, h⟩
    exact ⟨hr, _, _, ⟨hall, rfl, rfl⟩, h⟩

end Build

/-! ## Readers that take words -/

theorem ParseState.moved_within {s : ParseState} {c : Context} (h : s.context.Learned c) :
    s.Moved (s.within c) :=
  ⟨rfl, h, List.suffix_rfl⟩

namespace Parse

variable {α β : Type} {n : Nat}

/-- The reader takes words and gets to know types and constants, and does nothing else. -/
class Moves (x : Parse α) : Prop where
  moved : ∀ {s s' : ParseState} {a : α}, x s = .ok a s' → s.Moved s'

section Rules

variable {p : Prop} [Decidable p] {x y : Parse α} {f : α → Parse β} {kind : TokenKind}

instance {a : α} : Moves (pure a) := ⟨fun h => by cases h; exact .refl _⟩

instance {pos : Position} {cause : ParseCause} : Moves (failAt pos cause : Parse α) := ⟨nofun⟩

instance {cause : ParseCause} : Moves (fail cause : Parse α) := ⟨nofun⟩

theorem Moves.bind (hx : Moves x) (hf : ∀ a, Moves (f a)) : Moves (x >>= f) where
  moved h := by
    obtain ⟨a, _, hfirst, hrest⟩ := EStateM.bind_eq_ok_iff.mp h
    exact (hx.moved hfirst).trans ((hf a).moved hrest)

instance [Moves x] [∀ a, Moves (f a)] : Moves (x >>= f) := .bind inferInstance inferInstance

theorem Moves.of_bind [hx : Moves x] {s s' : ParseState} {b : β} (h : (x >>= f) s = .ok b s') :
    ∃ a t, s.Moved t ∧ f a t = .ok b s' := by
  obtain ⟨a, t, hfirst, hrest⟩ := EStateM.bind_eq_ok_iff.mp h
  exact ⟨a, t, hx.moved hfirst, hrest⟩

instance [hx : Moves x] [hy : Moves y] : Moves (if p then x else y) := by split <;> assumption

instance [Moves x] : Moves (discard x : Parse Unit) :=
  inferInstanceAs (Moves (x >>= fun _ => pure ()))

instance : Moves current := ⟨fun h => by cases h; exact .refl _⟩

instance : Moves (at? kind) := ⟨fun h => by cases h; exact .refl _⟩

instance {g : Context → α} : Moves (inContext g) := ⟨fun h => by cases h; exact .refl _⟩

instance : Moves budget := ⟨fun h => by cases h; exact .refl _⟩

instance : Moves next := ⟨fun {s _ _} h => by cases h; exact s.moved_advance⟩

instance : Moves (expect kind) := by unfold expect; infer_instance

instance : Moves (eat kind) := by unfold eat; infer_instance

instance : Moves comma := by unfold comma; infer_instance

instance {pos : Position} {x : Build α} [hx : Build.Learns x] : Moves (constructAt pos x) where
  moved h := by
    obtain ⟨_, hrun, rfl⟩ := constructAt_eq_ok_iff.mp h
    exact ParseState.moved_within (hx.learned hrun)

instance {x : Build α} [hx : Build.Learns x] : Moves (construct x) where
  moved h := by
    obtain ⟨_, hrun, rfl⟩ := construct_eq_ok_iff.mp h
    exact ParseState.moved_within (hx.learned hrun)

end Rules

/-! ## Types -/

instance : Moves arrayLength := by unfold arrayLength; infer_instance

instance {tok : Token} : Moves (structNamed tok) := by
  refine .bind inferInstance fun found => ?_
  split <;> infer_instance

/-- The readers of types take words, within a bound on nesting. -/
structure TypesMove (n : Nat) : Prop where
  type : Moves (typeWithin n)
  suffix : ∀ t, Moves (functionSuffix n t)
  params : ∀ first, Moves (paramTypes n first)
  base : Moves (baseType n)
  body : Moves (structBody n)
  members : ∀ first, Moves (memberTypes n first)

theorem typesMove (n : Nat) : TypesMove n := by
  induction n with
  | zero => exact ⟨⟨nofun⟩, fun _ => ⟨nofun⟩, fun _ => ⟨nofun⟩, ⟨nofun⟩, ⟨nofun⟩, fun _ => ⟨nofun⟩⟩
  | succ n ih =>
    obtain ⟨htype, hsuffix, hparams, hbase, hbody, hmembers⟩ := ih
    refine ⟨?_, fun t => ?_, fun first => ?_, ?_, ?_, fun first => ?_⟩
    · unfold typeWithin
      infer_instance
    · unfold functionSuffix
      infer_instance
    · unfold paramTypes
      infer_instance
    · refine .bind inferInstance fun tok => ?_
      split
      · infer_instance
      · split <;> infer_instance
    · unfold structBody
      infer_instance
    · unfold memberTypes
      infer_instance

instance : Moves type := by
  have htype n : Moves (typeWithin n) := (typesMove n).type
  unfold type
  infer_instance

instance : Moves members := by
  have hbody n : Moves (structBody n) := (typesMove n).body
  unfold members
  infer_instance

instance : Moves annotation := by unfold annotation; infer_instance

end Parse

end SsaIr
