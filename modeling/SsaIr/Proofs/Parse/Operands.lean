import SsaIr.Proofs.Parse.Coherent

/-!
# Reading operands stays coherent

Whatever operand is read can be used where it is read, and reading it only lets the program grow: by
a block that is not linked yet, a stand-in, or a function that is not listed yet.
-/

namespace SsaIr

open EStateM ParseState Context Build

namespace Parse

variable {s s' : ParseState} {pending : Value → Prop} {v : Value} {tok : Token} {want : Option Ty}
  {f : FuncId} {name : String}

/-- What reading gives stays coherent and can be used. -/
structure Gives (s s' : ParseState) (pending : Value → Prop) (v : Value) : Prop where
  grows : s.Grows s'
  coherent : s'.Coherent pending
  usable : s'.Usable v

theorem Gives.of_moved {t : ParseState} (hm : s.Moved t) (h : Gives t s' pending v) :
    Gives s s' pending v :=
  ⟨hm.grows.trans h.grows, h.coherent, h.usable⟩

theorem Gives.here (hs : s.Coherent pending) (hv : s.Usable v) : Gives s s pending v :=
  ⟨.refl s, hs, hv⟩

theorem checkType_eq_ok {t : Option Ty} {u : Unit} (h : checkType tok t want s = .ok u s') :
    s = s' := by
  unfold checkType at h
  split at h
  · split at h
    · exact (pure_eq_ok_iff.mp h).2
    · simp at h
  · exact (pure_eq_ok_iff.mp h).2

/-! ## Blocks and locals -/

section Function

variable {f : FuncId} (hs : s.Coherent pending) (hf : s.function = some f)
include hs hf

theorem block_eq_ok {b : BlockId} (h : block f name s = .ok b s') :
    Gives s s' pending (.block b) ∧ s'.labels[name]? = some b := by
  rw [block, get_bind_apply] at h
  cases hname : s.labels[name]? with rw [hname] at h
  | some b' =>
    obtain ⟨rfl, rfl⟩ := pure_eq_ok_iff.mp h
    obtain ⟨-, f', hf', howns⟩ := hs.labels hname
    cases hf.symm.trans hf'
    exact ⟨.here hs (usable_of_owns hf (.inr ⟨name, hname⟩) howns), hname⟩
  | none =>
    obtain ⟨b', c, hnew, h⟩ := construct_bind_eq_ok_iff.mp h
    cases hnew
    rw [modify_bind_apply] at h
    obtain ⟨rfl, rfl⟩ := pure_eq_ok_iff.mp h
    let x : Block := { name, parent := f }
    let b : BlockId := ⟨s.context.blocks.size⟩
    have hread : (s.context.pushBlock x).block b = x := by
      rw [block_pushBlock, if_pos rfl]
    have howns : (s.context.pushBlock x).Owns f (.block b) :=
      ⟨by simp [b, pushBlock], by rw [hread]⟩
    obtain ⟨hself, hkeep, hlabel⟩ := getElem?_insert_fresh hname b
    have hgrows : s.Grows { s.within (s.context.pushBlock x) with
        labels := s.labels.insert name b } :=
      { context := extends_pushBlock rfl rfl rfl (hs.current hf).lt
        module := rfl
        function := rfl
        builder := rfl
        suffix := List.suffix_rfl
        locals := id
        labels := hkeep
        forward := id }
    refine ⟨⟨hgrows, hs.grow hgrows .inl (fun {n b'} hn => ?_) .inl fun hle hlt => ?_, ?_⟩, hself⟩
    · rcases hlabel hn with hn | ⟨hnn, rfl⟩
      · exact .inl hn
      · exact .inr ⟨(congrArg Block.name hread).trans hnn, f, hf, howns⟩
    · exact absurd hlt (Nat.not_lt.mpr hle)
    · exact usable_of_owns hf (.inr ⟨name, hself⟩) howns

theorem localValue_eq_ok {t : Ty} {pos : Position} {v : Value}
    (h : localValue f name t pos s = .ok v s') : Gives s s' pending v := by
  rw [localValue, get_bind_apply] at h
  cases hname : s.locals[name]? with rw [hname] at h
  | some w =>
    dsimp only at h
    rw [inContext_bind] at h
    split at h
    · obtain ⟨rfl, rfl⟩ := pure_eq_ok_iff.mp h
      obtain ⟨hlocal, -, f', hf', howns⟩ := hs.locals hname
      cases hf.symm.trans hf'
      refine .here hs (usable_of_owns hf ?_ howns)
      cases w with
      | arg a => exact .inr ⟨name, hname⟩
      | inst i => trivial
      | const | block | func | global => exact hlocal.elim
    · simp at h
  | none =>
    obtain ⟨a', c, hnew, h⟩ := construct_bind_eq_ok_iff.mp h
    cases hnew
    rw [modify_bind_apply] at h
    obtain ⟨rfl, rfl⟩ := pure_eq_ok_iff.mp h
    let x : Argument := { name, type := some t, parent := f, index := none }
    let a : ArgId := ⟨s.context.args.size⟩
    have hread : (s.context.pushArg x).arg a = x := by
      rw [arg_pushArg, if_pos rfl]
    have howns : (s.context.pushArg x).Owns f (.arg a) :=
      ⟨by simp [a, pushArg], by rw [hread], by rw [hread]; rfl⟩
    obtain ⟨hself, hkeep, hlocal⟩ := getElem?_insert_fresh hname (.arg a)
    have hgrows : s.Grows { s.within (s.context.pushArg x) with
        locals := s.locals.insert name (.arg a) } :=
      { context := extends_pushArg rfl rfl (hs.current hf).lt
        module := rfl
        function := rfl
        builder := rfl
        suffix := List.suffix_rfl
        locals := hkeep
        labels := id
        forward := id }
    refine ⟨hgrows, hs.grow hgrows (fun {n v} hn => ?_) .inl .inl fun hle hlt => ?_, ?_⟩
    · rcases hlocal hn with hn | ⟨hnn, rfl⟩
      · exact .inl hn
      · exact .inr ⟨trivial, (congrArg Argument.name hread).trans hnn, f, hf, howns⟩
    · exact absurd hlt (Nat.not_lt.mpr hle)
    · exact usable_of_owns hf (.inr ⟨name, hself⟩) howns

end Function

/-! ## Symbols -/

theorem addParameters_eq_ok {c d : Context} {ts : List Ty} {u : Unit}
    (h : addParameters f ts c = .ok u d) : (∀ p ∈ ts.map fun t => ("", t), p.2.isSized = true) ∧
      d = c.withArgs f (ts.map fun t => ("", t)) := by
  induction ts generalizing c with
  | nil =>
    cases h
    exact ⟨nofun, rfl⟩
  | cons t ts ih =>
    obtain ⟨_, c₁, harg, h⟩ := bind_eq_ok_iff.mp h
    obtain ⟨_, harg, -⟩ := map_eq_ok_iff.mp harg
    obtain ⟨-, hsized, rfl⟩ := addArgument_eq_ok harg
    obtain ⟨hrest, rfl⟩ := ih h
    exact ⟨List.forall_mem_cons.mpr ⟨hsized, hrest⟩, rfl⟩

section

variable (hs : s.Coherent pending)
include hs

theorem usable_of_lookup {x : Symbol} (h : s.context.lookup s.module name = some x) :
    s.Usable x.value := by
  obtain ⟨hlists, -⟩ := hs.orderly.lookup_iff.mp h
  cases x with
  | func f =>
    obtain ⟨hparent, hlinked⟩ := hs.orderly.mem_func hlists
    have hlt := func_lt_of_linked hlinked
    exact usable_of_shared hs (.inl hlinked)
      ⟨hlt, hparent, (hs.typed.func hlt hparent).isSome⟩
  | global g => exact usable_of_shared hs trivial (hs.orderly.mem_global hlists)

theorem usable_of_forward (h : s.forward[name]? = some f) : s.Usable (.func f) := by
  have hforward := hs.forward h
  exact usable_of_shared hs (.inr ⟨name, h⟩)
    ⟨hforward.lt, hforward.parent, (hs.typed.func hforward.lt hforward.parent).isSome⟩

theorem forward_grows (hname : s.forward[name]? = none) {ret : Ty}
    {params : List Ty} {variadic : Bool} {c₁ c₂ c₃ : Context}
    (hnew : newDetachedFunction s.module name (some ret) s.context = .ok f c₁)
    (hparams : addParameters f params c₁ = .ok () c₂)
    (hsig : finalizeSignature f variadic c₂ = .ok () c₃) :
    Gives s { s.within c₃ with forward := s.forward.insert name f } pending (.func f) := by
  obtain ⟨-, rfl, rfl⟩ := newDetachedFunction_eq_ok hnew
  obtain ⟨hsized, rfl⟩ := addParameters_eq_ok hparams
  let x : Function := { name, parent := s.module, ret }
  let f : FuncId := ⟨s.context.functions.size⟩
  have hpush : s.context.Extends (s.context.pushFunc x) :=
    extends_pushFunc rfl rfl rfl rfl hs.module_lt
  have hlt : f.index < (s.context.pushFunc x).functions.size := by simp [f, pushFunc]
  have hread : (s.context.pushFunc x).func f = x := by rw [func_pushFunc, if_pos rfl]
  have hargs := (hpush.orderly hs.orderly).extended hlt (by rw [hread]) hsized
  have hlt' := hargs.functions.symm ▸ hlt
  obtain ⟨-, hreworked, -, hsigned, -, hextends⟩ :=
    finalizeSignature_signs hargs.orderly hlt' hsig
  have hext := hextends (hpush.withArgs le_rfl hlt hsized) le_rfl
  -- The new function keeps the name and the parent that it was made with.
  obtain ⟨hname₁, hparent₁, -⟩ := hreworked.func f
  obtain ⟨hname₂, hparent₂, -⟩ := hargs.func f
  rw [hread] at hname₂ hparent₂
  obtain ⟨hself, hkeep, hentry⟩ := getElem?_insert_fresh hname f
  have hforwards :
    ParseState.Forwards { s.within c₃ with forward := s.forward.insert name f } name f :=
    { lt := hreworked.functions.symm ▸ hlt'
      parent := hparent₁.trans hparent₂
      name := hname₁.trans hname₂
      blocks := fun _ => (hext.new_func le_rfl (hreworked.functions.symm ▸ hlt')).1 }
  have hgrows : s.Grows { s.within c₃ with forward := s.forward.insert name f } :=
    { context := hext
      module := rfl
      function := rfl
      builder := rfl
      suffix := List.suffix_rfl
      locals := id
      labels := id
      forward := hkeep }
  have hcoherent := hs.grow hgrows .inl .inl (fun {n g} hn => ?_) fun {g} hle hlt => ?_
  · exact ⟨hgrows, hcoherent, usable_of_forward hcoherent hself⟩
  · rcases hentry hn with hn | ⟨rfl, rfl⟩
    · exact .inl hn
    · exact .inr hforwards
  · have hg : g = f := by
      have hsize : c₃.functions.size = s.context.functions.size + 1 := by
        rw [hreworked.functions, hargs.functions, pushFunc, Array.size_push]
      have hlt : g.index < c₃.functions.size := hlt
      exact congrArg FuncId.mk (by omega)
    rwa [hg]

theorem symbol_eq_ok (h : symbol tok want s = .ok v s') : Gives s s' pending v := by
  rw [symbol, get_bind_apply] at h
  cases hfound : s.context.lookup s.module tok.literal with rw [hfound] at h
  | some x =>
    obtain ⟨_, t, hcheck, h⟩ := bind_eq_ok_iff.mp h
    obtain rfl := checkType_eq_ok hcheck
    obtain ⟨rfl, rfl⟩ := pure_eq_ok_iff.mp h
    exact .here hs (usable_of_lookup hs hfound)
  | none =>
    dsimp only at h
    cases hforward : s.forward[tok.literal]? with rw [hforward] at h
    | some f =>
      obtain ⟨_, t, hcheck, h⟩ := bind_eq_ok_iff.mp h
      obtain rfl := checkType_eq_ok hcheck
      obtain ⟨rfl, rfl⟩ := pure_eq_ok_iff.mp h
      exact .here hs (usable_of_forward hs hforward)
    | none =>
      dsimp only at h
      split at h
      · obtain ⟨f, c₁, hnew, h⟩ := constructAt_bind_eq_ok_iff.mp h
        obtain ⟨_, c₂, hparams, h⟩ := construct_bind_eq_ok_iff.mp h
        obtain ⟨_, c₃, hsig, h⟩ := construct_bind_eq_ok_iff.mp h
        rw [modify_bind_apply] at h
        obtain ⟨rfl, rfl⟩ := pure_eq_ok_iff.mp h
        exact forward_grows hs hforward hnew hparams hsig
      · simp at h

end

/-! ## Constants and operands -/

theorem gives_learnConst (hs : s.Coherent pending) {k : Const} (hk : k.type.isSized = true) :
    Gives s (s.within (s.context.learnConst k)) pending (.const k) := by
  have hmoved := moved_within (s := s) (s.context.learned_learnConst k)
  have hcoherent := hs.moved hmoved
  exact ⟨hmoved.grows, hcoherent,
    usable_of_shared hcoherent hk (s.context.tracks_learnConst k)⟩

theorem gives_ofBool (hs : s.Coherent pending) (b : Bool) :
    Gives s s pending (.const (.ofBool b)) :=
  .here hs (usable_of_shared hs rfl (hs.orderly.truths b))

theorem constant_eq_ok (hs : s.Coherent pending) {t : Ty}
    (h : constant tok t s = .ok v s') : Gives s s' pending v := by
  -- Whatever constructor makes the constant, it is known afterwards and occupies memory.
  have hmade : ∀ {x : Build Const}, (∀ {c d : Context} {k : Const}, x c = .ok k d →
      k.type.isSized = true ∧ c.learnConst k = d) →
        (construct x >>= fun k => pure (.const k)) s = .ok v s' → Gives s s' pending v := by
    intro x hx h
    obtain ⟨k, c, hc, h⟩ := construct_bind_eq_ok_iff.mp h
    obtain ⟨hsized, rfl⟩ := hx hc
    obtain ⟨rfl, rfl⟩ := pure_eq_ok_iff.mp h
    exact gives_learnConst hs hsized
  unfold constant at h
  generalize tok.kind = kind, tok.value = value at h
  split at h
  · split at h
    · cases h
      exact gives_ofBool hs true
    · cases h
  · split at h
    · cases h
      exact gives_ofBool hs false
    · cases h
  · split at h
    · exact hmade undef_eq_ok h
    · cases h
  · split at h
    · exact hmade null_eq_ok h
    · cases h
  · split at h
    · exact hmade constFloat_eq_ok h
    · cases h
    · split at h
      · exact hmade constInt_eq_ok h
      · cases h
    · cases h
  · split at h
    · exact hmade constFloat_eq_ok h
    · cases h
  · cases h

theorem Gives.of_annotated {x : Ty → Parse Value}
    (hx : ∀ {t u}, s.Moved t → x u t = .ok v s' → Gives t s' pending v)
    (h : (next >>= fun _ => annotation >>= fun u => checkType tok (some u) want >>= fun _ =>
      x u) s =
      .ok v s') : Gives s s' pending v := by
  rw [next_bind] at h
  obtain ⟨u, s₁, hu, h⟩ := bind_eq_ok_iff.mp h
  have hmoved := Moves.moved hu
  obtain ⟨_, s₂, hcheck, h⟩ := bind_eq_ok_iff.mp h
  obtain rfl := checkType_eq_ok hcheck
  have hall := s.moved_advance.trans hmoved
  exact .of_moved hall (hx hall h)

theorem operand_eq_ok (hs : s.Coherent pending) (h : operand want s = .ok v s') :
    Gives s s' pending v := by
  rw [operand, current_bind] at h
  cases hkind : s.stream.current.kind with
  | labelIdent =>
    simp only [hkind, next_bind, get_bind_apply] at h
    cases hf : s.advance.function with
    | none => simp [hf] at h
    | some f =>
      simp only [hf] at h
      obtain ⟨b, s₁, hb, h⟩ := bind_eq_ok_iff.mp h
      obtain ⟨_, s₂, hcheck, h⟩ := bind_eq_ok_iff.mp h
      obtain rfl := checkType_eq_ok hcheck
      obtain ⟨rfl, rfl⟩ := pure_eq_ok_iff.mp h
      exact .of_moved s.moved_advance (block_eq_ok (hs.moved s.moved_advance) hf hb).1
  | globalIdent =>
    simp only [hkind, next_bind] at h
    exact .of_moved s.moved_advance (symbol_eq_ok (hs.moved s.moved_advance) h)
  | localIdent =>
    simp only [hkind] at h
    refine .of_annotated (fun {t u} hmoved h => ?_) h
    rw [get_bind_apply] at h
    cases hf : t.function with
    | none => simp [hf] at h
    | some f =>
      simp only [hf] at h
      exact localValue_eq_ok (hs.moved hmoved) hf h
  | _ =>
    simp only [hkind] at h
    split at h
    · exact .of_annotated (fun hmoved h => constant_eq_ok (hs.moved hmoved) h) h
    · simp at h

end Parse

end SsaIr
