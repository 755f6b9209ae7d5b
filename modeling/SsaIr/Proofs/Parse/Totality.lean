import SsaIr.Proofs.Parse.Progress

/-!
# Reading always comes to an end

Every source is read to an end, whatever its text: no bound on nesting or repetition is ever met,
and reading either adds one module to those listed or leaves the list as it was. Each reader is
followed in the order of its definition; the instances find which steps take a token. Read
`parseModule_total` first, then `TypesFinish`.
-/

namespace SsaIr

namespace Parse

open ParseState

set_option synthInstance.maxSize 4096

variable {n : Nat}

/-! ## Types -/

instance : Taking n arrayLength := by unfold arrayLength; infer_instance

instance {tok : Token} : Within n (structNamed tok) := by
  refine .bind inferInstance fun t => ?_
  split <;> infer_instance

/-- The readers of types come to an end within a bound that is large enough for the tokens left:
between two tokens they nest at most four deep. -/
structure TypesFinish (n : Nat) : Prop where
  type : ∀ {k}, 4 * k ≤ n + 2 → Taking k (typeWithin n)
  suffix : ∀ {k}, 4 * k ≤ n + 3 → ∀ t, Within k (functionSuffix n t)
  params : ∀ {k}, 4 * k ≤ n + 1 → ∀ first, Within k (paramTypes n first)
  base : ∀ {k}, 4 * k ≤ n + 3 → Taking k (baseType n)
  body : ∀ {k}, 4 * k ≤ n + 4 → 0 < n → Taking k (structBody n)
  members : ∀ {k}, 4 * k ≤ n + 1 → ∀ first, Within k (memberTypes n first)

theorem TypesFinish.succ (ih : TypesFinish n) : TypesFinish (n + 1) where
  type {k} hk := by
    have hbase : Taking k (baseType n) := ih.base (by omega)
    have hsuffix := ih.suffix (k := k) (by omega)
    unfold typeWithin
    infer_instance
  suffix {k} hk t := by
    refine ⟨fun {r s} h hlt => ?_⟩
    have hparams := ih.params (k := s.left) (by omega)
    have hsuffix := ih.suffix (k := s.left) (by omega)
    unfold functionSuffix
    rw [current_bind]
    split
    · next hkind => exact (taking_next h hkind rfl).mono (Nat.le_succ _)
    · exact .ok h (Nat.lt_succ_self _)
  params {k} hk first := by
    cases k with
    | zero => exact .zero
    | succ k =>
      have htype : Taking (k + 1) (typeWithin n) := ih.type (by omega)
      have hparams := ih.params (k := k) (by omega)
      unfold paramTypes
      infer_instance
  base {k} hk := by
    refine ⟨fun {r s} h hlt => ?_⟩
    have htype : Taking s.left (typeWithin n) := ih.type (by omega)
    unfold baseType
    rw [current_bind]
    cases hprimitive : primitive? s.stream.current.kind with
    | some t =>
      refine taking_next h rfl ?_
      cases hkind : s.stream.current.kind <;> simp_all [primitive?]
    | none =>
      generalize hkind : s.stream.current.kind = kind
      split
      · exact taking_next h hkind rfl
      · exact taking_next h hkind rfl
      · -- The body starts with the token looked at, so at least one is left and the bound is not
        -- spent.
        have hleft := (h.take hkind rfl).2
        have hbody : Taking (s.left + 1) (structBody n) := ih.body (by omega) (by omega)
        exact Taking.run h (Nat.lt_succ_self _)
      · exact taking_next h hkind rfl
      · exact .error nofun h.roster
  body {k} hk _ := by
    cases k with
    | zero => exact ⟨fun _ h => by omega⟩
    | succ k =>
      have hmembers := ih.members (k := k) (by omega)
      unfold structBody
      infer_instance
  members {k} hk first := by
    cases k with
    | zero => exact .zero
    | succ k =>
      have htype : Taking (k + 1) (typeWithin n) := ih.type (by omega)
      have hmembers := ih.members (k := k) (by omega)
      unfold memberTypes
      infer_instance

theorem typesFinish (n : Nat) : TypesFinish n := by
  induction n with
  | zero =>
    constructor
    all_goals intros; exact ⟨fun _ h => by omega⟩
  | succ n ih => exact ih.succ

instance : Taking n type where
  run {_ s} h _ :=
    ((typesFinish s.budget).type (by have := h.budget; omega)).run h (Nat.lt_succ_self _)

instance : Taking n members where
  run {_ s} h _ :=
    ((typesFinish s.budget).body (by have := h.budget; omega) (by have := h.budget; omega)).run h
    (Nat.lt_succ_self _)

/-! ## Operands -/

instance : Taking n annotation := by unfold annotation; infer_instance

instance {tok : Token} {t want : Option Ty} : Within n (checkType tok t want) := by
  unfold checkType; split <;> infer_instance

instance {f : FuncId} {name : String} : Within n (block f name) := by
  refine .bind inferInstance fun s => ?_
  split <;> infer_instance

instance {f : FuncId} {name : String} {t : Ty} {pos : Position} :
    Within n (localValue f name t pos) := by
  refine .bind inferInstance fun s => ?_
  split <;> infer_instance

instance {f : FuncId} {ts : List Ty} : Build.Keeps Context.SameRoster (addParameters f ts) := by
  fun_induction addParameters <;> infer_instance

instance {tok : Token} {want : Option Ty} : Within n (symbol tok want) := by
  refine .bind inferInstance fun s => ?_
  split
  · infer_instance
  · split
    · infer_instance
    · split <;> infer_instance

instance {tok : Token} {t : Ty} : Within n (constant tok t) := by
  unfold constant
  generalize tok.kind = kind, tok.value = value
  split
  case h_5 => split <;> infer_instance
  all_goals infer_instance

instance {want : Option Ty} : Taking n (operand want) where
  run {r s} h _ := by
    have hlabel {tok : Token} : Within s.left (do
        match (← get).function with
        | none => failAt tok.pos (.labelOutside tok.literal)
        | some f =>
          let b ← block f tok.literal
          checkType tok (some .label) want
          return .block b : Parse Value) := by
      refine .bind inferInstance fun s => ?_
      split <;> infer_instance
    have hlocal {tok : Token} {t : Ty} : Within s.left (do
        match (← get).function with
        | none => failAt tok.pos (.localOutside tok.literal)
        | some f => localValue f tok.literal t tok.pos : Parse Value) := by
      refine .bind inferInstance fun s => ?_
      split <;> infer_instance
    unfold operand
    rw [current_bind]
    generalize hkind : s.stream.current.kind = kind
    split
    · exact taking_next h hkind rfl
    · exact taking_next h hkind rfl
    · exact taking_next h hkind rfl
    · split
      · next hconst => exact taking_next h hkind (by cases kind <;> first | rfl | cases hconst)
      · exact .error nofun h.roster

instance {name : String} {pos : Position} {v : Value} : Within n (define name pos v) := by
  refine .bind inferInstance fun s => ?_
  split <;> infer_instance

/-! ## Instructions -/

section Instructions

variable {f : FuncId} {b : BlockId} {i : InstId} {t : Ty} {want : Option Ty}

instance : Taking n (label f) := by unfold label; infer_instance

instance : Within n comma := by unfold comma; infer_instance

instance : Within n (switchCases f i want n) := by
  induction n with
  | zero => exact .zero
  | succ n ih =>
    have hcase : Within n (do
        discard (expect .lbracket)
        let tok ← current
        match ← operand want with
        | .const (.int w v) =>
          comma
          let dest ← label f
          construct (Build.addCase i (some (.int w v)) (some dest))
          discard (expect .rbracket)
          switchCases f i want n
        | _ => failAt tok.pos (.switchCase tok)) := by
      refine .bind inferInstance fun _ => .bind inferInstance fun _ =>
        .bind inferInstance fun v => ?_
      split <;> infer_instance
    unfold switchCases
    infer_instance

instance : Within n (phiPairs f i want n) := by
  induction n with
  | zero => exact .zero
  | succ n ih => unfold phiPairs; infer_instance

instance : Within n (indices n) := by
  induction n with
  | zero => exact .zero
  | succ n ih => unfold indices; infer_instance

instance {first : Bool} {ts : List Ty} : Within n (arguments n first ts) := by
  induction n generalizing first ts with
  | zero => exact .zero
  | succ n ih => unfold arguments; infer_instance

instance : Within n (calleeValue f t) := by unfold calleeValue; infer_instance

instance {op : Opcode} : Taking n (predicate op) where
  run {r s} h _ := by
    unfold predicate
    rw [current_bind]
    -- A predicate is found only at a word, so it is never the end that is taken.
    cases hend : isEnd s.stream.current.kind with
    | false =>
      have hfound (found : Option Predicate) : Finishes r s.left ((match found with
          | some p => do
            next
            return p
          | none => fail (.invalidPredicate op s.stream.current)) s) := by
        cases found with
        | none => exact .error nofun h.roster
        | some p => exact taking_next h rfl hend
      exact hfound _
    | true =>
      cases hkind : s.stream.current.kind <;> simp [hkind] at hend
      all_goals cases op <;> exact .error nofun h.roster

instance : Taking n operandPair := by unfold operandPair; infer_instance

instance {op : Opcode} {pos : Position} {t : Option Ty} {name : String} :
    Within n (build f op pos t name) := by
  cases op <;> unfold build
  case call =>
    refine .bind inferInstance fun _ => .bind inferInstance fun t => ?_
    split <;> infer_instance
  all_goals infer_instance

instance : Within n result := by unfold result; infer_instance

instance : Taking n opcode where
  run {r s} h _ := by
    unfold opcode
    rw [current_bind]
    split
    · exact .error nofun h.roster
    · next hkind =>
        cases Opcode.ofMnemonic? s.stream.current.literal with
        | none => exact .error nofun h.roster
        | some op => exact taking_next h (not_not.mp hkind) rfl

instance : Taking n (instruction f b) := by
  have hrest {res : Option (String × Ty)} {op : Opcode} {pos opPos : Position} {name : String} :
    Within n (do
      let i ← build f op opPos (res.map (·.2)) name
      let t ← inContext fun c => (c.inst i).type
      match res with
      | none => if !t.isVoid then failAt pos (.unnamedResult op)
      | some (name, declared) =>
        if t.isVoid then failAt pos (.namedVoid op name)
        if t ≠ declared then failAt pos (.resultType name declared op t)
        define name pos (.inst i)) := by
    refine .bind inferInstance fun i => .bind inferInstance fun t => ?_
    split <;> infer_instance
  unfold instruction
  infer_instance

end Instructions

/-! ## Modules -/

instance : Taking n header := by unfold header; infer_instance

instance : Taking n structDefinition := by unfold structDefinition; infer_instance

instance {tok : Token} : Within n (checkFree tok) := by unfold checkFree; infer_instance

instance : Taking n globalDefinition := by unfold globalDefinition; infer_instance

instance {named first : Bool} : Within n (paramList named n first) := by
  induction n generalizing first with
  | zero => exact .zero
  | succ n ih => unfold paramList; infer_instance

instance {named : Bool} : Within n (params named) := by unfold params; infer_instance

instance {f : FuncId} {ps : List Param} : Within n (addParams f ps) := by
  fun_induction addParams <;> infer_instance

instance {ps : List (ArgId × Param)} : Build.Keeps Context.SameRoster (nameArgs ps) := by
  fun_induction nameArgs <;> infer_instance

instance {tok : Token} {t : Ty} {ps : List Param} {variadic : Bool} :
    Within n (declared tok t ps variadic) := by
  refine .bind inferInstance fun _ => .bind inferInstance fun s => ?_
  split <;> infer_instance

instance : Taking n declaration := by unfold declaration; infer_instance

instance {f : FuncId} {b : BlockId} : Within n (instructions f b n) := by
  induction n with
  | zero => exact .zero
  | succ n ih => unfold instructions; infer_instance

instance {f : FuncId} : Taking n (blockDefinition f) where
  run {r s} h _ := by
    unfold blockDefinition
    rw [current_bind, peek_bind]
    split
    · exact .error nofun h.roster
    · exact Taking.run h (Nat.lt_succ_self _)

instance {f : FuncId} : Within n (blocks f n) := by
  induction n with
  | zero => exact .zero
  | succ n ih => unfold blocks; infer_instance

instance {ps : List (ArgId × Param)} : Within n (bindParams ps) := by
  fun_induction bindParams <;> infer_instance

instance {f : FuncId} {pos : Position} : Within n (checkResolved f pos) := by
  refine .bind inferInstance fun s => ?_
  dsimp only
  split
  · infer_instance
  · split <;> infer_instance

instance : Taking n definition :=
  .after inferInstance fun _ => .bind inferInstance fun _ => .bind inferInstance fun _ =>
    .bind inferInstance fun _ =>
    inferInstance

instance : Within n (definitions n) := by
  induction n with
  | zero => exact .zero
  | succ n ih =>
    unfold definitions
    refine .bind inferInstance fun tok => ?_
    split <;> infer_instance

instance : Within n source := by
  refine .budget fun n => .bind inferInstance fun _ => .bind inferInstance fun s => ?_
  split <;> infer_instance

end Parse

/-! ## Sources -/

theorem exists_firstEnd_scanFrom (p : Position) (input : List Char) :
    ∃ stop, firstEnd (scanFrom p input) = some stop := by
  fun_induction scanFrom p input with
  | case1 => exact ⟨.eof, rfl⟩
  | case2 => exact ⟨.eof, rfl⟩
  | case3 p input start c rest _ _ l ih =>
    rw [firstEnd_cons]
    split
    · exact ⟨l.kind, rfl⟩
    · exact ih

def ParseState.start (file text : String) (c : Context) (m : ModuleId) : ParseState where
  stream := .ofTokens (scan file text)
  context := c
  module := m
  budget := 4 * (scan file text).length + 4

theorem ParseState.underway_start {file text : String} {stop : TokenKind}
    (hstop : firstEnd (scan file text) = some stop)
    (c : Context) (m : ModuleId) : (start file text c m).Underway ⟨c.roster, stop⟩ := by
  unfold start
  cases hscan : scan file text with rw [hscan] at hstop
  | nil => cases hstop
  | cons t rest => exact ⟨hstop, by simp [left, TokenStream.ofTokens], rfl⟩

namespace Context

def Listed (c : Context) : Prop := ∀ m ∈ c.live, m.index < c.modules.size

variable {c d : Context} {name : String}

theorem Listed.of_roster (hc : c.Listed) (hd : d.roster = (c.pushModule name).roster)
    {l : List ModuleId}
    (hl : l ⊆ c.live ++ [⟨c.modules.size⟩]) : ({ d with live := l } : Context).Listed := by
  have hsize : d.modules.size = c.modules.size + 1 :=
    (congrArg Prod.snd hd).trans (Array.size_push _)
  intro m hm
  show m.index < d.modules.size
  rw [hsize]
  rcases List.mem_append.mp (hl hm) with hold | hnew
  · exact Nat.lt_succ_of_lt (hc m hold)
  · rw [List.mem_singleton.mp hnew]
    exact Nat.lt_succ_self _

end Context

theorem parseModule_eq (file text : String) (c : Context) : parseModule file text c =
    match Parse.source (.start file text (c.pushModule file) ⟨c.modules.size⟩) with
    | .ok _ s => (.ok ⟨c.modules.size⟩, s.context)
    | .error e s =>
      (.error e, { s.context with live := s.context.live.erase ⟨c.modules.size⟩ }) := rfl

/-- Every source is read to an end: either a new module is listed after those listed before, or
there is an error of the source, and the list of modules is as it was. -/
theorem parseModule_total (file text : String) {c : Context} (hc : c.Listed) :
    (∃ m d, parseModule file text c = (.ok m, d) ∧ m ∉ c.live ∧ d.live = c.live ++ [m] ∧ d.Listed) ∨
    (∃ e d, parseModule file text c = (.error e, d) ∧ e.cause ≠ .unfinished ∧ d.live = c.live ∧
      d.Listed) := by
  have hnew : (⟨c.modules.size⟩ : ModuleId) ∉ c.live := fun hmem => lt_irrefl _ (hc _ hmem)
  obtain ⟨stop, hstop⟩ := exists_firstEnd_scanFrom (.start file) text.toList
  have hread := (inferInstance : Parse.Within _ Parse.source).run
    (ParseState.underway_start hstop (c.pushModule file) ⟨c.modules.size⟩) (Nat.lt_succ_self _)
  rw [parseModule_eq]
  generalize Parse.source _ = result at hread
  cases hread with
  | @ok _ s hs _ =>
    have hlive : s.context.live = c.live ++ [⟨c.modules.size⟩] := congrArg Prod.fst hs.roster
    exact .inl ⟨_, _, rfl, hnew, hlive, hc.of_roster hs.roster fun m hm => hlive ▸ hm⟩
  | @error e s he hs =>
    have hlive : s.context.live = c.live ++ [⟨c.modules.size⟩] := congrArg Prod.fst hs
    refine .inr ⟨e, _, rfl, he, ?_, hc.of_roster hs fun m hm => hlive ▸ List.mem_of_mem_erase hm⟩
    show s.context.live.erase _ = c.live
    rw [hlive, List.erase_append_right _ hnew, List.erase_cons_head, List.append_nil]

/-- A text that breaks off in a context that lists a module. -/
theorem parseModule_total_broken :
    (Context.new.pushModule "first").Listed ∧
    ((∃ m d, parseModule "second" "define i32 @f(" (Context.new.pushModule "first") = (.ok m, d) ∧
        m ∉ [⟨0⟩] ∧ d.live = [⟨0⟩, m] ∧ d.Listed) ∨
      (∃ e d, parseModule "second" "define i32 @f(" (Context.new.pushModule "first") =
        (.error e, d) ∧
        e.cause ≠ .unfinished ∧ d.live = [⟨0⟩] ∧ d.Listed)) := by
  have hlisted : (Context.new.pushModule "first").Listed := by
    intro m hm
    obtain rfl := List.mem_singleton.mp hm
    decide
  exact ⟨hlisted, parseModule_total "second" "define i32 @f(" hlisted⟩

end SsaIr
