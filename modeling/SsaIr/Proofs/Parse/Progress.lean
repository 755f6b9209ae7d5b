import SsaIr.Proofs.Graph.Creation
import SsaIr.Proofs.Syntax.Steps

/-!
# Progress of reading

Reading changes neither which modules a context lists nor where its tokens end, and takes tokens one
by one. `Parse.Finishes` says of a reader how it comes to an end. Read it first; every reader is
then followed step by step with the rules for sequences.
-/

namespace SsaIr

namespace Context

variable (c : Context)

theorem roster_modifyUsers (v : Value) (f : List Use → List Use) :
    (c.modifyUsers v f).roster = c.roster := by
  cases v with
  | const k => unfold modifyUsers; dsimp only; split <;> rfl
  | _ => rfl

theorem roster_linkUse (v : Option Value) (u : Use) : (c.linkUse v u).roster = c.roster := by
  cases v with
  | none => rfl
  | some v => exact c.roster_modifyUsers v _

theorem roster_unlinkUse (v : Option Value) (u : Use) : (c.unlinkUse v u).roster = c.roster := by
  cases v with
  | none => rfl
  | some v => exact c.roster_modifyUsers v _

theorem roster_addOperands (i : InstId) (vs : List (Option Value)) :
    (c.addOperands i vs).roster = c.roster := by
  induction vs generalizing c with
  | nil => rfl
  | cons v vs ih => exact (ih _).trans (roster_linkUse ..)

theorem roster_moveUses (uses : List Use) (v : Value) : (c.moveUses uses v).roster = c.roster := by
  induction uses generalizing c with
  | nil => rfl
  | cons u uses ih => exact (ih _).trans ((roster_linkUse ..).trans (roster_unlinkUse ..))

end Context

set_option synthInstance.maxSize 512

namespace Build

section

open Context

variable {i : InstId} {b : BlockId} {v : Value}

instance {vs : List (Option Value)} : Context.Keeps SameRoster (·.addOperands i vs) :=
  ⟨fun c => c.roster_addOperands i vs⟩

instance {us : Context → List Use} : Context.Keeps SameRoster fun c => c.moveUses (us c) v :=
  ⟨fun c => c.roster_moveUses _ v⟩

instance {w : Value} : Keeps SameRoster (replaceUses v w) := by unfold replaceUses; infer_instance

instance : Keeps SameRoster (addIncoming i (some v) (some b)) := by
  unfold addIncoming; infer_instance

instance {k : Const} : Keeps SameRoster (addCase i (some k) (some b)) := by
  unfold addCase; infer_instance

end

/-- The contexts have the same roster, whatever the builders are. -/
def SameRoster (s t : Bench) : Prop := s.context.SameRoster t.context

theorem keeps_creation (i : Creation) : Keeps SameRoster i.build where
  run s := by
    have hmade := i.makes_build.run s
    cases hrun : i.build s <;> rw [hrun] at hmade
    case ok j t =>
      obtain ⟨e, block, op, name, type, hlearned, ht⟩ := hmade
      show t.context.roster = s.context.roster
      rw [ht]
      exact (Context.roster_addOperands ..).trans hlearned.calm.roster
    case error => exact hmade.1.calm.roster

section Instructions

variable {name : String} {t : Option Ty} {v w : Option Value} {vs : List (Option Value)}
  {d d' : Option BlockId} {op : Opcode} {p : Predicate} {inBounds : Bool}

instance : Keeps SameRoster (Builder.ret v) := keeps_creation (.ret v)

instance : Keeps SameRoster Builder.retVoid := keeps_creation .retVoid

instance : Keeps SameRoster (Builder.br d) := keeps_creation (.br d)

instance : Keeps SameRoster (Builder.condBr v d d') := keeps_creation (.condBr v d d')

instance : Keeps SameRoster (Builder.switch v d) := keeps_creation (.switch v d)

instance : Keeps SameRoster (Builder.binary op v w name) := keeps_creation (.binary op v w name)

instance : Keeps SameRoster (Builder.icmp p v w name) := keeps_creation (.icmp p v w name)

instance : Keeps SameRoster (Builder.fcmp p v w name) := keeps_creation (.fcmp p v w name)

instance : Keeps SameRoster (Builder.alloca t name) := keeps_creation (.alloca t name)

instance : Keeps SameRoster (Builder.load v name) := keeps_creation (.load v name)

instance : Keeps SameRoster (Builder.store v w) := keeps_creation (.store v w)

instance : Keeps SameRoster (Builder.gep t v inBounds vs name) :=
  keeps_creation (.gep t v inBounds vs name)

instance : Keeps SameRoster (Builder.cast op v t name) := keeps_creation (.cast op v t name)

instance : Keeps SameRoster (Builder.phi t name) := keeps_creation (.phi t name)

instance : Keeps SameRoster (Builder.call v vs name) := keeps_creation (.call v vs name)

end Instructions

end Build

/-! ## Taking tokens -/

/-- What stays as it is while a source is read: the modules listed, and the kind of the token beyond
which nothing can be taken. -/
structure Course where
  roster : List ModuleId × Nat
  stop : TokenKind

/-- Nothing is taken at the end of the input, nor at an illegal token. -/
@[reducible]
def isEnd : TokenKind → Bool
  | .eof | .illegal => true
  | _ => false

/-- The kind of the first token that is the end of the input or illegal. -/
def firstEnd (tokens : List Token) : Option TokenKind := (tokens.map Token.kind).find? isEnd

theorem firstEnd_cons (t : Token) (ts : List Token) :
    firstEnd (t :: ts) = if isEnd t.kind then some t.kind else firstEnd ts := by
  rw [firstEnd, List.map_cons, List.find?_cons]
  cases isEnd t.kind <;> rfl

namespace ParseState

def left (s : ParseState) : Nat := s.stream.following.length

/-- The tokens lead up to where reading stops, the budget is enough for those left, and the modules
listed are those given. -/
structure Underway (r : Course) (s : ParseState) : Prop where
  ends : firstEnd (s.stream.current :: s.stream.following) = some r.stop
  budget : 4 * s.left + 4 ≤ s.budget
  roster : s.context.roster = r.roster

variable {r : Course} {s : ParseState}

theorem Underway.take {kind : TokenKind} (h : s.Underway r) (hkind : s.stream.current.kind = kind)
    (hne : isEnd kind = false) : s.advance.Underway r ∧ s.advance.left < s.left := by
  obtain ⟨hends, hbudget, hroster⟩ := h
  rw [firstEnd_cons, hkind, if_neg (by simp [hne])] at hends
  cases hfollowing : s.stream.following with
  | nil =>
    rw [hfollowing] at hends
    cases hends
  | cons t rest =>
    unfold ParseState.advance left TokenStream.next at *
    simp only [hfollowing, List.length_cons] at hends hbudget ⊢
    exact ⟨⟨hends, by dsimp only [left]; omega, hroster⟩, Nat.lt_succ_self _⟩

end ParseState

namespace Parse

open ParseState

variable {α β : Type} {r : Course} {s : ParseState} {m n : Nat}

/-- Reading has come to an end in an orderly way: with fewer than the given number of tokens left,
or with an error other than that of a bound; the modules listed are those given. -/
inductive Finishes (r : Course) (n : Nat) : EStateM.Result ParseError ParseState α → Prop
  | ok {a : α} {t : ParseState} (ht : t.Underway r) (hn : t.left < n) : Finishes r n (.ok a t)
  | error {e : ParseError} {t : ParseState} (he : e.cause ≠ .unfinished)
    (ht : t.context.roster = r.roster) :
      Finishes r n (.error e t)

theorem Finishes.mono {x : EStateM.Result ParseError ParseState α} (h : Finishes r m x)
    (hle : m ≤ n) :
    Finishes r n x := by
  cases h with
  | ok ht hm => exact .ok ht (hm.trans_le hle)
  | error he ht => exact .error he ht

theorem Finishes.bind {x : Parse α} {f : α → Parse β} (hx : Finishes r m (x s))
    (hf : ∀ a t, t.Underway r → t.left < m → Finishes r n (f a t)) :
    Finishes r n ((x >>= f) s) := by
  cases hrun : x s with rw [hrun] at hx
  | ok a t =>
    rw [EStateM.bind_of_ok hrun]
    cases hx with
    | ok ht hm => exact hf a t ht hm
  | error e t =>
    rw [EStateM.bind_of_error hrun]
    cases hx with
    | error he ht => exact .error he ht

/-- The reader comes to an end where fewer than the given number of tokens are left. -/
class Within (n : Nat) (x : Parse α) : Prop where
  run : ∀ {r s}, s.Underway r → s.left < n → Finishes r (s.left + 1) (x s)

/-- The reader does so, and takes a token if it succeeds. -/
class Taking (n : Nat) (x : Parse α) : Prop where
  run : ∀ {r s}, s.Underway r → s.left < n → Finishes r s.left (x s)

section Rules

variable {p : Prop} [Decidable p] {x y : Parse α} {f : α → Parse β}

theorem Within.zero : Within 0 x := ⟨fun _ h => by omega⟩

theorem Within.bind (hx : Within n x) (hf : ∀ a, Within n (f a)) : Within n (x >>= f) where
  run h hn := (hx.run h hn).bind fun a _ ht hlt => ((hf a).run ht (by omega)).mono (by omega)

theorem Taking.bind (hx : Taking n x) (hf : ∀ a, Within n (f a)) : Taking n (x >>= f) where
  run h hn := (hx.run h hn).bind fun a _ ht hlt => ((hf a).run ht (by omega)).mono (by omega)

theorem Taking.after (hx : Within n x) (hf : ∀ a, Taking n (f a)) : Taking n (x >>= f) where
  run h hn := (hx.run h hn).bind fun a _ ht hlt => ((hf a).run ht (by omega)).mono (by omega)

instance [hx : Taking n x] : Within n x := ⟨fun h hn => (hx.run h hn).mono (Nat.le_succ _)⟩

instance [Within n x] [∀ a, Within n (f a)] : Within n (x >>= f) :=
  .bind inferInstance inferInstance

instance [hx : Taking (n + 1) x] [hf : ∀ a, Within n (f a)] : Within (n + 1) (x >>= f) where
  run h hn := (hx.run h hn).bind fun a _ ht hlt => ((hf a).run ht (by omega)).mono (by omega)

instance [Taking n x] [∀ a, Within n (f a)] : Taking n (x >>= f) :=
  .bind inferInstance inferInstance

instance [hx : Taking (n + 1) x] [hf : ∀ a, Within n (f a)] : Taking (n + 1) (x >>= f) where
  run h hn := (hx.run h hn).bind fun a _ ht hlt => ((hf a).run ht (by omega)).mono (by omega)

instance [Within n x] [∀ a, Taking n (f a)] : Taking n (x >>= f) :=
  .after inferInstance inferInstance

instance [hx : Within n x] [hy : Within n y] : Within n (if p then x else y) := by
  split <;> assumption

instance [hx : Taking n x] [hy : Taking n y] : Taking n (if p then x else y) := by
  split <;> assumption

instance {a : α} : Within n (pure a : Parse α) := ⟨fun h _ => .ok h (Nat.lt_succ_self _)⟩

instance {g : α → β} [Within n x] : Within n (g <$> x) :=
  inferInstanceAs (Within n (x >>= fun a => pure (g a)))

instance [Within n x] : Within n (discard x : Parse Unit) :=
  inferInstanceAs (Within n (x >>= fun _ => pure ()))

instance [Taking n x] : Taking n (discard x : Parse Unit) :=
  inferInstanceAs (Taking n (x >>= fun _ => pure ()))

end Rules

/-! ### Steps -/

section Steps

variable {pos : Position} {cause : ParseCause} {kind : TokenKind}

@[reducible]
def isBound : ParseCause → Bool
  | .unfinished => true
  | _ => false

instance : Fact (false = false) := ⟨rfl⟩

theorem ne_unfinished [h : Fact (isBound cause = false)] : cause ≠ .unfinished :=
  fun heq => by cases heq; cases h.out

variable [Fact (isBound cause = false)] [Fact (isEnd kind = false)]

instance : Taking n (failAt pos cause : Parse α) := ⟨fun h _ => .error ne_unfinished h.roster⟩

instance : Taking n (fail cause : Parse α) := ⟨fun h _ => .error ne_unfinished h.roster⟩

instance {f : α → Parse β} : Taking n (failAt pos cause >>= f) :=
  ⟨fun h _ => .error ne_unfinished h.roster⟩

instance {f : α → Parse β} : Taking n (fail cause >>= f) :=
  ⟨fun h _ => .error ne_unfinished h.roster⟩

instance : Within n current := ⟨fun h _ => .ok h (Nat.lt_succ_self _)⟩

instance : Within n peek := ⟨fun h _ => .ok h (Nat.lt_succ_self _)⟩

instance : Within n (at? kind) := ⟨fun h _ => .ok h (Nat.lt_succ_self _)⟩

instance : Within n (get : Parse ParseState) := ⟨fun h _ => .ok h (Nat.lt_succ_self _)⟩

instance {g : Context → α} : Within n (inContext g) := ⟨fun h _ => .ok h (Nat.lt_succ_self _)⟩

instance {module : ParseState → ModuleId} {builder : ParseState → Builder}
    {headerSeen : ParseState → Bool}
    {forward : ParseState → Std.TreeMap String FuncId} {function : ParseState → Option FuncId}
    {locals : ParseState → Std.TreeMap String Value}
    {labels : ParseState → Std.TreeMap String BlockId}
    {instPos : ParseState → Position} :
    Within n (modify fun s => ⟨s.stream, s.context, module s, builder s,
      headerSeen s, forward s, function s, locals s, labels s, instPos s, s.budget⟩) :=
  ⟨fun h _ => .ok ⟨h.ends, h.budget, h.roster⟩ (Nat.lt_succ_self _)⟩

theorem Within.budget {f : Nat → Parse α} (hf : ∀ n, Within n (f n)) : Within m (budget >>= f) where
  run {_ s} h _ := (hf s.budget).run h (by have := h.budget; omega)

instance {f : Nat → Parse α} [∀ n, Within n (f n)] : Within m (budget >>= f) :=
  .budget inferInstance

instance : Taking n (expect kind) where
  run {_ s} h _ := by
    unfold expect
    rw [current_bind]
    split
    · next heq =>
        obtain ⟨ht, hlt⟩ := h.take heq Fact.out
        exact .ok ht hlt
    · exact .error nofun h.roster

omit [Fact (isEnd kind = false)] in
theorem taking_next {k : Unit → Parse α} (h : s.Underway r) (hkind : s.stream.current.kind = kind)
    [hk : Within s.left (k ())] (hne : isEnd kind = false) :
    Finishes r s.left ((next >>= k) s) := by
  obtain ⟨ht, hlt⟩ := h.take hkind hne
  rw [next_bind]
  exact (hk.run ht hlt).mono hlt

instance {x y : Parse α} [hx : Within n x] [hy : Within (n + 1) y] :
    Within (n + 1) (eat kind >>= fun b => if b = true then x else y) where
  run {_ s} h hn := by
    rw [eat_bind]
    split
    · next heq =>
        obtain ⟨ht, hlt⟩ := h.take heq Fact.out
        exact (hx.run ht (by omega)).mono (by omega)
    · exact hy.run h hn

instance : Within n (eat kind) where
  run {_ s} h _ := by
    rw [← bind_pure (eat kind), eat_bind]
    split
    · next heq =>
        obtain ⟨ht, hlt⟩ := h.take heq Fact.out
        exact .ok ht (Nat.lt_succ_of_lt hlt)
    · exact .ok h (Nat.lt_succ_self _)

instance {x : Build α} [hx : Build.Keeps Context.SameRoster x] : Within n (constructAt pos x) where
  run {_ s} h _ := by
    have hkept := hx.run s.context
    unfold constructAt
    dsimp only
    split <;> rename_i hrun <;> rw [hrun] at hkept
    · exact .ok ⟨h.ends, h.budget, hkept.trans h.roster⟩ (Nat.lt_succ_self _)
    · exact .error nofun (hkept.trans h.roster)

instance {x : Build α} [Build.Keeps Context.SameRoster x] : Within n (construct x) := by
  unfold construct; infer_instance

instance {x : Building InstId} [hx : Build.Keeps Build.SameRoster x] : Within n (emit x) where
  run {_ s} h _ := by
    have hkept := hx.run ⟨s.context, s.builder⟩
    unfold emit
    dsimp only
    split <;> rename_i hrun <;> rw [hrun] at hkept
    · exact .ok ⟨h.ends, h.budget, hkept.trans h.roster⟩ (Nat.lt_succ_self _)
    · exact .error nofun (hkept.trans h.roster)

end Steps

end Parse

end SsaIr
