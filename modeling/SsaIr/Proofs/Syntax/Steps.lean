import SsaIr.Parse.Module
import SsaIr.Proofs.Graph.Construction
import SsaIr.Proofs.Syntax.Words

/-!
# Steps of reading

What the primitive steps of reading do, as equivalences with success: taking words, running a
construction, and looking at what was built. `ParseState.ahead` is what is left to read, as words.
`ParseState.Moved` says that a step took words and got to know types and constants, and nothing
else.
-/

namespace SsaIr

open EStateM

variable {kind : TokenKind} {pos : Position}

namespace ParseState

def ahead (s : ParseState) : List Word := (s.stream.current :: s.stream.following).map Token.word

def advance (s : ParseState) : ParseState := { s with stream := s.stream.next }

def within (s : ParseState) (c : Context) : ParseState := { s with context := c }

/-- Words were taken, and types and constants got known. -/
structure Moved (s s' : ParseState) : Prop where
  same : s' = { s with stream := s'.stream, context := s'.context }
  learned : s.context.Learned s'.context
  suffix : s'.ahead <:+ s.ahead

namespace Moved

variable {s s' s'' : ParseState}

theorem refl (s : ParseState) : s.Moved s := ⟨rfl, .refl _, List.suffix_rfl⟩

theorem trans (h : s.Moved s') (h' : s'.Moved s'') : s.Moved s'' := by
  refine ⟨?_, h.learned.trans h'.learned, h'.suffix.trans h.suffix⟩
  rw [h'.same]
  rw [h.same]

end Moved

theorem moved_advance (s : ParseState) : s.Moved s.advance := by
  refine ⟨rfl, .refl _, ?_⟩
  unfold advance ahead TokenStream.next
  dsimp only
  split
  · exact List.suffix_rfl
  · rename_i heq
    simp [heq]

end ParseState

namespace Parse

variable {s s' : ParseState}

section Primitives

variable {α : Type} {a : α}

@[simp]
theorem failAt_eq_ok_iff {cause : ParseCause} : failAt pos cause s = .ok a s' ↔ False := by
  simp [failAt]

@[simp]
theorem fail_eq_ok_iff {cause : ParseCause} : fail cause s = .ok a s' ↔ False :=
  ⟨nofun, nofun⟩

@[simp]
theorem current_apply : current s = .ok s.stream.current s := rfl

@[simp]
theorem next_apply : next s = .ok () s.advance := rfl

@[simp]
theorem at?_apply : at? kind s = .ok (s.stream.current.kind = kind) s := rfl

@[simp]
theorem pure_eq_ok_iff {b : α} : (pure b : Parse α) s = .ok a s' ↔ b = a ∧ s = s' := by
  simp

@[simp]
theorem discard_eq_ok_iff {x : Parse α} {u : Unit} :
    (discard x : Parse Unit) s = .ok u s' ↔ ∃ b, x s = .ok b s' := by
  have hmap : (discard x : Parse Unit) = (fun _ => ()) <$> x := rfl
  rw [hmap, map_eq_ok_iff]
  simp

@[simp]
theorem expect_eq_ok_iff {t : Token} : expect kind s = .ok t s' ↔
    s.stream.current.kind = kind ∧ s.stream.current = t ∧ s.advance = s' := by
  unfold expect
  rw [bind_of_ok current_apply]
  constructor
  · intro h
    split at h
    · rename_i hkind
      rw [bind_of_ok next_apply, pure_eq_ok_iff] at h
      exact ⟨hkind, h⟩
    · simp at h
  · rintro ⟨hkind, rfl, rfl⟩
    rw [if_pos hkind]
    rfl

theorem eat_apply : eat kind s =
    if s.stream.current.kind = kind then .ok true s.advance else .ok false s := by
  unfold eat
  rw [bind_of_ok at?_apply]
  by_cases h : s.stream.current.kind = kind
  · rw [if_pos (decide_eq_true h), if_pos h]
    rfl
  · rw [if_neg (by simpa using h), if_neg h]
    rfl

@[simp]
theorem constructAt_eq_ok_iff {x : Build α} : constructAt pos x s = .ok a s' ↔
    ∃ c, x s.context = .ok a c ∧ s.within c = s' := by
  unfold constructAt
  dsimp only
  split <;> simp_all [ParseState.within]

@[simp]
theorem construct_eq_ok_iff {x : Build α} : construct x s = .ok a s' ↔
    ∃ c, x s.context = .ok a c ∧ s.within c = s' := by
  unfold construct
  rw [bind_of_ok (get_apply s), constructAt_eq_ok_iff]

@[simp]
theorem emit_eq_ok_iff {x : Building InstId} {i : InstId} : emit x s = .ok i s' ↔
    ∃ t, x ⟨s.context, s.builder⟩ = .ok i t ∧
      { s.within t.context with builder := t.builder } = s' := by
  unfold emit
  dsimp only
  cases hx : x ⟨s.context, s.builder⟩ <;> simp [ParseState.within]

end Primitives

/-! ## Sequences that start with a primitive step -/

section Sequences

variable {α β : Type} {b : β}

theorem current_bind (f : Token → Parse β) : (current >>= f) s = f s.stream.current s := rfl

theorem peek_bind (f : Token → Parse β) : (peek >>= f) s = f s.stream.peek s := rfl

theorem next_bind (f : Unit → Parse β) : (next >>= f) s = f () s.advance := rfl

theorem at?_bind (kind : TokenKind) (f : Bool → Parse β) :
    (at? kind >>= f) s = f (s.stream.current.kind = kind) s := rfl

theorem eat_bind (kind : TokenKind) (f : Bool → Parse β) : (eat kind >>= f) s =
    if s.stream.current.kind = kind then f true s.advance else f false s := by
  by_cases h : s.stream.current.kind = kind
  · rw [if_pos h, bind_of_ok (eat_apply.trans (if_pos h))]
  · rw [if_neg h, bind_of_ok (eat_apply.trans (if_neg h))]

theorem inContext_bind (g : Context → α) (f : α → Parse β) :
    (inContext g >>= f) s = f (g s.context) s := rfl

theorem budget_bind (f : Nat → Parse β) : (budget >>= f) s = f s.budget s := rfl

theorem expect_bind_eq_ok_iff {f : Token → Parse β} : (expect kind >>= f) s = .ok b s' ↔
      s.stream.current.kind = kind ∧ f s.stream.current s.advance = .ok b s' := by
  rw [bind_eq_ok_iff]
  constructor
  · rintro ⟨t, s₁, h, hf⟩
    obtain ⟨hkind, rfl, rfl⟩ := expect_eq_ok_iff.mp h
    exact ⟨hkind, hf⟩
  · rintro ⟨hkind, hf⟩
    exact ⟨_, _, expect_eq_ok_iff.mpr ⟨hkind, rfl, rfl⟩, hf⟩

theorem discard_bind_eq_ok_iff {x : Parse α} {f : Unit → Parse β} :
    (discard x >>= f) s = .ok b s' ↔ ∃ a t, x s = .ok a t ∧ f () t = .ok b s' := by
  rw [bind_eq_ok_iff]
  constructor
  · rintro ⟨_, t, h, hf⟩
    obtain ⟨a, h⟩ := discard_eq_ok_iff.mp h
    exact ⟨a, t, h, hf⟩
  · rintro ⟨a, t, h, hf⟩
    exact ⟨(), t, discard_eq_ok_iff.mpr ⟨a, h⟩, hf⟩

theorem pass_bind_eq_ok_iff {f : Unit → Parse β} :
    (discard (expect kind) >>= f) s = .ok b s' ↔
      s.stream.current.kind = kind ∧ f () s.advance = .ok b s' := by
  rw [discard_bind_eq_ok_iff]
  exact bind_eq_ok_iff.symm.trans expect_bind_eq_ok_iff

theorem constructAt_bind_eq_ok_iff {x : Build α} {f : α → Parse β} :
    (constructAt pos x >>= f) s = .ok b s' ↔
      ∃ a c, x s.context = .ok a c ∧ f a (s.within c) = .ok b s' := by
  rw [bind_eq_ok_iff]
  constructor
  · rintro ⟨a, t, h, hf⟩
    obtain ⟨c, hx, rfl⟩ := constructAt_eq_ok_iff.mp h
    exact ⟨a, c, hx, hf⟩
  · rintro ⟨a, c, hx, hf⟩
    exact ⟨a, s.within c, constructAt_eq_ok_iff.mpr ⟨c, hx, rfl⟩, hf⟩

theorem construct_bind_eq_ok_iff {x : Build α} {f : α → Parse β} :
    (construct x >>= f) s = .ok b s' ↔
      ∃ a c, x s.context = .ok a c ∧ f a (s.within c) = .ok b s' := by
  unfold construct
  rw [bind_assoc, get_bind_apply, constructAt_bind_eq_ok_iff]

theorem moved_of_separator {first : Bool} {x : Parse β}
    (h : (if (!first) = true then discard (expect .comma) >>= fun _ => x else x) s = .ok b s') :
    ∃ t, s.Moved t ∧ x t = .ok b s' := by
  cases first with
  | true => exact ⟨s, .refl s, h⟩
  | false => exact ⟨s.advance, s.moved_advance, (pass_bind_eq_ok_iff.mp h).2⟩

end Sequences

end Parse

end SsaIr
