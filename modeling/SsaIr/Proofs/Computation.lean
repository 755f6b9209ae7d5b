import Mathlib

/-!
# Computations with state and failure

How the computations of the development run: what each primitive does to the state, and what is
known of the parts of a sequence that succeeded. `EStateM.Meets` is what a computation keeps and
gives, whether it succeeds or not. Read `EStateM.bind_eq_ok_iff` first.
-/

namespace EStateM

variable {ε σ α β : Type}

@[simp]
theorem pure_apply (a : α) (s : σ) : (pure a : EStateM ε σ α) s = .ok a s := rfl

@[simp]
theorem get_apply (s : σ) : (get : EStateM ε σ σ) s = .ok s s := rfl

@[simp]
theorem modify_apply (f : σ → σ) (s : σ) : (modify f : EStateM ε σ PUnit) s = .ok ⟨⟩ (f s) := rfl

@[simp]
theorem throw_apply (e : ε) (s : σ) : (throw e : EStateM ε σ α) s = .error e s := rfl

theorem bind_of_ok {x : EStateM ε σ α} {f : α → EStateM ε σ β} {s s' : σ} {a : α}
    (h : x s = .ok a s') : (x >>= f) s = f a s' := by
  show EStateM.bind x f s = f a s'
  unfold EStateM.bind
  rw [h]

theorem bind_of_error {x : EStateM ε σ α} {f : α → EStateM ε σ β} {s s' : σ} {e : ε}
    (h : x s = .error e s') : (x >>= f) s = .error e s' := by
  show EStateM.bind x f s = .error e s'
  unfold EStateM.bind
  rw [h]

theorem bind_eq_ok_iff {x : EStateM ε σ α} {f : α → EStateM ε σ β} {s s' : σ} {b : β} :
    (x >>= f) s = .ok b s' ↔ ∃ a t, x s = .ok a t ∧ f a t = .ok b s' := by
  cases hx : x s with
  | ok a t =>
    rw [bind_of_ok hx]
    constructor
    · intro h
      exact ⟨a, t, rfl, h⟩
    · rintro ⟨a', t', heq, h⟩
      cases heq
      exact h
  | error e t =>
    rw [bind_of_error hx]
    constructor
    · intro h
      cases h
    · rintro ⟨a', t', heq, _⟩
      cases heq

theorem get_bind_apply (f : σ → EStateM ε σ β) (s : σ) : (get >>= f) s = f s s := rfl

theorem modify_bind_apply (g : σ → σ) (f : PUnit → EStateM ε σ β) (s : σ) :
    (modify g >>= f) s = f ⟨⟩ (g s) := rfl

theorem discard_of_ok {x : EStateM ε σ α} {s s' : σ} {a : α} (h : x s = .ok a s') :
    discard x s = .ok () s' := by
  show EStateM.map (fun _ => ()) x s = .ok () s'
  unfold EStateM.map
  rw [h]

theorem discard_of_error {x : EStateM ε σ α} {s s' : σ} {e : ε} (h : x s = .error e s') :
    discard x s = .error e s' := by
  show EStateM.map (fun _ => ()) x s = .error e s'
  unfold EStateM.map
  rw [h]

theorem map_eq_ok_iff {x : EStateM ε σ α} {f : α → β} {s s' : σ} {b : β} :
    (f <$> x) s = .ok b s' ↔ ∃ a, x s = .ok a s' ∧ f a = b := by
  show EStateM.map f x s = .ok b s' ↔ _
  unfold EStateM.map
  cases hx : x s with
  | ok a t =>
    simp only [Result.ok.injEq]
    constructor
    · rintro ⟨rfl, rfl⟩
      exact ⟨a, ⟨rfl, rfl⟩, rfl⟩
    · rintro ⟨a', ⟨rfl, rfl⟩, rfl⟩
      exact ⟨rfl, rfl⟩
  | error e t =>
    constructor
    · intro h
      cases h
    · rintro ⟨a', heq, _⟩
      cases heq

/-- From a state with the invariant the computation reaches a state with the invariant, and either
gives a result with the condition or fails in a way that is tolerated. -/
def Meets (I : σ → Prop) (E : ε → Prop) (x : EStateM ε σ α) (Q : α → Prop) : Prop :=
  ∀ s, I s → (∀ a s', x s = .ok a s' → I s' ∧ Q a) ∧ ∀ e s', x s = .error e s' → I s' ∧ E e

namespace Meets

variable {I : σ → Prop} {E : ε → Prop} {x : EStateM ε σ α} {Q Q' : α → Prop}

theorem pure {a : α} (h : Q a) : Meets I E (Pure.pure a : EStateM ε σ α) Q := by
  refine fun s hs => ⟨fun a' s' heq => ?_, fun e s' heq => (nomatch heq)⟩
  cases heq
  exact ⟨hs, h⟩

theorem throw {e : ε} (h : E e) : Meets I E (MonadExcept.throw e : EStateM ε σ α) Q := by
  refine fun s hs => ⟨fun a' s' heq => (nomatch heq), fun e s' heq => ?_⟩
  cases heq
  exact ⟨hs, h⟩

theorem bind {f : α → EStateM ε σ β} {P : β → Prop} (hx : Meets I E x Q)
    (hf : ∀ a, Q a → Meets I E (f a) P) : Meets I E (x >>= f) P := by
  intro s hs
  obtain ⟨hok, herror⟩ := hx s hs
  cases hrun : x s with
  | ok a s₁ =>
    obtain ⟨hs₁, ha⟩ := hok a s₁ hrun
    rw [bind_of_ok hrun]
    exact hf a ha s₁ hs₁
  | error e s₁ =>
    rw [bind_of_error hrun]
    refine ⟨fun a s' heq => (nomatch heq), fun e' s' heq => ?_⟩
    cases heq
    exact herror e s₁ hrun

theorem mono (hx : Meets I E x Q) (h : ∀ a, Q a → Q' a) : Meets I E x Q' := fun s hs =>
  ⟨fun a s' heq => ⟨((hx s hs).1 a s' heq).1, h a ((hx s hs).1 a s' heq).2⟩, (hx s hs).2⟩

theorem monoStop {E' : ε → Prop} (hx : Meets I E x Q) (h : ∀ e, E e → E' e) :
    Meets I E' x Q := fun s hs =>
  ⟨(hx s hs).1, fun e s' heq => ⟨((hx s hs).2 e s' heq).1, h e ((hx s hs).2 e s' heq).2⟩⟩

theorem get : Meets I E (MonadStateOf.get : EStateM ε σ σ) I := by
  refine fun s hs => ⟨fun a s' heq => ?_, fun e s' heq => (nomatch heq)⟩
  cases heq
  exact ⟨hs, hs⟩

theorem modify {f : σ → σ} (h : ∀ s, I s → I (f s)) :
    Meets I E (modify f : EStateM ε σ PUnit) fun _ => True := by
  refine fun s hs => ⟨fun a s' heq => ?_, fun e s' heq => (nomatch heq)⟩
  cases heq
  exact ⟨h s hs, trivial⟩

end Meets

end EStateM

namespace Except

variable {ε α β : Type}

theorem bind_eq_ok_iff {x : Except ε α} {f : α → Except ε β} {b : β} :
    (x >>= f) = .ok b ↔ ∃ a, x = .ok a ∧ f a = .ok b := by
  cases x with
  | ok a =>
    constructor
    · intro h
      exact ⟨a, rfl, h⟩
    · rintro ⟨a', heq, h⟩
      cases heq
      exact h
  | error e =>
    constructor
    · intro h
      cases h
    · rintro ⟨a', heq, _⟩
      cases heq

theorem eq_ok_of_toOption {x : Except ε α} {a : α} (h : x.toOption = some a) : x = .ok a := by
  cases x with
  | ok b => exact congrArg Except.ok (Option.some.inj h)
  | error e => cases h

end Except
