import SsaIr.Proofs.Arrays
import SsaIr.Proofs.Computation
import SsaIr.Proofs.Machine.Values
import SsaIr.Proofs.Verify.Module

/-!
# What computations on the store keep

Loading, storing and allocating keep the addresses of functions in order and stop only in ways that
verified code tolerates. The addresses of functions and globals meet `functionAddress_meets` and
`globalAddress_meets`.
-/

namespace SsaIr

variable {e : Stop} {v : RuntimeValue}

open EStateM (Meets)

theorem Access.ofExcept_meets {α : Type} {I : Store → Prop} {E : Stop → Prop} {Q : α → Prop}
    {r : Except Stop α} (hok : ∀ a, r = .ok a → Q a) (herror : ∀ e, r = .error e → E e) :
    Meets I E (Access.ofExcept r) Q := by
  cases r with
  | ok a => exact .pure (hok a rfl)
  | error e => exact .throw (herror e rfl)

/-! ## Faults that verified code does not raise -/

/-- The fault says that a value or a place was missing, or that an instruction makes no sense. -/
def FaultCause.IsStuck : FaultCause → Prop
  | .notComputed _ | .phiWithoutValue .. | .openBlock _ | .notExecutable _ | .badCast .. => True
  | _ => False

/-- The stop is no fault of a store of the wrong kind and, under a condition, none of being
stuck. -/
def Stop.Tame (p : Prop) (e : Stop) : Prop :=
  ∀ f, e = .failure (.fault f) → (∀ k t, f.cause ≠ .storeKind k t) ∧ (p → ¬ f.cause.IsStuck)

namespace Stop

variable {p : Prop}

theorem tame_of_ne (h : ∀ f, e ≠ .failure (.fault f)) : e.Tame p :=
  fun f hf => absurd hf (h f)

theorem tame_raise {cause : FaultCause} (hstore : ∀ k t, cause ≠ .storeKind k t)
    (hstuck : ¬ cause.IsStuck) : Stop.Tame p (.failure (.raise cause)) := by
  intro f hf
  cases hf
  exact ⟨hstore, fun _ => hstuck⟩

theorem tame_breakdown (b : Breakdown) : Stop.Tame p (.breakdown b) := tame_of_ne nofun

theorem tame_memory (e : MemoryError) : Stop.Tame p (.failure (.memory e)) := tame_of_ne nofun

theorem tame_ofAddress (e : MemoryError) : (Stop.ofAddress e).Tame p := by
  unfold ofAddress
  split
  · exact tame_breakdown _
  · exact tame_raise nofun id

theorem tame_ofAllocation (e : MemoryError) : (Stop.ofAllocation e).Tame p := by
  unfold ofAllocation
  split
  · exact tame_breakdown _
  · exact tame_memory _

end Stop

/-! ## Loads and stores -/

theorem bigEndian_append (bytes : List UInt8) (b : UInt8) :
    bigEndian (bytes ++ [b]) = bigEndian bytes <<< 8 ||| b.toUInt64 := by
  rw [bigEndian, List.foldl_append]
  rfl

theorem bigEndian_lt (bytes : List UInt8) : (bigEndian bytes).toNat < 2 ^ (8 * bytes.length) := by
  induction bytes using List.reverseRecOn with
  | nil => decide
  | append_singleton bytes b ih =>
    have hshift : (bigEndian bytes <<< 8).toNat < 2 ^ (8 * bytes.length + 8) := by
      rw [UInt64.toNat_shiftLeft, Nat.pow_add]
      refine (Nat.mod_le _ _).trans_lt ?_
      rw [show (8 : UInt64).toNat % 64 = 8 from rfl, Nat.shiftLeft_eq]
      omega
    have hlow : b.toUInt64.toNat < 2 ^ (8 * bytes.length + 8) := by
      rw [UInt8.toNat_toUInt64]
      exact b.toNat_lt.trans_le (Nat.pow_le_pow_right (by decide) (by omega))
    rw [bigEndian_append, UInt64.toNat_or, List.length_append]
    exact Nat.or_lt_two_pow hshift hlow

theorem decodeBytes_lt (little : Bool) (bytes : List UInt8) :
    (decodeBytes little bytes).toNat < 2 ^ (8 * bytes.length) := by
  cases little with
  | true => simpa [decodeBytes] using bigEndian_lt bytes.reverse
  | false => exact bigEndian_lt bytes

theorem DataLayout.f32_size (d : DataLayout) : d.spec.f32.size = 4 := by
  by_contra hsize
  obtain ⟨-, -, hfloats⟩ := Except.bind_eq_ok_iff.mp d.admissible
  rw [if_pos (by simp [hsize])] at hfloats
  cases hfloats

namespace Space

variable {s s' : Space} {d : DataLayout} {address : UInt64} {t : Ty} {p : Prop}

section

variable (s : Space) (d : DataLayout) (address : UInt64) (t : Ty)

theorem load_eq : s.load d address t =
      if RuntimeKind.ofType t = .undef then .error (.failure (.raise (.loadAggregate t)))
      else match d.sizeOf t with
        | .error b => .error (.breakdown b)
        | .ok size =>
          match s.read address size with
          | .error e => .error (.ofAddress e)
          | .ok bytes =>
            .ok ((RuntimeKind.ofType t).decode (decodeBytes d.littleEndian bytes)) := by
  unfold load
  dsimp only
  split
  · rfl
  · cases d.sizeOf t with
    | error b => rfl
    | ok size =>
      cases hread : s.read address size
        with show ((s.read address size).mapError Stop.ofAddress >>= _) = _
      | error e =>
        simp only [hread]
        rfl
      | ok bytes =>
        simp only [hread]
        rfl

theorem store_eq (v : RuntimeValue) :
    s.store d address t v =
      if RuntimeKind.ofType t = .undef then .error (.failure (.raise (.storeAggregate t)))
      else if !v.isUndef && v.kind ≠ .ofType t then
        .error (.failure (.raise (.storeKind v.kind t)))
      else match d.sizeOf t with
        | .error b => .error (.breakdown b)
        | .ok size =>
          (s.write address (encodeBytes d.littleEndian size.toInt.toNat v.bits)).mapError
            .ofAddress := by
  unfold store
  dsimp only
  split
  · rfl
  · split
    · rfl
    · cases d.sizeOf t <;> rfl

end

theorem length_read {length : Int64} {bytes : List UInt8}
    (h : s.read address length = .ok bytes) : bytes.length = length.toInt.toNat := by
  obtain ⟨⟨c, offset⟩, -, heq⟩ := Except.bind_eq_ok_iff.mp h
  cases heq
  rw [Chunk.read, List.length_map, List.length_range]

/-- Single precision is read from four bytes, so that its payload takes 32 bits. -/
theorem load_ok (h : s.load d address t = .ok v) : v.kind = .ofType t ∧ v.Canonical := by
  rw [load_eq] at h
  split at h
  · cases h
  · next hkind =>
    split at h
    · cases h
    · next size hsize =>
      split at h
      · cases h
      · next bytes hbytes =>
        cases h
        refine ⟨RuntimeKind.kind_decode _ _, RuntimeKind.canonical_decode hkind fun ht => ?_⟩
        obtain rfl : t = .float .f32 := by cases t <;> cases ht; rfl
        have hfour : size = 4 := (Except.ok.inj hsize).symm.trans d.f32_size
        have hlength := length_read hbytes
        rw [hfour] at hlength
        have hlt := decodeBytes_lt d.littleEndian bytes
        rwa [hlength] at hlt

theorem load_tame (h : s.load d address t = .error e) : e.Tame p := by
  rw [load_eq] at h
  split at h
  · cases h
    exact Stop.tame_raise nofun id
  · split at h
    · cases h
      exact Stop.tame_breakdown _
    · split at h
      · cases h
        exact Stop.tame_ofAddress _
      · cases h

theorem store_tame (hv : v.Suits t)
    (h : s.store d address t v = .error e) : e.Tame p := by
  have hkind : (!v.isUndef && decide (v.kind ≠ .ofType t)) = false := by
    rcases hv with hv | hv
    · rw [RuntimeValue.isUndef_iff.mpr hv]
      rfl
    · simp [hv]
  rw [store_eq, hkind] at h
  split at h
  · cases h
    exact Stop.tame_raise nofun id
  · rw [if_neg (by decide)] at h
    split at h
    · cases h
      exact Stop.tame_breakdown _
    · cases hwrite : s.write address _ with rw [hwrite] at h
      | error e' =>
        cases h
        exact Stop.tame_ofAddress _
      | ok s' => cases h

end Space

/-! ## Addresses -/

def Store.Names (P : FuncId → Prop) (s : Store) : Prop :=
  ∀ (n : Nat) (f : FuncId), s.functionAt[n]? = some f → P f

theorem Store.Names.congr {P : FuncId → Prop} {s s' : Store} (h : s.Names P)
    (hfunctions : s'.functionAt = s.functionAt) : s'.Names P := by
  intro n f hf
  rw [hfunctions] at hf
  exact h n f hf

namespace Access

variable {P : FuncId → Prop} {p : Prop}

theorem onArena_eq {α : Type} (a : Arena) (x : Allocate α) (s : Store) :
    ∃ r b space, onArena a x s = .ok (r, b) { s with space } := by
  unfold onArena
  dsimp only
  cases x { space := s.space, arena := a } with
  | ok r h => exact ⟨_, _, _, rfl⟩
  | error e h => exact ⟨_, _, _, rfl⟩

theorem onArena_meets {α : Type} {E : Stop → Prop} (a : Arena) (x : Allocate α) :
    Meets (Store.Names P) E (onArena a x) fun _ => True := by
  intro s hs
  obtain ⟨r, b, space, hrun⟩ := onArena_eq a x s
  rw [hrun]
  refine ⟨fun a' s' heq => ?_, fun e s' heq => (nomatch heq)⟩
  cases heq
  exact ⟨hs.congr rfl, trivial⟩

theorem alloc_meets (size align : Int64) :
    Meets (Store.Names P) (Stop.Tame p) (alloc size align) fun _ => True := by
  refine .bind .get fun s _ => .bind (onArena_meets _ _) fun r _ =>
    .bind (.modify fun s hs => hs.congr rfl) fun _ _ => ?_
  split
  · exact .pure trivial
  · split
    · exact .throw (Stop.tame_breakdown _)
    · exact .pure trivial

theorem ofBreakdown_meets {α : Type} {I : Store → Prop} (r : Except Breakdown α) :
    Meets I (Stop.Tame p) (ofExcept (r.mapError .breakdown)) fun _ => True := by
  cases r with
  | ok a => exact .pure trivial
  | error b => exact .throw (Stop.tame_breakdown b)

theorem store_meets {d : DataLayout} {address : UInt64} {t : Ty} (hv : v.Suits t) :
    Meets (Store.Names P) (Stop.Tame p) (store d address t v) fun _ => True := by
  refine .bind .get fun s _ => .bind (ofExcept_meets (fun _ _ => trivial) fun e he => ?_)
    fun space _ =>
    .modify fun s hs => hs.congr rfl
  exact Space.store_tame hv he

theorem functionAddress_meets {f : FuncId} (hf : P f) :
    Meets (Store.Names P) (Stop.Tame p) (functionAddress f) fun _ => True := by
  refine .bind .get fun s _ => ?_
  split
  · exact .pure trivial
  · refine .bind (alloc_meets _ _) fun r _ => ?_
    split
    · exact .throw (Stop.tame_memory _)
    · refine .bind (.modify fun s hs n g hg => ?_) fun _ _ => .pure trivial
      rw [Std.TreeMap.getElem?_insert] at hg
      split at hg
      · cases hg
        exact hf
      · exact hs n g hg

theorem functionAtAddress_meets (address : UInt64) :
    Meets (Store.Names P) (Stop.Tame p) (functionAtAddress address) P := by
  refine .bind .get fun s hs => ?_
  split
  · rename_i f hf
    exact .pure (hs _ f hf)
  · exact .throw (Stop.tame_raise (by simp) id)

theorem globalAddress_meets {c : Context} {d : DataLayout} {Q : GlobalId → Prop}
    (hfunc : ∀ {g f}, Q g → (c.global g).init = some (.func f) → P f)
    (hglobal : ∀ {g h}, Q g → (c.global g).init = some (.global h) → Q h)
    (htype : ∀ {g v}, Q g → (c.global g).init = some v → c.typeOf v = some (c.global g).allocated)
    (n : Nat) {g : GlobalId} (hg : Q g) :
    Meets (Store.Names P) (Stop.Tame p) (globalAddress c d n g) fun _ => True := by
  induction n generalizing g with
  | zero => exact .throw (Stop.tame_breakdown _)
  | succ n ih =>
    refine .bind .get fun s _ => ?_
    split
    · exact .pure trivial
    refine .bind (ofBreakdown_meets _) fun e _ => .bind (alloc_meets _ _) fun r _ => ?_
    split
    · exact .throw (Stop.tame_of_ne nofun)
    · refine .bind (.modify fun s hs => hs.congr rfl) fun _ _ => ?_
      split
      · exact .pure trivial
      · -- An address that is stored comes for a pointer type, since the initializer has the type
        -- of the cell.
        have hptr : ∀ (a : UInt64) (t : Ty), c.typeOf? (c.global g).init = some (.pointer t) →
            (RuntimeValue.ptr a).Suits (c.global g).allocated := by
          intro a t ht
          obtain ⟨v, hv, hvt⟩ := Option.bind_eq_some_iff.mp ht
          rw [Option.some.inj ((htype hg hv).symm.trans hvt)]
          exact .inr rfl
        split
        · exact .pure trivial
        · rename_i k hk
          refine .bind (store_meets ?_) fun _ _ => .pure trivial
          rw [← Option.some.inj (htype hg hk)]
          exact (RuntimeValue.ofConst_ok k).1
        · rename_i f hf
          refine .bind (functionAddress_meets (hfunc hg hf)) fun a _ =>
            .bind (store_meets ?_) fun _ _ => .pure trivial
          have ht := htype hg hf
          obtain ⟨sig, -, hsig⟩ := Option.map_eq_some_iff.mp ht
          exact hptr a sig (by rw [hf]; exact ht.trans (congrArg some hsig.symm))
        · rename_i h hh
          refine .bind (ih (hglobal hg hh)) fun a _ =>
            .bind (store_meets (hptr a (c.global h).allocated (by rw [hh]; rfl))) fun _ _ =>
              .pure trivial
        · exact .bind (store_meets (RuntimeValue.suits_undef _)) fun _ _ => .pure trivial

end Access

end SsaIr
