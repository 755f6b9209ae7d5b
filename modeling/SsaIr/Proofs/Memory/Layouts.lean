import SsaIr.Machine.Store
import SsaIr.Proofs.Memory.Alignment

/-!
# Types as ranges of bytes

`DataLayout.span` is the size and alignment of a type over the natural numbers, where nothing wraps,
and the words of the layout are these numbers as words (`DataLayout.extent_eq`). A path of indices
leads from a type to a part of it; `DataLayout.partOffset` is where the part starts. Read
`part_within` and `part_apart` first: parts lie within the whole, and parts of which neither
contains the other do not meet.
-/

namespace SsaIr

open LayoutSpec List

/-! ## Rounding up -/

def roundUp (n a : Nat) : Nat := (n + a - 1) / a * a

theorem dvd_roundUp (n a : Nat) : a ∣ roundUp n a := Dvd.intro_left _ rfl

theorem le_roundUp (n : Nat) {a : Nat} (h : 0 < a) : n ≤ roundUp n a := by
  have hdiv := Nat.div_add_mod (n + a - 1) a
  have hmod := Nat.mod_lt (n + a - 1) h
  rw [Nat.mul_comm] at hdiv
  unfold roundUp
  omega

/-- A number that is a power of two and fits into a signed word. -/
def IsAlignment (a : Nat) : Prop := ∃ k < 63, a = 2 ^ k

namespace IsAlignment

variable {a b : Nat}

theorem pos (h : IsAlignment a) : 0 < a := by
  obtain ⟨k, -, rfl⟩ := h
  positivity

theorem lt (h : IsAlignment a) : a < 2 ^ 63 := by
  obtain ⟨k, hk, rfl⟩ := h
  exact Nat.pow_lt_pow_right (by decide) hk

theorem max (ha : IsAlignment a) (hb : IsAlignment b) : IsAlignment (max a b) := by
  rcases le_total a b with hle | hle
  · rwa [max_eq_right hle]
  · rwa [max_eq_left hle]

theorem of_isPowerOfTwo {n : Int64} (h : isPowerOfTwo n = true) : IsAlignment n.toInt.toNat := by
  obtain ⟨k, hk, hn⟩ := exists_pow_of_isPowerOfTwo h
  exact ⟨k, hk, by rw [hn]; rfl⟩

end IsAlignment

theorem ofNat_toInt_toNat {n : Int64} (h : 0 ≤ n.toInt) : Int64.ofNat n.toInt.toNat = n := by
  rw [← Int64.ofInt_eq_ofNat, Int.toNat_of_nonneg h, Int64.ofInt_toInt]

theorem toInt_ofNat_of_lt {n : Nat} (h : n < 2 ^ 63) : (Int64.ofNat n).toInt = n :=
  Int64.toInt_ofNat_of_lt h

theorem max_ofNat {a b : Nat} (ha : a < 2 ^ 63) (hb : b < 2 ^ 63) :
    max (Int64.ofNat a) (Int64.ofNat b) = Int64.ofNat (max a b) := by
  refine Int64.toInt_inj.mp ?_
  rw [toInt_max, toInt_ofNat_of_lt ha, toInt_ofNat_of_lt hb, toInt_ofNat_of_lt (max_lt ha hb)]
  push_cast
  rfl

theorem alignUp_ofNat (n : Nat) {a : Nat} (h : IsAlignment a) :
    alignUp (.ofNat n) (.ofNat a) = .ofNat (roundUp n a) := by
  obtain ⟨k, hk, rfl⟩ := h
  have hpos : 0 < 2 ^ k := by positivity
  have hlt : 2 ^ k < 2 ^ 63 := Nat.pow_lt_pow_right (by decide) hk
  have hsum : Int64.ofNat n + Int64.ofNat (2 ^ k) - 1 = Int64.ofNat (n + 2 ^ k - 1) := by
    rw [← Int64.ofNat_add]
    exact (Int64.ofNat_sub _ 1 (by omega)).symm
  have hmask : Int64.ofNat (2 ^ k) - 1 = Int64.ofNat (2 ^ k - 1) :=
    (Int64.ofNat_sub _ 1 hpos).symm
  have hsplit : (2 : Nat) ^ 64 = 2 ^ k * 2 ^ (64 - k) := by
    rw [← pow_add]
    congr 1
    omega
  refine Int64.toBitVec_inj.mp (BitVec.eq_of_toNat_eq ?_)
  have hnot : (~~~BitVec.ofNat 64 (2 ^ k - 1)).toNat = 2 ^ 64 - 1 - (2 ^ k - 1) := by
    rw [BitVec.toNat_not, BitVec.toNat_ofNat, Nat.mod_eq_of_lt (by omega)]
  calc (alignUp (.ofNat n) (.ofNat (2 ^ k))).toBitVec.toNat
      = (n + 2 ^ k - 1) % 2 ^ 64 &&& (2 ^ 64 - 1 - (2 ^ k - 1)) := by
        rw [alignUp, hsum, hmask]
        exact congrArg₂ _ (BitVec.toNat_ofNat _ _) hnot
    _ = (n + 2 ^ k - 1) % 2 ^ 64 / 2 ^ k * 2 ^ k :=
      and_not_mask (Nat.mod_lt _ (by decide)) (by omega)
    _ = roundUp n (2 ^ k) % 2 ^ 64 := by
        rw [roundUp, hsplit, Nat.mod_mul_right_div_self, Nat.mul_comm (2 ^ k),
          Nat.mul_mod_mul_right]
    _ = (Int64.ofNat (roundUp n (2 ^ k))).toBitVec.toNat := (BitVec.toNat_ofNat _ _).symm

/-! ## What an admissible target promises -/

/-- The size is between a least one and eight bytes, and the alignment is a power of two. -/
structure Extent.Fits (e : Extent) (least : Int64) : Prop where
  least_le : least.toInt ≤ e.size.toInt
  le_eight : e.size.toInt ≤ 8
  aligned : isPowerOfTwo e.align = true

theorem LayoutSpec.checkScalars_ok {l : List (String × Extent × Int64)}
    (h : checkScalars l = .ok ()) :
    ∀ x ∈ l, x.2.1.Fits x.2.2 := by
  induction l with
  | nil => simp
  | cons x l ih =>
    unfold checkScalars at h
    split at h
    · cases h
    · rename_i hsize
      split at h
      · cases h
      · rename_i halign
        refine forall_mem_cons.mpr ⟨?_, ih h⟩
        simp only [Bool.or_eq_true, decide_eq_true_eq, not_or, Int64.not_lt] at hsize
        exact ⟨Int64.le_iff_toInt_le.mp hsize.1, Int64.le_iff_toInt_le.mp hsize.2,
          by simpa using halign⟩

theorem LayoutSpec.check_ok {s : LayoutSpec} (h : s.check = .ok ()) :
    checkScalars s.scalars = .ok () ∧
    (s.aggregateAlign = 0 ∨ isPowerOfTwo s.aggregateAlign = true) := by
  unfold check at h
  cases hscalars : checkScalars s.scalars with
  | error e =>
    rw [hscalars] at h
    cases h
  | ok =>
    refine ⟨rfl, ?_⟩
    by_contra hne
    push Not at hne
    rw [hscalars] at h
    simp only [bind, Except.bind, throw, throwThe, MonadExceptOf.throw, hne.2] at h
    split at h <;> simp [hne.1] at h

/-! ## Sizes and alignments as numbers -/

structure Span where
  size : Nat
  align : Nat
deriving DecidableEq, Repr

def Extent.span (e : Extent) : Span := ⟨e.size.toInt.toNat, e.align.toInt.toNat⟩

def Span.extent (s : Span) : Extent := ⟨.ofNat s.size, .ofNat s.align⟩

namespace Ty

mutual
/-- All of the type occupies memory: no element and no member, however deep, is without size. -/
def isSolid : Ty → Bool
  | .void | .label | .function .. => false
  | .int _ | .float _ | .pointer _ => true
  | .array _ t => t.isSolid
  | .struct ms | .named _ ms => allSolid ms

def allSolid : List Ty → Bool
  | [] => true
  | t :: ts => t.isSolid && allSolid ts
end

theorem allSolid_iff {ts : List Ty} : allSolid ts = true ↔ ∀ t ∈ ts, t.isSolid = true := by
  induction ts with
  | nil => simp [allSolid]
  | cons t ts ih => simp [allSolid, ih]

end Ty

namespace Extent

variable {e : Extent} {least : Int64}

theorem Fits.align_span (h : e.Fits least) : IsAlignment e.span.align := .of_isPowerOfTwo h.aligned

theorem Fits.extent_span (h : e.Fits least) (hleast : 0 ≤ least.toInt) : e.span.extent = e := by
  obtain ⟨k, -, hk⟩ := exists_pow_of_isPowerOfTwo h.aligned
  have hsize := ofNat_toInt_toNat (hleast.trans h.least_le)
  have halign := ofNat_toInt_toNat (n := e.align) (by rw [hk]; positivity)
  rw [Span.extent, Extent.span, hsize, halign]

end Extent

namespace DataLayout

variable (d : DataLayout)

theorem scalars_fit : ∀ x ∈ d.spec.scalars, x.2.1.Fits x.2.2 :=
  checkScalars_ok (check_ok d.admissible).1

theorem intExtent_fits (w : IntWidth) : (d.intExtent w).Fits (.ofNat ((w.bits + 7) / 8)) := by
  cases w with
  | w1 => exact d.scalars_fit ("i1", _, 1) (by simp [scalars])
  | w8 => exact d.scalars_fit ("i8", _, 1) (by simp [scalars])
  | w16 => exact d.scalars_fit ("i16", _, 2) (by simp [scalars])
  | w32 => exact d.scalars_fit ("i32", _, 4) (by simp [scalars])
  | w64 => exact d.scalars_fit ("i64", _, 8) (by simp [scalars])

theorem floatExtent_fits (w : FloatWidth) : (d.floatExtent w).Fits (.ofNat (w.bits / 8)) := by
  cases w with
  | f32 => exact d.scalars_fit ("f32", _, 4) (by simp [scalars])
  | f64 => exact d.scalars_fit ("f64", _, 8) (by simp [scalars])

theorem ptr_fits : d.spec.ptr.Fits 1 :=
  d.scalars_fit ("ptr", _, 1) (by simp [scalars])

theorem aggregateAlign_span : d.spec.aggregateAlign.toInt.toNat = 0 ∨
    IsAlignment d.spec.aggregateAlign.toInt.toNat := by
  rcases (check_ok d.admissible).2 with h | h
  · exact .inl (by rw [h]; rfl)
  · exact .inr (.of_isPowerOfTwo h)

mutual
/-- Size and alignment of a type, without wrapping around. -/
def span : Ty → Span
  | .int w => (d.intExtent w).span
  | .float w => (d.floatExtent w).span
  | .pointer _ => d.spec.ptr.span
  | .array n t => ⟨(span t).size * n, (span t).align⟩
  | .struct ms | .named _ ms => spanFrom 0 1 ms
  | .void | .label | .function .. => ⟨0, 1⟩

/-- The span of a struct whose first members end at `last`, followed by the given ones. -/
def spanFrom (last align : Nat) : List Ty → Span
  | [] =>
    let align := max align d.spec.aggregateAlign.toInt.toNat
    ⟨roundUp last align, align⟩
  | t :: ts =>
    spanFrom (roundUp last (span t).align + (span t).size) (max align (span t).align) ts
end

/-- Where the members start that follow those which end at `last`. -/
def offsets (last : Nat) : List Ty → List Nat
  | [] => []
  | t :: ts =>
    let offset := roundUp last (d.span t).align
    offset :: offsets (offset + (d.span t).size) ts

variable {d}

theorem isAlignment_close {align : Nat} (h : IsAlignment align) :
    IsAlignment (max align d.spec.aggregateAlign.toInt.toNat) := by
  rcases d.aggregateAlign_span with hzero | halign
  · rwa [hzero, Nat.max_zero]
  · exact h.max halign

theorem isAlignment_one : IsAlignment 1 := ⟨0, by decide, rfl⟩

mutual
theorem isAlignment_span : (t : Ty) → IsAlignment (d.span t).align
  | .int w => by
      rw [span]
      exact (d.intExtent_fits w).align_span
  | .float w => by
      rw [span]
      exact (d.floatExtent_fits w).align_span
  | .pointer _ => by
      rw [span]
      exact d.ptr_fits.align_span
  | .array n t => by
      rw [span]
      exact isAlignment_span t
  | .struct ms | .named _ ms => by
      rw [span]
      exact isAlignment_spanFrom 0 isAlignment_one ms
  | .void | .label | .function .. => by
      rw [span]
      exact isAlignment_one

theorem isAlignment_spanFrom (last : Nat) {align : Nat} (h : IsAlignment align) :
    (ts : List Ty) → IsAlignment (d.spanFrom last align ts).align
  | [] => isAlignment_close h
  | t :: ts => by
      rw [spanFrom]
      exact isAlignment_spanFrom _ (h.max (isAlignment_span t)) ts
end

theorem closeStruct_ofNat (offsets : List Int64) (last : Nat) {align : Nat}
    (h : IsAlignment align) :
    d.closeStruct offsets (.ofNat last) (.ofNat align) =
      { offsets, size := .ofNat (d.spanFrom last align []).size,
        align := .ofNat (d.spanFrom last align []).align } := by
  have hnonneg : 0 ≤ d.spec.aggregateAlign.toInt := by
    rcases (check_ok d.admissible).2 with h | h
    · rw [h]
      rfl
    · obtain ⟨k, -, hk⟩ := exists_pow_of_isPowerOfTwo h
      rw [hk]
      positivity
  have hmax : max (Int64.ofNat align) d.spec.aggregateAlign =
      .ofNat (max align d.spec.aggregateAlign.toInt.toNat) := by
    rw [← max_ofNat h.lt ((le_max_right _ _).trans_lt (isAlignment_close h).lt),
      ofNat_toInt_toNat hnonneg]
  rw [closeStruct, hmax, alignUp_ofNat _ (isAlignment_close h), spanFrom]

mutual
theorem extent_eq : (t : Ty) → t.isSolid = true → d.extent t = .ok (d.span t).extent
  | .int w, _ => by
      rw [extent, span, (d.intExtent_fits w).extent_span (by cases w <;> decide)]
  | .float w, _ => by
      rw [extent, span, (d.floatExtent_fits w).extent_span (by cases w <;> decide)]
  | .pointer _, _ => by rw [extent, span, d.ptr_fits.extent_span (by decide)]
  | .array n t, h => by
      have ih := extent_eq t (by rwa [Ty.isSolid] at h)
      rw [extent, ih, span]
      exact congrArg (fun size => Except.ok (Extent.mk size _)) (Int64.ofNat_mul _ _).symm
  | .struct ms, h | .named _ ms, h => by
      have ih := place_eq ms (by rwa [Ty.isSolid] at h) [] 0 isAlignment_one
      rw [extent, span]
      exact congrArg (fun l => l >>= _) ih

theorem place_eq : (ts : List Ty) → Ty.allSolid ts = true → (before : List Int64) → (last : Nat) →
    {align : Nat} → IsAlignment align →
    d.place before (.ofNat last) (.ofNat align) ts = .ok
      { offsets := before.reverse ++ (d.offsets last ts).map .ofNat
        size := .ofNat (d.spanFrom last align ts).size
        align := .ofNat (d.spanFrom last align ts).align }
  | [], _, before, last, _, ha => by
      rw [place, closeStruct_ofNat _ last ha, offsets, map_nil, append_nil]
  | t :: ts, h, before, last, align, ha => by
      rw [Ty.allSolid, Bool.and_eq_true] at h
      have halign := isAlignment_span (d := d) t
      have ih := place_eq ts h.2 (.ofNat (roundUp last (d.span t).align) :: before)
        (roundUp last (d.span t).align + (d.span t).size) (ha.max halign)
      rw [place, extent_eq t h.1, spanFrom, offsets]
      show d.place (alignUp (.ofNat last) (.ofNat (d.span t).align) :: before)
        (alignUp (.ofNat last) (.ofNat (d.span t).align) + .ofNat (d.span t).size)
        (max (.ofNat align) (.ofNat (d.span t).align)) ts = _
      rw [alignUp_ofNat _ halign, max_ofNat ha.lt halign.lt, ← Int64.ofNat_add, ih]
      simp
end

/-! ## The members of a struct -/

/-- Two ranges of bytes, given by start and length, do not meet. -/
def Apart (a m b n : Nat) : Prop := a + m ≤ b ∨ b + n ≤ a

section Members

variable {last align i : Nat} {ts : List Ty} {t : Ty}

theorem le_spanFrom (last align : Nat) (ha : IsAlignment align) (ts : List Ty) :
    last ≤ (d.spanFrom last align ts).size := by
  induction ts generalizing last align with
  | nil => exact le_roundUp last (isAlignment_close ha).pos
  | cons t ts ih =>
    have hround := le_roundUp last (isAlignment_span (d := d) t).pos
    exact hround.trans (le_self_add.trans (ih _ _ (ha.max (isAlignment_span t))))

theorem dvd_spanFrom (last align : Nat) (ts : List Ty) :
    (d.spanFrom last align ts).align ∣ (d.spanFrom last align ts).size := by
  induction ts generalizing last align with
  | nil => exact dvd_roundUp _ _
  | cons t ts ih =>
    exact ih _ _

@[simp]
theorem length_offsets (last : Nat) (ts : List Ty) : (d.offsets last ts).length = ts.length := by
  induction ts generalizing last with
  | nil => rfl
  | cons t ts ih => exact congrArg (· + 1) (ih _)

theorem le_of_mem_offsets {offset : Nat} (h : offset ∈ d.offsets last ts) : last ≤ offset := by
  induction ts generalizing last with
  | nil => cases h
  | cons t ts ih =>
    have hround := le_roundUp last (isAlignment_span (d := d) t).pos
    rcases mem_cons.mp h with rfl | h
    · exact hround
    · have := ih h
      omega

theorem offsets_spec (ha : IsAlignment align) {offset : Nat} (ht : ts[i]? = some t)
    (ho : (d.offsets last ts)[i]? = some offset) :
    (d.span t).align ∣ offset ∧ offset + (d.span t).size ≤ (d.spanFrom last align ts).size := by
  induction ts generalizing last align i with
  | nil => cases ht
  | cons u us ih =>
    cases i with
    | zero =>
      cases ht
      cases ho
      exact ⟨dvd_roundUp _ _, le_spanFrom _ _ (ha.max (isAlignment_span _)) us⟩
    | succ i => exact ih (ha.max (isAlignment_span u)) ht ho

theorem offsets_apart {j a b : Nat} (hij : i < j) (ht : ts[i]? = some t)
    (ha : (d.offsets last ts)[i]? = some a) (hb : (d.offsets last ts)[j]? = some b) :
    a + (d.span t).size ≤ b := by
  induction ts generalizing last i j with
  | nil => cases ht
  | cons u us ih =>
    obtain ⟨j, rfl⟩ := Nat.exists_eq_add_of_lt (Nat.zero_lt_of_lt hij)
    cases i with
    | zero =>
      cases ht
      cases ha
      exact le_of_mem_offsets (mem_of_getElem? hb)
    | succ i => exact ih (by omega) ht ha hb

end Members

/-! ## The parts of a type -/

end DataLayout

/-- The element or member that an index selects, if it is in range. -/
def Ty.child? : Ty → Int64 → Option Ty
  | .array n t, i => if 0 ≤ i.toInt ∧ i.toInt < n then some t else none
  | .struct ms, i | .named _ ms, i => if 0 ≤ i.toInt then ms[i.toInt.toNat]? else none
  | _, _ => none

def Ty.part? (t : Ty) : List Int64 → Option Ty
  | [] => some t
  | i :: path =>
    match t.child? i with
    | some u => u.part? path
    | none => none

namespace DataLayout

/-- Where the element or member that an index selects starts. -/
def childOffset (d : DataLayout) : Ty → Int64 → Nat
  | .array _ t, i => i.toInt.toNat * (d.span t).size
  | .struct ms, i | .named _ ms, i => (d.offsets 0 ms).getD i.toInt.toNat 0
  | _, _ => 0

def partOffset (d : DataLayout) (t : Ty) : List Int64 → Nat
  | [] => 0
  | i :: path =>
    match t.child? i with
    | some u => d.childOffset t i + d.partOffset u path
    | none => 0

variable {d : DataLayout} {t u v : Ty} {i j : Int64} {p q : List Int64}

theorem child_cases (d : DataLayout) (h : t.child? i = some u) : 0 ≤ i.toInt ∧
      ((∃ n : Nat, t = .array n u ∧ i.toInt < n) ∨
        t.isStruct = true ∧ t.members[i.toInt.toNat]? = some u ∧
          (d.offsets 0 t.members)[i.toInt.toNat]? = some (d.childOffset t i) ∧
          d.span t = d.spanFrom 0 1 t.members) := by
  have hmember (ms : List Ty) (hms : (if 0 ≤ i.toInt then ms[i.toInt.toNat]? else none) = some u) :
      0 ≤ i.toInt ∧ ms[i.toInt.toNat]? = some u ∧
        (d.offsets 0 ms)[i.toInt.toNat]? = some ((d.offsets 0 ms).getD i.toInt.toNat 0) := by
    obtain ⟨hi, hms⟩ := Option.ite_none_right_eq_some.mp hms
    obtain ⟨hlt, -⟩ := List.getElem?_eq_some_iff.mp hms
    refine ⟨hi, hms, ?_⟩
    rw [getD_eq_getElem?_getD, List.getElem?_eq_getElem (by simpa using hlt)]
    rfl
  cases t with
  | array n t =>
    obtain ⟨⟨hi, hlt⟩, heq⟩ := Option.ite_none_right_eq_some.mp h
    cases heq
    exact ⟨hi, .inl ⟨n, rfl, hlt⟩⟩
  | struct ms | named _ ms =>
    obtain ⟨hi, hms, ho⟩ := hmember ms h
    exact ⟨hi, .inr ⟨rfl, hms, ho, by rw [span]; rfl⟩⟩
  | void | int | float | label | pointer | function => cases h

theorem child_within (h : t.child? i = some u) :
    d.childOffset t i + (d.span u).size ≤ (d.span t).size := by
  obtain ⟨hi, ⟨n, rfl, hlt⟩ | ⟨-, hms, ho, hspan⟩⟩ := child_cases d h
  · rw [childOffset, span, ← Nat.succ_mul, Nat.mul_comm _ n]
    exact Nat.mul_le_mul_right _ (by omega)
  · rw [hspan]
    exact (offsets_spec isAlignment_one hms ho).2

theorem child_apart (hi : t.child? i = some u) (hj : t.child? j = some v) (hne : i ≠ j) :
    Apart (d.childOffset t i) (d.span u).size (d.childOffset t j) (d.span v).size := by
  obtain ⟨hi0, hi⟩ := child_cases d hi
  obtain ⟨hj0, hj⟩ := child_cases d hj
  have hne : i.toInt.toNat ≠ j.toInt.toNat := fun h => hne (Int64.toInt_inj.mp (by omega))
  rcases hi with ⟨n, rfl, -⟩ | ⟨hstruct, hu, ha, -⟩ <;>
    rcases hj with ⟨m, heq, -⟩ | ⟨hstruct', hv, hb, -⟩
  · cases heq
    rw [childOffset, childOffset, Apart, ← Nat.succ_mul, ← Nat.succ_mul]
    exact (Nat.lt_or_gt_of_ne hne).imp (Nat.mul_le_mul_right _) (Nat.mul_le_mul_right _)
  · cases hstruct'
  · rw [heq] at hstruct
    cases hstruct
  · exact (Nat.lt_or_gt_of_ne hne).imp (offsets_apart · hu ha hb) (offsets_apart · hv hb ha)

theorem part_cons (h : t.part? (i :: p) = some u) : ∃ s, t.child? i = some s ∧ s.part? p = some u ∧
      d.partOffset t (i :: p) = d.childOffset t i + d.partOffset s p := by
  rw [Ty.part?] at h
  rw [partOffset]
  cases hchild : t.child? i with rw [hchild] at h
  | none => cases h
  | some s => exact ⟨s, rfl, h, rfl⟩

theorem part_within (h : t.part? p = some u) :
    d.partOffset t p + (d.span u).size ≤ (d.span t).size := by
  induction p generalizing t with
  | nil =>
    cases h
    rw [partOffset, Nat.zero_add]
  | cons i p ih =>
    obtain ⟨s, hchild, hpart, hoffset⟩ := part_cons (d := d) h
    have hwithin := child_within (d := d) hchild
    have hrest := ih hpart
    omega

theorem part_apart (hp : t.part? p = some u) (hq : t.part? q = some v) (hpq : ¬p <+: q)
    (hqp : ¬q <+: p) :
    Apart (d.partOffset t p) (d.span u).size (d.partOffset t q) (d.span v).size := by
  induction p generalizing t q with
  | nil => exact absurd nil_prefix hpq
  | cons i p ih =>
    cases q with
    | nil => exact absurd nil_prefix hqp
    | cons j q =>
      obtain ⟨s, hi, hs, hoffset⟩ := part_cons (d := d) hp
      obtain ⟨r, hj, hr, hoffset'⟩ := part_cons (d := d) hq
      unfold Apart at ih ⊢
      -- The paths part here, or go on into one child.
      by_cases hij : i = j
      · subst hij
        rw [cons_prefix_cons, not_and] at hpq hqp
        cases hi.symm.trans hj
        have := ih hs hr (hpq rfl) (hqp rfl)
        omega
      · have hapart := child_apart (d := d) hi hj hij
        have hin := part_within (d := d) hs
        have hin' := part_within (d := d) hr
        unfold Apart at hapart
        omega

section

variable (ht : t.isSolid = true)
include ht

theorem isSolid_child (h : t.child? i = some u) : u.isSolid = true := by
  obtain ⟨-, ⟨n, rfl, -⟩ | ⟨hstruct, hu, -⟩⟩ := child_cases .host h
  · rwa [Ty.isSolid] at ht
  · refine Ty.allSolid_iff.mp ?_ u (mem_of_getElem? hu)
    cases t with
    | struct | named => rwa [Ty.isSolid] at ht
    | void | int | float | label | pointer | array | function => cases hstruct

theorem isSolid_part (h : t.part? p = some u) : u.isSolid = true := by
  induction p generalizing t with
  | nil =>
    cases h
    exact ht
  | cons i p ih =>
    obtain ⟨s, hi, hs, -⟩ := part_cons (d := .host) h
    exact ih (isSolid_child ht hi) hs

theorem structLayout_eq (hstruct : t.isStruct = true) : d.structLayout t = .ok
      { offsets := (d.offsets 0 t.members).map .ofNat, size := .ofNat (d.span t).size,
        align := .ofNat (d.span t).align } := by
  cases t with
  | struct ms | named _ ms =>
    exact place_eq ms ht [] 0 isAlignment_one
  | void | int | float | label | pointer | array | function => cases hstruct

theorem sizeOf_eq : d.sizeOf t = .ok (.ofNat (d.span t).size) := by
  rw [sizeOf, extent_eq t ht]
  rfl

theorem descend_cons (h : t.child? i = some u) {v : RuntimeValue} (hv : v.toInt = i)
    (offset : Int64) (rest : List RuntimeValue) :
    d.descend t offset (v :: rest) = d.descend u (offset + .ofNat (d.childOffset t i)) rest := by
  obtain ⟨hi, ⟨n, rfl, -⟩ | ⟨hstruct, hu, ho, -⟩⟩ := child_cases d h
  · rw [descend, sizeOf_eq (isSolid_child ht h), childOffset, Int64.ofNat_mul,
      ofNat_toInt_toNat hi, ← hv]
    rfl
  · have hlayout := structLayout_eq (d := d) ht hstruct
    have hoffset : ((d.offsets 0 t.members).map Int64.ofNat)[i.toInt.toNat]? =
        some (.ofNat (d.childOffset t i)) := by
      rw [getElem?_map, ho]
      rfl
    cases t with
    | struct ms | named _ ms =>
      have hms : ms[i.toInt.toNat]? = some u := hu
      rw [descend, hlayout, hv]
      simp only [bind, Except.bind, if_pos hi, hms, hoffset]
    | void | int | float | label | pointer | array | function => cases hstruct

theorem descend_eq (h : t.part? p = some u) (offset : Int64) :
    d.descend t offset (p.map (.int .w64)) = .ok (u, offset + .ofNat (d.partOffset t p)) := by
  induction p generalizing t offset with
  | nil =>
    cases h
    exact congrArg (fun o => Except.ok (_, o)) (Int64.add_zero offset).symm
  | cons i p ih =>
    obtain ⟨s, hchild, hpart, hoffset⟩ := part_cons (d := d) h
    rw [map_cons, descend_cons ht hchild rfl, ih (isSolid_child ht hchild) hpart, hoffset,
      Int64.ofNat_add, Int64.add_assoc]

theorem elementAddress_eq (h : t.part? p = some u) (base : RuntimeValue) :
    d.elementAddress t base (.int .w64 0 :: p.map (.int .w64)) =
      .ok (base.toAddress + .ofNat (d.partOffset t p)) := by
  rw [elementAddress, sizeOf_eq ht]
  show (d.descend t ((0 : Int64) * .ofNat (d.span t).size) (p.map (.int .w64)) >>= _) = _
  rw [Int64.zero_mul, descend_eq ht h, Int64.zero_add]
  rfl

end

/-- Members are in order, each at a multiple of its alignment, and so is the end of the struct. -/
structure Orders (d : DataLayout) (ms : List Ty) (l : StructLayout) : Prop where
  sorted : l.offsets.Pairwise (· ≤ ·)
  length_eq : l.offsets.length = ms.length
  member_aligned : ∀ (i : Nat) (m : Ty) (o : Int64), ms[i]? = some m → l.offsets[i]? = some o →
    ∃ e, d.extent m = .ok e ∧ e.align.toInt ∣ o.toInt
  end_aligned : l.align.toInt ∣ l.size.toInt

theorem structLayout_orders (ht : t.isSolid = true) (hsize : (d.span t).size < 2 ^ 63)
    (hstruct : t.isStruct = true) : ∃ l, d.structLayout t = .ok l ∧
      d.extent t = .ok ⟨l.size, l.align⟩ ∧ d.Orders t.members l := by
  obtain ⟨hspan, hsolid⟩ : d.span t = d.spanFrom 0 1 t.members ∧ Ty.allSolid t.members = true := by
    cases t with
    | struct ms | named _ ms => exact ⟨by rw [span]; rfl, by rwa [Ty.isSolid] at ht⟩
    | void | int | float | label | pointer | array | function => cases hstruct
  have hmember {i o : Nat} (ho : (d.offsets 0 t.members)[i]? = some o) :
      ∃ m, t.members[i]? = some m ∧ o < 2 ^ 63 := by
    obtain ⟨hi, -⟩ := List.getElem?_eq_some_iff.mp ho
    have hm := List.getElem?_eq_getElem (by simpa using hi : i < t.members.length)
    have hin := (offsets_spec (d := d) isAlignment_one hm ho).2
    rw [hspan] at hsize
    exact ⟨_, hm, by omega⟩
  refine ⟨_, structLayout_eq ht hstruct, extent_eq t ht, pairwise_map.mpr ?_, by simp, ?_, ?_⟩
  · refine pairwise_iff_getElem.mpr fun i j hi hj hij => Int64.le_iff_toInt_le.mpr ?_
    have ha := List.getElem?_eq_getElem hi
    have hb := List.getElem?_eq_getElem hj
    obtain ⟨m, hm, ha'⟩ := hmember ha
    obtain ⟨-, -, hb'⟩ := hmember hb
    rw [toInt_ofNat_of_lt ha', toInt_ofNat_of_lt hb']
    have := offsets_apart (d := d) hij hm ha hb
    omega
  · intro i m o hm ho
    obtain ⟨n, hn, rfl⟩ := Option.map_eq_some_iff.mp ((getElem?_map ..).symm.trans ho)
    obtain ⟨-, -, hlt⟩ := hmember hn
    refine ⟨_, extent_eq m (Ty.allSolid_iff.mp hsolid m (mem_of_getElem? hm)), ?_⟩
    rw [toInt_ofNat_of_lt hlt, Span.extent, toInt_ofNat_of_lt (isAlignment_span m).lt]
    exact Int.natCast_dvd_natCast.mpr (offsets_spec isAlignment_one hm hn).1
  · rw [toInt_ofNat_of_lt hsize, toInt_ofNat_of_lt (isAlignment_span t).lt, hspan]
    exact Int.natCast_dvd_natCast.mpr (dvd_spanFrom 0 1 _)

/-- The alignment of a type that fits into memory is a power of two, and the members of a struct are
in order and aligned. Every path of indices in range leads to an address within the value, and parts
of which neither contains the other do not overlap. -/
theorem parts_do_not_overlap (d : DataLayout) {t : Ty} (ht : t.isSolid = true)
    (hsize : (d.span t).size < 2 ^ 63) :
    (∃ e, d.extent t = .ok e ∧ e.size.toInt = (d.span t).size ∧ ∃ k : Nat, e.align.toInt = 2 ^ k) ∧
    (t.isStruct = true → ∃ l, d.structLayout t = .ok l ∧ d.extent t = .ok ⟨l.size, l.align⟩ ∧
      d.Orders t.members l) ∧
    (∀ p u, t.part? p = some u → (∃ s, d.sizeOf u = .ok s ∧ s.toInt = (d.span u).size) ∧
      d.partOffset t p + (d.span u).size ≤ (d.span t).size ∧
      ∀ base : RuntimeValue, d.elementAddress t base (.int .w64 0 :: p.map (.int .w64)) =
        .ok (base.toAddress + .ofNat (d.partOffset t p))) ∧
    ∀ p q u v, t.part? p = some u → t.part? q = some v → ¬p <+: q → ¬q <+: p →
      Apart (d.partOffset t p) (d.span u).size (d.partOffset t q) (d.span v).size := by
  obtain ⟨k, -, halign⟩ := isAlignment_span (d := d) t
  have hword : (d.span t).extent.align.toInt = 2 ^ k := by
    rw [Span.extent, toInt_ofNat_of_lt (isAlignment_span t).lt, halign]
    rfl
  refine ⟨⟨_, extent_eq t ht, toInt_ofNat_of_lt hsize, k, hword⟩, structLayout_orders ht hsize, ?_,
    fun p q u v hp hq => part_apart hp hq⟩
  intro p u hp
  have hwithin := part_within (d := d) hp
  exact ⟨⟨_, sizeOf_eq (isSolid_part ht hp), toInt_ofNat_of_lt (by omega)⟩, hwithin,
    elementAddress_eq ht hp⟩

/-- Two fields of an element of an array of padded structs. -/
theorem parts_do_not_overlap_padded :
    let t : Ty := .array 2 (.struct [.int .w8, .array 0 .i64, .named "pair" [.int .w16, .int .w32]])
    (Ty.isSolid t = true ∧ (host.span t).size = 32) ∧
      host.elementAddress t (.ptr 0x10000) [.int .w64 0, .int .w64 1, .int .w64 2, .int .w64 1] =
        .ok 0x1001c ∧
      Apart (host.partOffset t [1, 2, 1]) 4 (host.partOffset t [1, 2, 0]) 2 := by
  have h := parts_do_not_overlap host
    (t := .array 2 (.struct [.int .w8, .array 0 .i64, .named "pair" [.int .w16, .int .w32]]))
    (by decide) (by decide)
  exact ⟨⟨by decide, by decide⟩, (h.2.2.1 [1, 2, 1] (.int .w32) (by decide)).2.2 (.ptr 0x10000),
    h.2.2.2 [1, 2, 1] [1, 2, 0] (.int .w32) (.int .w16) (by decide) (by decide) (by decide)
      (by decide)⟩

end DataLayout

end SsaIr
