import SsaIr.Memory.Space
import SsaIr.Proofs.Memory.Alignment

/-!
# Chunks and the address space

What the operations on a chunk do to its bytes, and when an address range resolves. A chunk is sound
when its marks are in order and the bytes that were never touched are zero; an address space is laid
out when its chunks are sound and apart from each other. Read `Space.Laid` and
`Space.resolve_of_mem` first.
-/

namespace SsaIr

open List

variable {base : UInt64} {d : Chunk}

/-! ## The bytes of a chunk -/

namespace Chunk

variable {c : Chunk}

section

variable (offset : Nat) (bs : List UInt8)

theorem write_eq : ∃ bytes, c.write offset bs = { c with bytes } := by
  induction bs generalizing c offset with
  | nil => exact ⟨c.bytes, rfl⟩
  | cons b bs ih => exact ih (c := { c with bytes := c.bytes.insert offset b }) (offset + 1)

@[simp]
theorem write_base : (c.write offset bs).base = c.base := by
  rw [(c.write_eq offset bs).choose_spec]

@[simp]
theorem write_size : (c.write offset bs).size = c.size := by
  rw [(c.write_eq offset bs).choose_spec]

@[simp]
theorem write_top : (c.write offset bs).top = c.top := by
  rw [(c.write_eq offset bs).choose_spec]

@[simp]
theorem write_untouched : (c.write offset bs).untouched = c.untouched := by
  rw [(c.write_eq offset bs).choose_spec]

end

theorem byte_write_outside {offset j : Nat} {bs : List UInt8}
    (h : j < offset ∨ offset + bs.length ≤ j) :
    (c.write offset bs).byte j = c.byte j := by
  induction bs generalizing c offset with
  | nil => rfl
  | cons b bs ih =>
    rw [length_cons] at h
    rw [write, ih (by omega)]
    have hne : offset ≠ j := by omega
    simp [byte, Std.TreeMap.getD_insert, hne]

theorem clear_eq (offset n : Nat) : ∃ bytes, c.clear offset n = { c with bytes } := by
  induction n generalizing c offset with
  | zero => exact ⟨c.bytes, rfl⟩
  | succ n ih => exact ih (c := { c with bytes := c.bytes.erase offset }) (offset + 1)

theorem byte_clear (offset n j : Nat) :
    (c.clear offset n).byte j = if offset ≤ j ∧ j < offset + n then 0 else c.byte j := by
  induction n generalizing c offset with
  | zero => rw [clear, if_neg (by omega)]
  | succ n ih =>
    rw [clear, ih]
    by_cases hj : offset = j
    · subst hj
      rw [if_neg (by omega), if_pos (by omega)]
      simp [byte]
    · have hbyte : byte { c with bytes := c.bytes.erase offset } j = c.byte j := by
        simp [byte, Std.TreeMap.getD_erase, hj]
      rw [hbyte]
      exact if_congr (by omega) rfl rfl

/-- The marks of a chunk are in order, and its untouched bytes are zero. -/
structure Sound (c : Chunk) : Prop where
  untouched_nonneg : 0 ≤ c.untouched.toInt
  untouched_le : c.untouched.toInt ≤ c.top.toInt
  top_le : c.top.toInt ≤ c.size.toInt
  clean : ∀ j : Nat, (j : Int) < c.untouched.toInt → c.byte j = 0

theorem Sound.top_nonneg (h : c.Sound) : 0 ≤ c.top.toInt := h.untouched_nonneg.trans h.untouched_le

theorem Sound.size_nonneg (h : c.Sound) : 0 ≤ c.size.toInt := h.top_nonneg.trans h.top_le

theorem sound_fresh {size : Int64} (h : 0 ≤ size.toInt) : (fresh base size).Sound where
  untouched_nonneg := h
  untouched_le := le_rfl
  top_le := le_rfl
  clean _ _ := by simp [fresh, byte]

theorem Sound.rewind (h : c.Sound) : c.rewind.Sound where
  untouched_nonneg := h.untouched_nonneg
  untouched_le := h.untouched_le.trans h.top_le
  top_le := le_rfl
  clean := h.clean

theorem Sound.write (h : c.Sound) {offset : Nat} {bs : List UInt8} (hlow : c.top.toInt ≤ offset) :
    (c.write offset bs).Sound := by
  have hclean (j : Nat) (hj : (j : Int) < c.untouched.toInt) : (c.write offset bs).byte j = 0 := by
    have hle := h.untouched_le
    rw [byte_write_outside (.inl (by omega)), h.clean j hj]
  obtain ⟨bytes, heq⟩ := c.write_eq offset bs
  rw [heq] at hclean ⊢
  exact { h with clean := hclean }

section Allocate

variable {offset size : Int64}

@[simp]
theorem allocate_base : (c.allocate offset size).base = c.base := by
  obtain ⟨bytes, heq⟩ := c.clear_eq (max offset c.untouched).toInt.toNat
    (offset + size - max offset c.untouched).toInt.toNat
  simp only [allocate, heq]

@[simp]
theorem allocate_size : (c.allocate offset size).size = c.size := by
  obtain ⟨bytes, heq⟩ := c.clear_eq (max offset c.untouched).toInt.toNat
    (offset + size - max offset c.untouched).toInt.toNat
  simp only [allocate, heq]

@[simp]
theorem allocate_top : (c.allocate offset size).top = offset := rfl

theorem allocate_untouched : (c.allocate offset size).untouched = min c.untouched offset := by
  obtain ⟨bytes, heq⟩ := c.clear_eq (max offset c.untouched).toInt.toNat
    (offset + size - max offset c.untouched).toInt.toNat
  simp only [allocate, heq]

section

variable (h : c.Sound) (hoffset : 0 ≤ offset.toInt) (hsize : 0 ≤ size.toInt)
  (hend : offset.toInt + size.toInt ≤ c.top.toInt)
include h hoffset hsize hend

/-- Allocation makes its range zero and leaves the other bytes alone. The bytes that were never
touched are not cleared, being zero. -/
theorem Sound.byte_allocate (j : Nat) :
    (c.allocate offset size).byte j =
      if offset.toInt ≤ j ∧ (j : Int) < offset.toInt + size.toInt then 0 else c.byte j := by
  have htop := c.top.toInt_lt
  have hle := h.untouched_le
  have hmax := toInt_max offset c.untouched
  have hsum : (offset + size).toInt = offset.toInt + size.toInt :=
    toInt_add_of_bounds (by omega) (by omega)
  have hrest : (offset + size - max offset c.untouched).toInt =
      offset.toInt + size.toInt - max offset.toInt c.untouched.toInt := by
    rw [toInt_sub_of_bounds] <;> omega
  show (c.clear (max offset c.untouched).toInt.toNat
    (offset + size - max offset c.untouched).toInt.toNat).byte j = _
  rw [byte_clear, hrest, hmax]
  have hnonneg := h.untouched_nonneg
  by_cases hlow : (j : Int) < c.untouched.toInt
  · rw [h.clean j hlow, ite_self, ite_self]
  · exact if_congr (by omega) rfl rfl

theorem Sound.allocate : (c.allocate offset size).Sound where
  untouched_nonneg := by
    rw [allocate_untouched, toInt_min]
    exact le_min h.untouched_nonneg hoffset
  untouched_le := by
    rw [allocate_untouched, toInt_min]
    exact min_le_right _ _
  top_le := by
    have := h.top_le
    rw [allocate_top, allocate_size]
    omega
  clean j hj := by
    rw [allocate_untouched, toInt_min] at hj
    rw [h.byte_allocate hoffset hsize hend, h.clean j (hj.trans_le (min_le_left _ _)), ite_self]

end

end Allocate

theorem read_congr {offset n : Nat}
    (h : ∀ j, offset ≤ j → j < offset + n → c.byte j = d.byte j) :
    c.read offset n = d.read offset n := by
  refine map_congr_left fun i hi => ?_
  have hlt := mem_range.mp hi
  exact h _ (by omega) (by omega)

theorem read_zero {offset n : Nat} (h : ∀ j, offset ≤ j → j < offset + n → c.byte j = 0) :
    c.read offset n = List.replicate n 0 := by
  refine eq_replicate_iff.mpr ⟨by simp [read], fun b hb => ?_⟩
  obtain ⟨i, hi, rfl⟩ := mem_map.mp hb
  have hlt := mem_range.mp hi
  exact h _ (by omega) (by omega)

end Chunk

/-! ## The chunks of an address space -/

namespace Space

/-- One chunk ends at least a page before the other starts. -/
def Before (d c : Chunk) : Prop := d.base.toNat + d.size.toInt.toNat + 4096 ≤ c.base.toNat

/-- The chunks are sound and apart, in descending order, and lie below the next base. -/
structure Laid (s : Space) : Prop where
  apart : s.chunks.Pairwise fun c d => Before d c
  sound : ∀ c ∈ s.chunks, c.Sound
  above : ∀ c ∈ s.chunks, firstBase.toNat ≤ c.base.toNat
  below : ∀ c ∈ s.chunks, c.base.toNat + c.size.toInt.toNat + 4096 ≤ s.next.toNat
  first_le : firstBase.toNat ≤ s.next.toNat
  next_lt : s.next.toNat < 0x8000000000000000

variable {s : Space} {c : Chunk}

theorem laid_empty : ({} : Space).Laid where
  apart := .nil
  sound _ h := nomatch h
  above _ h := nomatch h
  below _ h := nomatch h
  first_le := le_rfl
  next_lt := by decide

theorem Laid.bases_nodup (h : s.Laid) : (s.chunks.map Chunk.base).Nodup := by
  refine pairwise_map.mpr (h.apart.imp fun {c d} hbefore heq => ?_)
  have := congrArg UInt64.toNat heq
  unfold Before at hbefore
  omega

theorem Laid.eq_of_base (h : s.Laid) (hc : c ∈ s.chunks) (hd : d ∈ s.chunks)
    (heq : c.base = d.base) : c = d :=
  inj_on_of_nodup_map h.bases_nodup hc hd heq

theorem Laid.chunk?_eq_some_iff (h : s.Laid) :
    s.chunk? base = some c ↔ c ∈ s.chunks ∧ c.base = base := by
  unfold chunk?
  constructor
  · intro hfind
    exact ⟨mem_of_find?_eq_some hfind, by simpa using find?_some hfind⟩
  · rintro ⟨hmem, rfl⟩
    cases hfind : s.chunks.find? fun d => d.base = c.base with
    | none => exact absurd (find?_eq_none.mp hfind c hmem) (by simp)
    | some d =>
      have hd := mem_of_find?_eq_some hfind
      rw [h.eq_of_base hd hmem (by simpa using find?_some hfind)]

/-- A range resolves if it lies in the allocated part of the first chunk that starts at or below
it. -/
theorem resolve_eq_ok_iff {address : UInt64} {length offset : Int64} :
    s.resolve address length = .ok (c, offset) ↔ (address ≠ 0 ∧ 0 ≤ length.toInt) ∧
      s.chunks.find? (fun d => d.base ≤ address) = some c ∧ (address - c.base).toInt64 = offset ∧
      (c.top.toInt ≤ offset.toInt ∧ (offset + length).toInt ≤ c.size.toInt) ∧
      offset.toInt ≤ (offset + length).toInt := by
  unfold resolve
  cases s.chunks.find? fun d => d.base ≤ address with
  | none => split_ifs <;> simp
  | some d =>
    simp only [Bool.or_eq_true, decide_eq_true_eq, Int64.lt_iff_toInt_lt, Int64.toInt_zero]
    constructor
    · intro h
      split_ifs at h with hzero hneg hin hwraps
      cases h
      exact ⟨⟨hzero, by omega⟩, rfl, rfl, by omega, by omega⟩
    · rintro ⟨⟨hzero, hneg⟩, hd, rfl, hin, hwraps⟩
      cases hd
      rw [if_neg hzero, if_neg (by omega), if_neg (by omega), if_neg (by omega)]

theorem resolve_of_mem (h : s.Laid) (hc : c ∈ s.chunks) (address : UInt64) (length : Int64)
    (hlength : 0 ≤ length.toInt) (hlow : (c.base.toNat : Int) + c.top.toInt ≤ address.toNat)
    (hhigh : (address.toNat : Int) + length.toInt ≤ c.base.toNat + c.size.toInt) :
    ∃ offset : Int64, offset.toInt = (address.toNat : Int) - c.base.toNat ∧
      s.resolve address length = .ok (c, offset) := by
  have hsound := h.sound c hc
  have hbelow := h.below c hc
  have habove := h.above c hc
  have hnext := h.next_lt
  have htop := hsound.top_nonneg
  have hfirst : firstBase.toNat = 65536 := rfl
  have hbase : c.base.toNat ≤ address.toNat := by omega
  have hfind : (s.chunks.find? fun d => d.base ≤ address) = some c := by
    obtain ⟨pre, post, hsplit⟩ := append_of_mem hc
    have hpre : ∀ d ∈ pre, Before c d := fun d hd => by
      have hpair := h.apart
      rw [hsplit, pairwise_append] at hpair
      exact hpair.2.2 d hd c (.head _)
    rw [hsplit, find?_append, find?_eq_none.mpr, find?_cons_of_pos]
    · rfl
    · simpa [UInt64.le_iff_toNat_le] using hbase
    · intro d hd
      have hbefore := hpre d hd
      unfold Before at hbefore
      simp only [UInt64.le_iff_toNat_le, decide_eq_true_eq]
      omega
  have hoffset : (address - c.base).toInt64.toInt = (address.toNat : Int) - c.base.toNat :=
    toInt_sub_toInt64 hbase (by omega)
  have hsum : ((address - c.base).toInt64 + length).toInt =
      (address.toNat : Int) - c.base.toNat + length.toInt := by
    rw [toInt_add_of_bounds, hoffset] <;> omega
  have hne : address ≠ 0 := fun h0 => by
    have := congrArg UInt64.toNat h0
    rw [UInt64.toNat_zero] at this
    omega
  exact ⟨(address - c.base).toInt64, hoffset,
    resolve_eq_ok_iff.mpr ⟨⟨hne, hlength⟩, hfind, rfl, by omega, by omega⟩⟩

theorem mem_of_resolve (h : s.Laid) {address : UInt64} {length offset : Int64}
    (hok : s.resolve address length = .ok (c, offset)) :
    c ∈ s.chunks ∧ 0 ≤ length.toInt ∧ offset.toInt = (address.toNat : Int) - c.base.toNat ∧
      c.top.toInt ≤ offset.toInt ∧ offset.toInt + length.toInt ≤ c.size.toInt := by
  obtain ⟨⟨-, hnonneg⟩, hfind, rfl, hin, hwraps⟩ := resolve_eq_ok_iff.mp hok
  have hmem := mem_of_find?_eq_some hfind
  have hbase : c.base.toNat ≤ address.toNat := by
    simpa [UInt64.le_iff_toNat_le] using find?_some hfind
  have hoffset := toInt_toInt64_of_nonneg ((h.sound c hmem).top_nonneg.trans hin.1)
  rw [toNat_sub_of_toNat_le hbase] at hoffset
  have hsum := toInt_add_of_not_lt hnonneg hwraps
  exact ⟨hmem, hnonneg, by omega, by omega, by omega⟩

theorem Laid.before_or_before (h : s.Laid) (hc : c ∈ s.chunks) (hd : d ∈ s.chunks)
    (hne : c ≠ d) : Before c d ∨ Before d c := by
  have hsymm : Std.Symm fun c d => Before c d ∨ Before d c := ⟨fun _ _ => Or.symm⟩
  exact (h.apart.imp (S := fun c d => Before c d ∨ Before d c) .inr).forall hc hd hne

/-! ## Changes of an address space -/

def sizeAt (s : Space) (base : UInt64) : Int := ((s.chunk? base).map fun c => c.size.toInt).getD 0

theorem Laid.sizeAt_base (h : s.Laid) (hc : c ∈ s.chunks) : s.sizeAt c.base = c.size.toInt := by
  rw [sizeAt, h.chunk?_eq_some_iff.mpr ⟨hc, rfl⟩]
  rfl

theorem Laid.sizeAt_nonneg (h : s.Laid) (x : UInt64) : 0 ≤ s.sizeAt x := by
  unfold sizeAt
  cases hx : s.chunk? x with
  | none => exact le_rfl
  | some c => exact (h.sound c (h.chunk?_eq_some_iff.mp hx).1).size_nonneg

theorem find?_modifyChunk (s : Space) (base : UInt64) {f : Chunk → Chunk}
    (hf : ∀ c, (f c).base = c.base)
    (q : UInt64 → Bool) : (s.modifyChunk base f).chunks.find? (fun c => q c.base) =
      (s.chunks.find? fun c => q c.base).map fun c => if c.base = base then f c else c := by
  refine (find?_map ..).trans (congrArg (Option.map _ <| find? · s.chunks) (funext fun c => ?_))
  show q (if c.base = base then f c else c).base = q c.base
  split
  · rw [hf]
  · rfl

theorem Laid.modifyChunk (h : s.Laid) {f : Chunk → Chunk}
    (hbase : ∀ c, (f c).base = c.base) (hsize : ∀ c, (f c).size = c.size)
    (hsound : ∀ c ∈ s.chunks, c.base = base → (f c).Sound) : (s.modifyChunk base f).Laid := by
  have hplace : ∀ c : Chunk, (if c.base = base then f c else c).base = c.base ∧
      (if c.base = base then f c else c).size = c.size := fun c => by
    split
    · exact ⟨hbase c, hsize c⟩
    · exact ⟨rfl, rfl⟩
  refine ⟨pairwise_map.mpr (h.apart.imp fun {c d} hbefore => ?_), ?_, ?_, ?_,
    h.first_le, h.next_lt⟩
  · unfold Before at hbefore ⊢
    rwa [(hplace c).1, (hplace d).1, (hplace d).2]
  all_goals
    intro _ hmem
    obtain ⟨c, hc, rfl⟩ := mem_map.mp hmem
  · split
    · exact hsound c hc ‹_›
    · exact h.sound c hc
  · rw [(hplace c).1]
    exact h.above c hc
  · rw [(hplace c).1, (hplace c).2]
    exact h.below c hc

/-- The addresses that a chunk takes up: whole pages, and a page after them. -/
def span (size : Int64) : Nat := (size.toInt.toNat + 4095) / 4096 * 4096 + 4096

theorem le_span (size : Int64) : size.toInt.toNat + 4096 ≤ span size := by
  unfold span
  omega

theorem reserve_chunks (s : Space) (size : Int64) :
    (s.reserve size).2.chunks = .fresh s.next size :: s.chunks := rfl

theorem reserve_next {size : Int64} (hsize : 0 ≤ size.toInt) :
    ((s.reserve size).2.next - s.next).toNat = span size := by
  have hlt := size.toInt_lt
  have hdiff : (s.reserve size).2.next - s.next =
      ((size.toUInt64 + 4095) &&& ~~~(4096 - 1 : Int64).toUInt64) + 4096 := by
    show s.next + (((size + pageSize - 1) &&& ~~~(pageSize - 1)) + pageSize).toUInt64 - s.next = _
    rw [add_sub_cancel_left, Int64.toUInt64_add, Int64.toUInt64_and, Int64.toUInt64_not,
      Int64.toUInt64_sub, Int64.toUInt64_add, add_sub_assoc]
    rfl
  have hsum : (size.toUInt64 + 4095).toNat = size.toInt.toNat + 4095 := by
    rw [UInt64.toNat_add, toNat_toUInt64 hsize]
    exact Nat.mod_eq_of_lt (by show size.toInt.toNat + 4095 < _; omega)
  rw [hdiff, UInt64.toNat_add, toNat_and_not_mask (k := 12) _ (by decide) rfl, hsum]
  exact Nat.mod_eq_of_lt (by show (size.toInt.toNat + 4095) / 4096 * 4096 + 4096 < _; omega)

theorem Laid.reserve (h : s.Laid) {size : Int64} (hsize : 0 ≤ size.toInt)
    (hlt : s.next.toNat + span size < 0x8000000000000000) : (s.reserve size).2.Laid ∧
      (s.reserve size).2.next.toNat = s.next.toNat + span size := by
  have hle := le_span size
  have hnext : (s.reserve size).2.next.toNat = s.next.toNat + span size := by
    have hsum : (s.reserve size).2.next = s.next + ((s.reserve size).2.next - s.next) := by
      rw [add_sub_cancel]
    rw [hsum, UInt64.toNat_add, reserve_next hsize]
    exact Nat.mod_eq_of_lt (by omega)
  have hchunks : ∀ {d}, d ∈ (s.reserve size).2.chunks → d = .fresh s.next size ∨ d ∈ s.chunks :=
    mem_cons.mp
  have hfirst := h.first_le
  refine ⟨⟨pairwise_cons.mpr ⟨h.below, h.apart⟩, fun d hd => ?_, fun d hd => ?_, fun d hd => ?_,
    by omega, by omega⟩, hnext⟩
  · rcases hchunks hd with rfl | hd
    · exact Chunk.sound_fresh hsize
    · exact h.sound d hd
  · rcases hchunks hd with rfl | hd
    · exact hfirst
    · exact h.above d hd
  · rcases hchunks hd with rfl | hd
    · show s.next.toNat + size.toInt.toNat + 4096 ≤ _
      omega
    · have := h.below d hd
      omega

theorem releaseAll_chunks (s : Space) (bases : List UInt64) :
    (s.releaseAll bases).chunks = s.chunks.filter fun c => c.base ∉ bases := by
  unfold releaseAll
  induction bases generalizing s with
  | nil => simp
  | cons b bases ih =>
    rw [foldl_cons, ih]
    simp only [release, filter_filter]
    exact filter_congr fun c _ => by simp [Bool.and_comm]

theorem releaseAll_next (s : Space) (bases : List UInt64) : (s.releaseAll bases).next = s.next := by
  unfold releaseAll
  induction bases generalizing s with
  | nil => rfl
  | cons b bases ih => exact ih (s.release b)

theorem Laid.releaseAll (h : s.Laid) (bases : List UInt64) : (s.releaseAll bases).Laid := by
  have hsub : (s.releaseAll bases).chunks.Sublist s.chunks := by
    rw [releaseAll_chunks]
    exact filter_sublist
  refine ⟨h.apart.sublist hsub, fun c hc => h.sound c (hsub.subset hc),
    fun c hc => h.above c (hsub.subset hc), fun c hc => ?_, ?_, ?_⟩ <;> rw [releaseAll_next]
  · exact h.below c (hsub.subset hc)
  · exact h.first_le
  · exact h.next_lt

end Space

end SsaIr
