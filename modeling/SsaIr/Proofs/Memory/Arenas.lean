import SsaIr.Memory.Arena
import SsaIr.Proofs.Computation
import SsaIr.Proofs.Memory.Chunks

/-!
# What arenas do

An arena changes in two ways when it allocates: it gets another chunk, and it takes a range off its
newest chunk. `Arena.alloc_eq_ok` and `Arena.alloc_eq_error` say which of them happened, and
`Chunk.Sound.fit` where the range lies.
-/

namespace SsaIr

open EStateM

theorem Chunk.Sound.fit {c : Chunk} (h : c.Sound)
    (hlt : c.base.toNat + c.size.toInt.toNat < 0x8000000000000000) {size align offset : Int64}
    {k : Nat}
    (hsize : 0 ≤ size.toInt) (hk : k < 63) (halign : align.toInt = 2 ^ k)
    (hfit : Arena.fit? c size align = some offset) :
    0 ≤ offset.toInt ∧ offset.toInt + size.toInt ≤ c.top.toInt ∧
      2 ^ k ∣ c.base.toNat + offset.toInt.toNat := by
  have htop := h.top_le
  unfold Arena.fit? at hfit
  split at hfit
  · cases hfit
  · rename_i hle
    rw [Int64.lt_iff_toInt_lt] at hle
    have hroom : (c.top - size).toInt = c.top.toInt - size.toInt := by
      have := c.top.toInt_lt
      exact toInt_sub_of_bounds (by omega) (by omega)
    have hsum : (c.base + (c.top - size).toUInt64).toNat = c.base.toNat +
      (c.top - size).toInt.toNat :=
      toNat_add_toUInt64 (by omega) (by omega)
    simp only [UInt64.lt_iff_toNat_lt, toNat_and_not_mask _ hk halign] at hfit
    split at hfit
    · cases hfit
    · rename_i hbase
      have hdown := Nat.div_mul_le_self (c.base + (c.top - size).toUInt64).toNat (2 ^ k)
      have hmask := toNat_and_not_mask (c.base + (c.top - size).toUInt64) hk halign
      have hoffset :=
        toInt_sub_toInt64 (x := (c.base + (c.top - size).toUInt64) &&& ~~~(align - 1).toUInt64)
        (y := c.base) (by omega) (by omega)
      rw [← Option.some.inj hfit, hoffset, hmask]
      refine ⟨by omega, by omega, ?_⟩
      have hwhole :
        c.base.toNat + (((c.base + (c.top - size).toUInt64).toNat / 2 ^ k * 2 ^ k : Nat) -
          (c.base.toNat : Int)).toNat =
            (c.base + (c.top - size).toUInt64).toNat / 2 ^ k * 2 ^ k := by
        omega
      rw [hwhole]
      exact Nat.dvd_mul_left _ _

namespace Arena

variable {h h' : Heap} {size align : Int64}

def alignment (a : Arena) (align : Int64) : Int64 :=
  max (if align ≤ 0 then a.minAlign else align) a.minAlign

def grown (h : Heap) (n : Int64) : Heap where
  space := (h.space.reserve n).2
  arena := { h.arena with held := h.space.next :: h.arena.held, capacity := h.arena.capacity + n }

def bumped (h : Heap) (c : Chunk) (offset size : Int64) : Heap where
  space := h.space.modifyChunk c.base fun c => c.allocate offset size
  arena := { h.arena with allocated := h.arena.allocated + (c.top - offset) }

def onlyChunk (a : Arena) (c : Chunk) : Arena :=
  { a with held := [c.base], capacity := c.size, allocated := 0 }

/-- The arena may get another chunk of this size. -/
structure Grows (h : Heap) (n : Int64) : Prop where
  nonneg : 0 ≤ n.toInt
  within : 0 < h.arena.limit → n.toInt ≤ (h.arena.limit - h.arena.capacity).toInt

structure Bumps (h : Heap) (c : Chunk) (offset size align : Int64) : Prop where
  head : head? h = some c
  fit : fit? c size align = some offset

theorem nextChunk_le {a : Arena} {head : Option Chunk} {n : Int64}
    (hok : a.nextChunk head size align = .ok n) (hlimit : 0 < a.limit) :
    n.toInt ≤ (a.limit - a.capacity).toInt := by
  unfold nextChunk at hok
  simp only [if_pos hlimit] at hok
  split at hok
  · cases hok
  · cases hok
    rw [toInt_min]
    exact min_le_right _ _

theorem grow_of_error {e : MemoryError}
    (hnext : h.arena.nextChunk (head? h) size align = .error e) :
    grow size align h = .error e h := by
  unfold grow
  rw [get_bind_apply, hnext]
  rfl

theorem grow_of_ok {n : Int64} (hnext : h.arena.nextChunk (head? h) size align = .ok n)
    (hn : ¬ n < 0) :
    grow size align h = .ok () (grown h n) := by
  unfold grow
  rw [get_bind_apply]
  simp only [hnext, if_neg hn]
  rfl

theorem grow_cases (h : Heap) (size align : Int64) : (∃ e, grow size align h = .error e h) ∨
    ∃ n, grow size align h = .ok () (grown h n) ∧ Grows h n := by
  cases hnext : h.arena.nextChunk (head? h) size align with
  | error e => exact .inl ⟨e, grow_of_error hnext⟩
  | ok n =>
    by_cases hneg : n < 0
    · refine .inl ⟨.negativeChunk, ?_⟩
      unfold grow
      rw [get_bind_apply]
      simp only [hnext, if_pos hneg]
      rfl
    · refine .inr ⟨n, grow_of_ok hnext hneg, ?_, nextChunk_le hnext⟩
      rw [Int64.lt_iff_toInt_lt] at hneg
      exact Int.not_lt.mp hneg

theorem tryHead_of_bumps {c : Chunk} {offset : Int64} (hb : Bumps h c offset size align) :
    tryHead size align h = .ok (some (c.base + offset.toUInt64)) (bumped h c offset size) := by
  unfold tryHead
  rw [get_bind_apply]
  simp only [hb.head, bump?, hb.fit, Option.bind_some, Option.map_some]
  rfl

theorem tryHead_cases (h : Heap) (size align : Int64) : tryHead size align h = .ok none h ∨
    ∃ c offset, tryHead size align h =
    .ok (some (c.base + offset.toUInt64)) (bumped h c offset size) ∧
      Bumps h c offset size align := by
  cases hfit : (head? h).bind (fit? · size align) with
  | none =>
    refine .inl ?_
    unfold tryHead
    rw [get_bind_apply]
    cases hhead : head? h with
    | none => rfl
    | some c =>
      rw [hhead, Option.bind_some] at hfit
      simp [bump?, hfit]
  | some offset =>
    obtain ⟨c, hhead, hfit⟩ := Option.bind_eq_some_iff.mp hfit
    exact .inr ⟨c, offset, tryHead_of_bumps ⟨hhead, hfit⟩, hhead, hfit⟩

theorem alloc_apply (h : Heap) (size align : Int64) : alloc size align h =
    if size < 0 then .error (.negativeSize size) h
    else if isPowerOfTwo (if align ≤ 0 then h.arena.minAlign else align) = true then
      (tryHead size (h.arena.alignment align) >>= fun
        | some address => pure address
        | none => grow size (h.arena.alignment align) >>= fun _ =>
          tryHead size (h.arena.alignment align) >>= fun
            | some address => pure address
            | none => throw .chunkTooSmall) h
    else .error (.badAlign (if align ≤ 0 then h.arena.minAlign else align)) h := by
  unfold alloc
  by_cases hneg : size < 0
  · rw [if_pos hneg, if_pos hneg]
    rfl
  · rw [if_neg hneg, if_neg hneg]
    beta_reduce
    rw [get_bind_apply]
    by_cases hpow : isPowerOfTwo (if align ≤ 0 then h.arena.minAlign else align) = true
    · simp only [hpow, Bool.not_true, Bool.false_eq_true, if_false, if_true]
      rfl
    · simp only [hpow, Bool.not_false, if_true]
      rfl

/-- What allocation did: it took a range off the newest chunk, which may be new, or it failed and
may have left a new chunk behind. -/
theorem alloc_cases (h : Heap) (size align : Int64) : (∃ e, alloc size align h = .error e h) ∨
      (∃ n e, Grows h n ∧ alloc size align h = .error e (grown h n)) ∨
      0 ≤ size.toInt ∧ isPowerOfTwo (if align ≤ 0 then h.arena.minAlign else align) = true ∧
        ∃ h₁, (h₁ = h ∨ ∃ n, Grows h n ∧ h₁ = grown h n) ∧
          ∃ c offset, Bumps h₁ c offset size (h.arena.alignment align) ∧
            alloc size align h = .ok (c.base + offset.toUInt64) (bumped h₁ c offset size) := by
  rw [alloc_apply]
  by_cases hneg : size < 0
  · exact .inl ⟨_, if_pos hneg⟩
  by_cases hpow : isPowerOfTwo (if align ≤ 0 then h.arena.minAlign else align) = true
  swap
  · exact .inl ⟨_, by rw [if_neg hneg, if_neg hpow]⟩
  rw [if_neg hneg, if_pos hpow]
  have hsize : 0 ≤ size.toInt := by
    rw [Int64.lt_iff_toInt_lt] at hneg
    exact Int.not_lt.mp hneg
  rcases tryHead_cases h size (h.arena.alignment align) with hnone | ⟨c, offset, hsome, hbumps⟩
  · rw [bind_of_ok hnone]
    dsimp only
    rcases grow_cases h size (h.arena.alignment align) with ⟨e, herr⟩ | ⟨n, hgrow, hgrows⟩
    · exact .inl ⟨e, bind_of_error herr⟩
    · rw [bind_of_ok hgrow]
      rcases tryHead_cases (grown h n) size (h.arena.alignment align) with
        hnone | ⟨c, offset, hsome, hbumps⟩
      · exact .inr (.inl ⟨n, _, hgrows, bind_of_ok hnone⟩)
      · exact .inr (.inr ⟨hsize, hpow, _, .inr ⟨n, hgrows, rfl⟩, c, offset, hbumps,
          bind_of_ok hsome⟩)
  · exact .inr (.inr ⟨hsize, hpow, h, .inl rfl, c, offset, hbumps, bind_of_ok hsome⟩)

theorem reset_of_nil (hheld : h.arena.held = []) : reset h = h := by
  unfold reset
  simp only [hheld]

theorem reset_of_cons {c : Chunk} {older : List UInt64} (hheld : h.arena.held = c.base :: older)
    (hchunk : h.space.chunk? c.base = some c) : reset h =
      { space := (h.space.releaseAll older).modifyChunk c.base Chunk.rewind
        arena := h.arena.onlyChunk c } := by
  unfold reset
  simp only [hheld, hchunk]
  rfl

end Arena

end SsaIr
