import SsaIr.Proofs.Memory.Requests
import SsaIr.Proofs.Memory.Scalars

/-!
# Refusals of memory

Sizes and addresses are words, and requests near the greatest word make their sums wrap around. The
main results say that nothing else goes wrong: `alloc_fails_cleanly` for allocations,
`resolve_exact` for ranges of addresses.
-/

namespace SsaIr

open EStateM

namespace Arena

variable {h : Heap} {size align : Int64}

theorem nextChunk_cases (a : Arena) (head : Option Chunk) {need : Int}
    (hneed : (size + align - 1).toInt = need) :
    (∃ left, a.nextChunk head size align = .error (.exhausted size left a.limit)) ∨
      ∃ n, a.nextChunk head size align = .ok n ∧ need ≤ n.toInt := by
  unfold nextChunk
  dsimp only
  split_ifs with hlimit hleft
  · exact .inl ⟨_, rfl⟩
  · refine .inr ⟨_, rfl, ?_⟩
    rw [Int64.lt_iff_toInt_lt] at hleft
    rw [toInt_min, toInt_max]
    omega
  · refine .inr ⟨_, rfl, ?_⟩
    rw [toInt_max]
    omega

theorem fit?_fresh {base : UInt64} {n : Int64} {k : Nat} (hbase : base.toNat < 2 ^ 63)
    (hsize : 0 ≤ size.toInt)
    (hk : k < 63) (halign : align.toInt = 2 ^ k) (hn : size.toInt + 2 ^ k - 1 ≤ n.toInt) :
    ∃ offset, fit? (.fresh base n) size align = some offset := by
  have hpow : (0 : Int) < 2 ^ k := by positivity
  have hlt := n.toInt_lt
  have hroom : (n - size).toInt = n.toInt - size.toInt := toInt_sub_of_bounds (by omega) (by omega)
  have hsum : (base + (n - size).toUInt64).toNat = base.toNat + (n - size).toInt.toNat :=
    toNat_add_toUInt64 (by omega) (by omega)
  have hmask := toNat_and_not_mask (base + (n - size).toUInt64) hk halign
  have hdown : base.toNat ≤ (base + (n - size).toUInt64).toNat / 2 ^ k * 2 ^ k := by
    have hmod := Nat.mod_lt (base + (n - size).toUInt64).toNat (show 0 < 2 ^ k by positivity)
    have hdiv := Nat.div_add_mod' (base + (n - size).toUInt64).toNat (2 ^ k)
    have hcast : ((2 ^ k : Nat) : Int) = 2 ^ k := by push_cast; rfl
    omega
  refine ⟨_, (if_neg ?_).trans (if_neg ?_)⟩
  · rw [Int64.lt_iff_toInt_lt]
    show ¬ n.toInt < size.toInt
    omega
  · rw [UInt64.lt_iff_toNat_lt]
    show ¬ ((base + (n - size).toUInt64) &&& ~~~(align - 1).toUInt64).toNat < base.toNat
    omega

theorem head?_grown (h : Heap) (n : Int64) : head? (grown h n) = some (.fresh h.space.next n) := by
  show (h.space.reserve n).2.chunk? h.space.next = _
  rw [Space.chunk?, Space.reserve_chunks]
  exact List.find?_cons_of_pos (by simp [Chunk.fresh])

theorem alloc_ok_or_refused (hnext : h.space.next.toNat < 2 ^ 63)
    (hleast : isPowerOfTwo h.arena.minAlign = true)
    (hsum : align ≤ 0 ∨ isPowerOfTwo align = true →
      size.toInt + (h.arena.alignment align).toInt ≤ 2 ^ 63) :
    (∃ address h', alloc size align h = .ok address h') ∨
      ∃ e, alloc size align h = .error e h ∧ e.breakdown? = none := by
  rw [alloc_apply]
  by_cases hneg : size < 0
  · exact .inr ⟨_, if_pos hneg, rfl⟩
  by_cases hpow : isPowerOfTwo (if align ≤ 0 then h.arena.minAlign else align) = true
  swap
  · exact .inr ⟨.badAlign _, by rw [if_neg hneg, if_neg hpow], rfl⟩
  rw [if_neg hneg, if_pos hpow]
  have hsum := hsum (or_iff_not_imp_left.mpr fun hgiven => by rwa [if_neg hgiven] at hpow)
  rw [Int64.lt_iff_toInt_lt, Int64.toInt_zero] at hneg
  obtain ⟨k, hk, halign⟩ := exists_pow_of_isPowerOfTwo (Pool.isPowerOfTwo_alignment hleast hpow)
  have hpos : (0 : Int) < 2 ^ k := by positivity
  have hneed : (size + h.arena.alignment align - 1).toInt = size.toInt + 2 ^ k - 1 := by
    rw [Int64.toInt_sub, Int64.toInt_add, Int.bmod_sub_bmod, halign, show (1 : Int64).toInt = 1
      from rfl]
    exact Int.bmod_eq_of_le (by omega) (by omega)
  rcases tryHead_cases h size (h.arena.alignment align) with hnone | ⟨c, offset, hsome, -⟩
  swap
  · exact .inl ⟨_, _, bind_of_ok hsome⟩
  rw [bind_of_ok hnone]
  dsimp only
  rcases nextChunk_cases h.arena (head? h) hneed with ⟨left, herr⟩ | ⟨n, hok, hn⟩
  · exact .inr ⟨_, bind_of_error (grow_of_error herr), rfl⟩
  · obtain ⟨offset, hfit⟩ := fit?_fresh hnext (Int.not_lt.mp hneg) hk halign hn
    rw [bind_of_ok (grow_of_ok hok (by rw [Int64.lt_iff_toInt_lt, Int64.toInt_zero]; omega))]
    exact .inl ⟨_, _, bind_of_ok (tryHead_of_bumps ⟨head?_grown h n, hfit⟩)⟩

end Arena

namespace Pool

/-- An allocation gives an address, or it fails and changes neither the arena nor the address space.
Only a request whose alignment is accepted and whose size and alignment add up to more than the
greatest word is not covered. -/
theorem alloc_fails_cleanly (rs : List Request) (hroom : (run rs).reserved < 2 ^ 62) {i : Nat}
    {a : Arena} (ha : (run rs).arenas[i]? = some a) (size align : Int64)
    (hsum : align ≤ 0 ∨ isPowerOfTwo align = true →
      size.toInt + (a.alignment align).toInt ≤ 2 ^ 63) :
    (∃ address h, Arena.alloc size align ⟨(run rs).space, a⟩ = .ok address h) ∨
      ∃ e, Arena.alloc size align ⟨(run rs).space, a⟩ = .error e ⟨(run rs).space, a⟩ ∧
      e.breakdown? = none := by
  have hsound : (run rs).Sound := sound_empty.foldl rs hroom
  exact Arena.alloc_ok_or_refused (h := ⟨(run rs).space, a⟩) hsound.laid.next_lt
    (hsound.arena a (List.mem_of_getElem? ha)).aligned hsum

/-- A request that does not fit under the limit, and one whose padded size is over the greatest
word: its chunk is too small for it. -/
theorem alloc_fails_cleanly_limited :
    (∃ e, Arena.alloc 200 1 ⟨(run [.create { limit := some 100 }]).space, .limited 100⟩ =
      .error e ⟨(run [.create { limit := some 100 }]).space, .limited 100⟩ ∧ e.breakdown? = none) ∧
    ∃ h, Arena.alloc 9223372036854775807 2 ⟨{}, .limited 100⟩ = .error .chunkTooSmall h ∧
      h.arena.capacity = 100 := by
  have hcases :=
    alloc_fails_cleanly [.create { limit := some 100 }] (by decide) (i := 0) (a := .limited 100) rfl
    200 1 (fun _ => by decide)
  refine ⟨hcases.resolve_left ?_, _, rfl, rfl⟩
  rintro ⟨address, h, hok⟩
  cases hok

/-! ## Ranges -/

end Pool

namespace Space

/-- The range lies in the allocated part of a chunk. -/
structure Covers (c : Chunk) (address : UInt64) (length : Int64) : Prop where
  ne_zero : address ≠ 0
  nonneg : 0 ≤ length.toInt
  low : c.base.toNat + c.top.toInt ≤ (address.toNat : Int)
  high : (address.toNat : Int) + length.toInt ≤ c.base.toNat + c.size.toInt

variable {s : Space} {address : UInt64} {length : Int64}

theorem read_of_resolve {c : Chunk} {offset : Int64}
    (h : s.resolve address length = .ok (c, offset)) :
    s.read address length = .ok (c.read offset.toInt.toNat length.toInt.toNat) := by
  rw [read, h]
  rfl

theorem Laid.read_eq_ok_iff (hs : s.Laid) {bytes : List UInt8} : s.read address length = .ok bytes ↔
    ∃ c ∈ s.chunks, Covers c address length ∧
      bytes = c.read (address.toNat - c.base.toNat) length.toInt.toNat := by
  constructor
  · intro hread
    obtain ⟨⟨c, offset⟩, hresolve, heq⟩ := Except.bind_eq_ok_iff.mp hread
    obtain ⟨hc, hlength, hoffset, hlow, hhigh⟩ := mem_of_resolve hs hresolve
    have htop := (hs.sound c hc).top_nonneg
    refine ⟨c, hc, ⟨(resolve_eq_ok_iff.mp hresolve).1.1, hlength, by omega, by omega⟩, ?_⟩
    rw [← show offset.toInt.toNat = address.toNat - c.base.toNat by omega]
    exact (Except.ok.inj heq).symm
  · rintro ⟨c, hc, hcovers, rfl⟩
    obtain ⟨offset, hoffset, hresolve⟩ :=
      resolve_of_mem hs hc address length hcovers.nonneg hcovers.low hcovers.high
    rw [read_of_resolve hresolve, show offset.toInt.toNat = address.toNat - c.base.toNat by omega]

theorem Overruns.resolve_eq (hs : s.Laid) (h : s.Overruns address length) :
    s.resolve address length = .error .rangeWraps := by
  obtain ⟨⟨hzero, hneg⟩, c, hfind, hin, hlt, hover⟩ := h
  have hsound := hs.sound c (List.mem_of_find?_eq_some hfind)
  have hsize := hsound.size_nonneg
  have htop := hsound.top_nonneg
  have hlength := length.toInt_lt
  have hoffset := toInt_toInt64 hlt
  have hsum : ((address - c.base).toInt64 + length).toInt = (address - c.base).toNat +
      length.toInt - 2 ^ 64 := by
    rw [Int64.toInt_add, hoffset, Int.bmod_def]
    split <;> omega
  unfold resolve
  simp only [hfind, Bool.or_eq_true, decide_eq_true_eq, Int64.lt_iff_toInt_lt, Int64.toInt_zero]
  rw [if_neg hzero, if_neg (by omega), if_neg (by omega), if_pos (by omega)]

theorem Laid.breakdown_iff (hs : s.Laid) :
    (∃ e, s.read address length = .error e ∧ e.breakdown? ≠ none) ↔
    s.Overruns address length := by
  constructor
  · rintro ⟨e, hread, hbreaks⟩
    cases hresolve : s.resolve address length with rw [read, hresolve] at hread
    | ok r => cases hread
    | error e' =>
      cases hread
      exact ((resolve_error (fun c hc => (hs.sound c hc).top_nonneg) hresolve).resolve_left
        hbreaks).2
  · intro hover
    exact ⟨.rangeWraps, by rw [read, hover.resolve_eq hs]; rfl, Option.some_ne_none _⟩

end Space

/-- A range of addresses is read exactly if it lies in the allocated part of one chunk, and then its
bytes are given. Otherwise it is refused; only where its end wraps around does reading break
down. -/
theorem Pool.resolve_exact (rs : List Request) (hroom : (run rs).reserved < 2 ^ 62)
    (address : UInt64)
    (length : Int64) :
    (∀ bytes, (run rs).space.read address length = .ok bytes ↔ ∃ c ∈ (run rs).space.chunks,
      Space.Covers c address length ∧
      bytes = c.read (address.toNat - c.base.toNat) length.toInt.toNat) ∧
    ((∃ e, (run rs).space.read address length = .error e ∧ e.breakdown? ≠ none) ↔
      (run rs).space.Overruns address length) := by
  have hlaid := (sound_empty.foldl rs hroom).laid
  exact ⟨fun bytes => hlaid.read_eq_ok_iff, hlaid.breakdown_iff⟩

def Pool.oneByte : List Request := [.create {}, .ask 0 (.alloc 1 1)]

/-- The byte that an arena handed out, and as many bytes from there as a word counts. -/
theorem Pool.resolve_exact_one_byte : (run oneByte).reserved < 2 ^ 62 ∧
    (run oneByte).space.read 0x10fff 1 = .ok [0] ∧
    ∃ e, (run oneByte).space.read 0x10fff 9223372036854775807 = .error e ∧ e.breakdown? ≠ none := by
  have hroom : (run oneByte).reserved < 2 ^ 62 := by decide +kernel
  refine ⟨hroom, ((resolve_exact oneByte hroom 0x10fff 1).1 [0]).mpr ?_,
    (resolve_exact oneByte hroom 0x10fff 9223372036854775807).2.mpr ?_⟩
  · exact ⟨_, .head _, ⟨by decide, by decide, by decide, by decide⟩, rfl⟩
  · exact ⟨by decide, _, rfl, by decide, by decide, by decide⟩

end SsaIr
