import SsaIr.Proofs.Machine.Access
import SsaIr.Proofs.Machine.Words
import SsaIr.Proofs.Memory.Chunks
import SsaIr.Proofs.Memory.Layouts

/-!
# Scalars in memory

What is stored is what is loaded. A scalar goes through bytes in one of two orders
(`decode_encode`), the bytes through the chunk that its address lies in (`read_write`), and all
other bytes stay. Read `Space.SameOutside` and `Space.Wraps` first.
-/

namespace SsaIr

open RuntimeValue Chunk

/-! ## Bytes -/

@[simp]
theorem length_lowBytes (v : UInt64) (n : Nat) : (lowBytes v n).length = n := by
  induction n generalizing v with
  | zero => rfl
  | succ n ih => exact congrArg (· + 1) (ih _)

theorem bigEndian_lowBytes (v : UInt64) (n : Nat) :
    (bigEndian (lowBytes v n).reverse).toNat = v.toNat % 2 ^ (8 * n) := by
  induction n generalizing v with
  | zero => exact (Nat.mod_one _).symm
  | succ n ih =>
    have hhigh : (v >>> 8).toNat = v.toNat / 2 ^ 8 := by
      rw [UInt64.toNat_shiftRight, Nat.shiftRight_eq_div_pow]
      rfl
    have hlow : v.toUInt8.toUInt64.toNat = v.toNat % 2 ^ 8 := by simp
    have hfits : v.toNat / 2 ^ 8 % 2 ^ (8 * n) * 2 ^ 8 < 2 ^ 64 := by
      have hmod := Nat.mod_le (v.toNat / 2 ^ 8) (2 ^ (8 * n))
      have hv := v.toNat_lt
      omega
    have hshift : (bigEndian (lowBytes (v >>> 8) n).reverse <<< 8).toNat =
        (v.toNat / 2 ^ 8 % 2 ^ (8 * n)) <<< 8 := by
      rw [UInt64.toNat_shiftLeft, ih, hhigh]
      exact Nat.mod_eq_of_lt (by rwa [show (8 : UInt64).toNat % 64 = 8 from rfl, Nat.shiftLeft_eq])
    rw [lowBytes, List.reverse_cons, bigEndian_append, UInt64.toNat_or, hshift, hlow,
      ← Nat.shiftLeft_add_eq_or_of_lt (Nat.mod_lt _ (by decide)), Nat.shiftLeft_eq,
      show 8 * (n + 1) = 8 + 8 * n by omega, pow_add, Nat.mod_mul]
    ring

theorem decode_encode (little : Bool) (n : Nat) (v : UInt64) :
    (decodeBytes little (encodeBytes little n v)).toNat = v.toNat % 2 ^ (8 * n) := by
  cases little with
  | true => exact bigEndian_lowBytes v n
  | false => exact bigEndian_lowBytes v n

theorem length_encodeBytes (little : Bool) (n : Nat) (v : UInt64) :
    (encodeBytes little n v).length = n := by
  cases little <;> simp [encodeBytes]

/-! ## Values -/

def RuntimeKind.zero (k : RuntimeKind) : RuntimeValue := { kind := k }

theorem RuntimeKind.decode_zero (k : RuntimeKind) : k.decode 0 = k.zero := by
  cases k with
  | int w => cases w <;> rfl
  | float | undef | ptr => rfl

namespace RuntimeValue

theorem Canonical.ofInt_eq {w : IntWidth} {v : Int64} (h : (int w v).Canonical) :
    ofInt w v = .int w v := by
  refine congrArg (int w) ?_
  cases w with
  | w1 =>
    rcases h with h | h <;> rw [← Int64.toInt64_toUInt64 v, show v.toUInt64 = _ from h] <;> rfl
  | w8 =>
    refine Int64.toInt_inj.mp ((Int8.toInt_toInt64 _).trans ((Int64.toInt_toInt8 v).trans ?_))
    exact Int.bmod_eq_of_le h.1 h.2
  | w16 =>
    refine Int64.toInt_inj.mp ((Int16.toInt_toInt64 _).trans ((Int64.toInt_toInt16 v).trans ?_))
    exact Int.bmod_eq_of_le h.1 h.2
  | w32 =>
    refine Int64.toInt_inj.mp ((Int32.toInt_toInt64 _).trans ((Int64.toInt_toInt32 v).trans ?_))
    exact Int.bmod_eq_of_le h.1 h.2
  | w64 => rfl

theorem decode_bits {v : RuntimeValue} {t : Ty} (hv : v.kind = .ofType t) (hne : v.kind ≠ .undef)
    (hcanon : v.Canonical) {n : Nat} (hn : t.bitWidth ≤ n)
    (hptr : ∀ address, v = .ptr address → address.toNat < 2 ^ n) {raw : UInt64}
    (hraw : raw.toNat = v.bits.toNat % 2 ^ n) : (RuntimeKind.ofType t).decode raw = v := by
  rw [← hv]
  obtain ⟨k, bits⟩ := v
  have hsame (hlt : bits.toNat < 2 ^ n) : RuntimeValue.mk k raw = ⟨k, bits⟩ :=
    congrArg _ (UInt64.toNat_inj.mp (hraw.trans (Nat.mod_eq_of_lt hlt)))
  cases k with
  | undef => exact absurd rfl hne
  | int w =>
    obtain rfl : t = .int w := by cases t <;> cases hv; rfl
    have hword : raw.toInt64.toBitVec.setWidth w.bits =
        bits.toInt64.toBitVec.setWidth w.bits := by
      refine BitVec.eq_of_toNat_eq ?_
      rw [BitVec.toNat_setWidth, BitVec.toNat_setWidth]
      exact (congrArg (· % 2 ^ w.bits) hraw).trans (Nat.mod_mod_of_dvd _ (pow_dvd_pow 2 hn))
    have hkept : ofInt w bits.toInt64 = .int w bits.toInt64 := Canonical.ofInt_eq hcanon
    show ofInt w raw.toInt64 = .int w bits.toInt64
    rw [ofInt_eq_ofWord, hword, ← ofInt_eq_ofWord, hkept]
  | float w =>
    obtain rfl : t = .float w := by cases t <;> cases hv; rfl
    have hlt : bits.toNat < 2 ^ w.bits := by
      cases w with
      | f32 => exact hcanon
      | f64 => exact bits.toNat_lt
    exact hsame (hlt.trans_le (Nat.pow_le_pow_right (by decide) hn))
  | ptr => exact hsame (hptr bits rfl)

theorem Canonical.eq_undef {v : RuntimeValue} (h : v.Canonical) (hv : v.kind = .undef) :
    v = .undef := by
  obtain ⟨k, bits⟩ := v
  cases hv
  exact congrArg _ h

end RuntimeValue

theorem DataLayout.sizeOf_scalar (d : DataLayout) {t : Ty} (ht : RuntimeKind.ofType t ≠ .undef) :
    ∃ size, d.sizeOf t = .ok size ∧ 0 ≤ size.toInt ∧ size.toInt ≤ 8 ∧
      t.bitWidth ≤ 8 * size.toInt.toNat := by
  cases t with
  | int w =>
    obtain ⟨hleast, hle, -⟩ := d.intExtent_fits w
    refine ⟨_, rfl, ?_⟩
    rw [toInt_ofNat_of_lt (by cases w <;> decide)] at hleast
    show _ ∧ _ ∧ w.bits ≤ _
    omega
  | float w =>
    obtain ⟨hleast, hle, -⟩ := d.floatExtent_fits w
    refine ⟨_, rfl, ?_⟩
    rw [toInt_ofNat_of_lt (by cases w <;> decide)] at hleast
    show _ ∧ _ ∧ w.bits ≤ _
    have hbits : w.bits % 8 = 0 := by cases w <;> rfl
    omega
  | pointer =>
    obtain ⟨hleast, hle, -⟩ := d.ptr_fits
    exact ⟨_, rfl, Int.le_trans (by decide) hleast, hle, Nat.zero_le _⟩
  | void | label | array | struct | named | function => exact absurd rfl ht

/-! ## The chunk that an address lies in -/

namespace Chunk

variable {c : Chunk}

theorem read_succ (c : Chunk) (offset n : Nat) :
    c.read offset (n + 1) = c.byte offset :: c.read (offset + 1) n := by
  simp [read, List.range_succ_eq_map, Nat.add_assoc, Nat.add_comm 1, Function.comp_def]

theorem read_write (c : Chunk) (offset : Nat) (bs : List UInt8) :
    (c.write offset bs).read offset bs.length = bs := by
  induction bs generalizing c offset with
  | nil => rfl
  | cons b bs ih =>
    rw [List.length_cons, read_succ, write, ih, byte_write_outside (.inl (Nat.lt_succ_self _))]
    simp [byte]

end Chunk

namespace Space

variable {s s' : Space} {address : UInt64} {length offset : Int64} {c : Chunk} {bytes : List UInt8}

/-- The spaces have the same chunks, and their bytes agree except at a number of addresses from one
on. -/
def SameOutside (s s' : Space) (address count : Nat) : Prop :=
  s'.next = s.next ∧ List.Forall₂ (fun c d : Chunk =>
    (d.base = c.base ∧ d.size = c.size ∧ d.top = c.top ∧ d.untouched = c.untouched) ∧
      ∀ j, c.base.toNat + j < address ∨ address + count ≤ c.base.toNat + j → d.byte j = c.byte j)
    s.chunks s'.chunks

/-- The range starts below the greatest offset of a chunk and ends above it. -/
def Wraps (s : Space) (address : UInt64) (length : Int64) : Prop :=
  ∃ c, s.chunks.find? (fun c => c.base ≤ address) = some c ∧
    (address - c.base).toNat < 2 ^ 63 ∧ 2 ^ 63 ≤ (address - c.base).toNat + length.toInt

/-- The range is none of address zero or a negative length. It starts in the allocated part of a
chunk or above it, below the greatest offset, and ends above that. -/
def Overruns (s : Space) (address : UInt64) (length : Int64) : Prop :=
  (address ≠ 0 ∧ 0 ≤ length.toInt) ∧ ∃ c, s.chunks.find? (fun c => c.base ≤ address) = some c ∧
    c.top.toInt ≤ (address - c.base).toNat ∧ (address - c.base).toNat < 2 ^ 63 ∧
    2 ^ 63 ≤ (address - c.base).toNat + length.toInt

theorem Overruns.wraps (h : s.Overruns address length) : s.Wraps address length := by
  obtain ⟨-, c, hfind, -, hwraps⟩ := h
  exact ⟨c, hfind, hwraps⟩

theorem resolve_error (hs : ∀ c ∈ s.chunks, 0 ≤ c.top.toInt) {e : MemoryError}
    (h : s.resolve address length = .error e) :
    e.breakdown? = none ∨ e = .rangeWraps ∧ s.Overruns address length := by
  unfold resolve at h
  cases hfind : s.chunks.find? fun c => c.base ≤ address with
  | none =>
    rw [hfind] at h
    split_ifs at h <;> cases h <;> exact .inl rfl
  | some c =>
    simp only [hfind, Bool.or_eq_true, decide_eq_true_eq, Int64.lt_iff_toInt_lt,
      Int64.toInt_zero] at h
    split_ifs at h with hzero hneg hin hwraps <;> cases h
    case pos => exact .inl rfl
    case pos => exact .inl rfl
    case pos => exact .inl rfl
    have htop := hs c (List.mem_of_find?_eq_some hfind)
    have hoffset := toInt_toInt64_of_nonneg (x := address - c.base) (by omega)
    have hlt := (address - c.base).toInt64.toInt_lt
    refine .inr ⟨rfl, ⟨hzero, by omega⟩, c, hfind, by omega, by omega, ?_⟩
    by_contra hfits
    have hsum := toInt_add_of_bounds (a := (address - c.base).toInt64) (b := length)
      (by omega) (by omega)
    omega

theorem write_ok (hs : ∀ c ∈ s.chunks, 0 ≤ c.top.toInt) (h : s.write address bytes = .ok s')
    (hlength : bytes.length < 2 ^ 63) :
    s'.read address (.ofNat bytes.length) = .ok bytes ∧
    s.SameOutside s' address.toNat bytes.length ∧
      ∃ old, s.read address (.ofNat bytes.length) = .ok old := by
  obtain ⟨⟨c, offset⟩, hresolve, heq⟩ := Except.bind_eq_ok_iff.mp h
  cases heq
  obtain ⟨hrange, hfind, hoffset, hin, hwraps⟩ := resolve_eq_ok_iff.mp hresolve
  have hbase : c.base ≤ address := by simpa using List.find?_some hfind
  have hplace : address.toNat = c.base.toNat + offset.toInt.toNat := by
    have hnonneg := (hs c (List.mem_of_find?_eq_some hfind)).trans hin.1
    have hle := UInt64.le_iff_toNat_le.mp hbase
    have hdiff := toNat_sub_of_toNat_le hle
    rw [← hoffset] at hnonneg ⊢
    rw [toInt_toInt64_of_nonneg hnonneg, hdiff]
    omega
  have hfound := s.find?_modifyChunk c.base (f := fun c => c.write offset.toInt.toNat bytes)
    (fun c => c.write_base _ _) (· ≤ address)
  rw [hfind, Option.map_some, if_pos rfl] at hfound
  have hnew : (s.modifyChunk c.base fun c => c.write offset.toInt.toNat bytes).resolve address
      (.ofNat bytes.length) = .ok (c.write offset.toInt.toNat bytes, offset) := by
    refine resolve_eq_ok_iff.mpr ⟨hrange, hfound, ?_⟩
    rw [write_base, write_top, write_size]
    exact ⟨hoffset, hin, hwraps⟩
  have hcount : (Int64.ofNat bytes.length).toInt.toNat = bytes.length := by
    rw [toInt_ofNat_of_lt hlength]
    rfl
  refine ⟨?_, ⟨rfl, List.forall₂_map_right_iff.mpr (List.forall₂_same.mpr fun b _ => ?_)⟩, ?_⟩
  · show ((s.modifyChunk c.base _).resolve address _ >>= _) = _
    rw [hnew, hcount]
    exact congrArg Except.ok (read_write c _ bytes)
  · split
    · next hb =>
        refine ⟨⟨write_base .., write_size .., write_top .., write_untouched ..⟩,
          fun j hj => byte_write_outside ?_⟩
        rw [hb] at hj
        omega
    · exact ⟨⟨rfl, rfl, rfl, rfl⟩, fun _ _ => rfl⟩
  · rw [read, hresolve]
    exact ⟨_, rfl⟩

theorem write_error {e : MemoryError} (h : s.write address bytes = .error e) :
    s.resolve address (.ofNat bytes.length) = .error e ∧
      s.read address (.ofNat bytes.length) = .error e := by
  unfold write at h
  cases hresolve : s.resolve address (.ofNat bytes.length) with rw [hresolve] at h
  | ok r => cases h
  | error e' =>
    cases h
    rw [read, hresolve]
    exact ⟨rfl, rfl⟩

end Space

/-! ## Storing and loading -/

section Scalars

variable {d : DataLayout} {t : Ty} {v : RuntimeValue} {size : Int64}

theorem Space.load_scalar (s : Space) (ht : RuntimeKind.ofType t ≠ .undef)
    (hsize : d.sizeOf t = .ok size)
    (address : UInt64) : s.load d address t =
      match s.read address size with
      | .error e => .error (.ofAddress e)
      | .ok bytes => .ok ((RuntimeKind.ofType t).decode (decodeBytes d.littleEndian bytes)) := by
  have h := s.load_eq d address t
  rwa [if_neg ht, hsize] at h

theorem Space.store_scalar (s : Space) (ht : RuntimeKind.ofType t ≠ .undef) (hv : v.Suits t)
    (hsize : d.sizeOf t = .ok size) (address : UInt64) : s.store d address t v =
      (s.write address (encodeBytes d.littleEndian size.toInt.toNat v.bits)).mapError
      .ofAddress := by
  have hkind : ¬(!v.isUndef && decide (v.kind ≠ .ofType t)) = true := by
    rcases hv with hv | hv
    · simp [isUndef_iff.mpr hv]
    · simp [hv]
  rw [store_eq, if_neg ht, if_neg hkind, hsize]

theorem decode_stored (hv : v.Suits t) (hcanon : v.Canonical) {n : Nat} (hn : t.bitWidth ≤ 8 * n)
    (hptr : ∀ address, v = .ptr address → address.toNat < 2 ^ (8 * n)) (little : Bool) :
    (RuntimeKind.ofType t).decode (decodeBytes little (encodeBytes little n v.bits)) =
      if v = .undef then (RuntimeKind.ofType t).zero else v := by
  have hraw := decode_encode little n v.bits
  split
  · next hundef =>
      subst hundef
      rw [← RuntimeKind.decode_zero]
      exact congrArg _ (UInt64.toNat_inj.mp (hraw.trans (Nat.zero_mod _)))
  · next hundef =>
      have hne : v.kind ≠ .undef := fun h => hundef (hcanon.eq_undef h)
      exact decode_bits (hv.resolve_left hne) hne hcanon hn hptr hraw

/-- After a store the value is loaded from its address, a value without contents as zero, and no
other byte changed; a refused store changes nothing. Stores and loads are refused together, as an
invalid pointer unless the range wraps around. -/
theorem load_after_store (d : DataLayout) {t : Ty} (ht : RuntimeKind.ofType t ≠ .undef) {σ : Store}
    (hσ : ∀ c ∈ σ.space.chunks, 0 ≤ c.top.toInt) (address : UInt64) {v : RuntimeValue}
    (hv : v.Suits t)
    (hcanon : v.Canonical)
    (hptr : ∀ a, v = .ptr a → a.toNat < 2 ^ (8 * d.spec.ptr.size.toInt.toNat)) :
    ∃ size, d.sizeOf t = .ok size ∧
      match Access.store d address t v σ with
      | .ok _ σ' =>
        σ'.space.load d address t = .ok (if v = .undef then (RuntimeKind.ofType t).zero else v) ∧
          σ.space.SameOutside σ'.space address.toNat size.toInt.toNat ∧
          σ' = { σ with space := σ'.space } ∧ ∃ old, σ.space.load d address t = .ok old
      | .error e σ' =>
        σ' = σ ∧ σ.space.load d address t = .error e ∧
          ((∃ cause : FaultCause, e = .failure (.raise cause) ∧ cause.fault = .invalidPointer) ∨
            e = .breakdown .crash ∧ σ.space.Wraps address size) := by
  obtain ⟨size, hsize, hnonneg, hle, hbits⟩ := d.sizeOf_scalar ht
  have hcount := length_encodeBytes d.littleEndian size.toInt.toNat v.bits
  have hword : Int64.ofNat (encodeBytes d.littleEndian size.toInt.toNat v.bits).length = size := by
    rw [hcount, ofNat_toInt_toNat hnonneg]
  have hstore := σ.space.store_scalar ht hv hsize address
  have hrun : Access.store d address t v σ =
      (Access.ofExcept (σ.space.store d address t v) >>= fun s =>
        modify ({ · with space := s })) σ := rfl
  refine ⟨size, hsize, ?_⟩
  cases hwrite : σ.space.write address (encodeBytes d.littleEndian size.toInt.toNat v.bits) with
  | ok s' =>
    rw [hwrite] at hstore
    rw [hstore] at hrun
    obtain ⟨hread, hsame, old, hold⟩ := Space.write_ok hσ hwrite (by omega)
    rw [hword] at hread hold
    rw [hcount] at hsame
    rw [hrun]
    refine ⟨?_, hsame, rfl, _, by rw [Space.load_scalar _ ht hsize, hold]⟩
    refine (Space.load_scalar s' ht hsize address).trans ?_
    rw [hread]
    refine congrArg Except.ok (decode_stored hv hcanon hbits (fun a ha => ?_) _)
    obtain ⟨u, rfl⟩ : ∃ u, t = .pointer u := by
      subst ha
      rcases hv with hv | hv <;> cases t <;> cases hv
      exact ⟨_, rfl⟩
    cases hsize
    exact hptr a ha
  | error e =>
    rw [hwrite] at hstore
    rw [hstore] at hrun
    obtain ⟨hresolve, hread⟩ := Space.write_error hwrite
    rw [hword] at hresolve hread
    rw [hrun]
    refine ⟨rfl, by rw [Space.load_scalar _ ht hsize, hread], ?_⟩
    rcases Space.resolve_error hσ hresolve with hnone | ⟨rfl, hover⟩
    · exact .inl ⟨.badAddress e, by rw [Stop.ofAddress, hnone], rfl⟩
    · exact .inr ⟨rfl, hover.wraps⟩

def Store.small : Store where
  space := { chunks := [{ base := 0x10000, size := 16, top := 0, untouched := 0, bytes := {} }] }

/-- A negative 16-bit number in the middle of a chunk, and a range whose end wraps around. -/
theorem load_after_store_small :
    (∃ σ', Access.store .host 0x10004 (.int .w16) (.int .w16 (-2)) .small = .ok () σ' ∧
      σ'.space.load .host 0x10004 (.int .w16) = .ok (.int .w16 (-2)) ∧
      Store.small.space.SameOutside σ'.space 0x10004 2) ∧
    Store.small.space.Wraps 0x800000000000fffb 8 ∧
      Access.store .host 0x800000000000fffb .i64 (.int .w64 7) .small =
        .error (.breakdown .crash) .small := by
  have hlow : ∀ c ∈ Store.small.space.chunks, 0 ≤ c.top.toInt := by simp [Store.small]
  obtain ⟨size, hsize, h⟩ :=
    load_after_store .host (t := .int .w16) (σ := .small) (by decide) hlow 0x10004
    (v := .int .w16 (-2)) (.inr rfl) (RuntimeValue.canonical_ofInt .w16 (-2)) nofun
  cases hsize
  refine ⟨?_, ⟨_, rfl, by decide, by decide⟩, rfl⟩
  cases hrun : Access.store .host 0x10004 (.int .w16) (.int .w16 (-2)) .small with rw [hrun] at h
  | ok _ σ' => exact ⟨σ', rfl, h.1, h.2.1⟩
  | error e σ' =>
    have hload : Store.small.space.load .host 0x10004 (.int .w16) = .ok (.int .w16 0) := rfl
    cases hload.symm.trans h.2.1

end Scalars

end SsaIr
