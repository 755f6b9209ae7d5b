import SsaIr.Proofs.Container.Bitset

/-!
# Bitsets are finite sets

A history of operations on named bitsets of one size goes along with the same history of operations
on finite sets (`Bitset.acts_as_finite_sets`). `Holds` says that a bitset holds the members of a
set; it implies that the bits beyond the size are clear, on which counting and comparing rely.
-/

namespace SsaIr

open List

namespace Bitset

/-! ## What the operations do to the members -/

theorem testBit_andNot (v w : UInt64) {i : Nat} (hi : i < 64) :
    (v &&& ~~~w).toNat.testBit i = (v.toNat.testBit i && !w.toNat.testBit i) := by
  show (v &&& ~~~w).toBitVec.getLsbD i = (v.toBitVec.getLsbD i && !w.toBitVec.getLsbD i)
  simp [hi]

theorem contains_erase (b : Bitset) (i j : Nat) :
    (b.erase i).contains j = (b.contains j && !(i == j)) := by
  have hmod : j % 64 < 64 := Nat.mod_lt _ (by decide)
  rw [contains_eq, contains_eq, erase, Array.getD_modify]
  split
  · rename_i h
    rw [testBit_andNot _ _ hmod, bit_toNat, Nat.testBit_two_pow]
    congr 2
    rw [Bool.eq_iff_iff, decide_eq_true_eq, beq_iff_eq]
    omega
  · rename_i h
    by_cases hij : i = j
    · subst hij
      rw [Array.getD_of_not_lt _ fun hlt => h ⟨rfl, hlt⟩]
      simp
    · simp [hij]

/-- The bits below the size remain when the bits beyond it are cleared. -/
theorem contains_setAll (b : Bitset) (hwords : b.words.size = (b.size + 63) / 64) (i : Nat) :
    b.setAll.contains i = decide (i < b.size) := by
  have hmod : i % 64 < 64 := Nat.mod_lt _ (by decide)
  have hall : ∀ k, ((b.words.map fun _ => (~~~0 : UInt64)).getD k 0).toNat.testBit (i % 64) =
      decide (k < b.words.size) := by
    intro k
    by_cases hk : k < b.words.size
    · rw [Array.getD_of_lt _ (by rwa [Array.size_map]), Array.getElem_map, decide_eq_true hk]
      show (2 ^ 64 - 1).testBit (i % 64) = true
      rw [Nat.testBit_two_pow_sub_one, decide_eq_true hmod]
    · rw [Array.getD_of_not_lt _ (by rwa [Array.size_map]), UInt64.toNat_zero, Nat.zero_testBit,
        decide_eq_false hk]
  have hmask : (bit (b.size % 64) - 1).toNat.testBit (i % 64) = decide (i % 64 < b.size % 64) := by
    have hone : (1 : UInt64) ≤ bit (b.size % 64) := by
      rw [UInt64.le_iff_toNat_le, bit_toNat]
      exact Nat.two_pow_pos _
    rw [UInt64.toNat_sub_of_le _ _ hone, bit_toNat, Nat.mod_mod, UInt64.toNat_one,
      Nat.testBit_two_pow_sub_one]
  rw [contains_eq, setAll, trim]
  split
  · rename_i hfull
    have hfull : b.size % 64 = 0 := hfull
    rw [hall, decide_eq_decide]
    omega
  · rename_i hpart
    have hpart : ¬ b.size % 64 = 0 := hpart
    rw [Array.getD_modify, Array.size_map]
    split
    · rw [UInt64.toNat_and, Nat.testBit_and, hall, hmask, ← Bool.decide_and, decide_eq_decide]
      omega
    · rw [hall, decide_eq_decide]
      omega

/-- After some words of a target were set in place, these are combined from the words of the
operands as they were at first, even if one of them is the target: a word is read before it is
set. -/
theorem getD_foldl_combineWord (f : UInt64 → UInt64 → UInt64) (a b : Operand) (t : Bitset) {n : Nat}
    (hn : n ≤ t.words.size) :
    ((range n).foldl (combineWord f a b) t).size = t.size ∧
      ((range n).foldl (combineWord f a b) t).words.size = t.words.size ∧
      ∀ k, ((range n).foldl (combineWord f a b) t).words.getD k 0 =
        if k < n then f ((a.get t).words.getD k 0) ((b.get t).words.getD k 0)
        else t.words.getD k 0 := by
  induction n with
  | zero => exact ⟨rfl, rfl, fun k => rfl⟩
  | succ n ih =>
    obtain ⟨hsize, hwords, hget⟩ := ih (Nat.le_of_succ_le hn)
    rw [range_succ, foldl_append]
    generalize (range n).foldl (combineWord f a b) t = d at hsize hwords hget
    have hread : ∀ o : Operand, (o.get d).words.getD n 0 = (o.get t).words.getD n 0 := fun o => by
      cases o with
      | target => rw [Operand.get, hget, if_neg (lt_irrefl n), Operand.get]
      | other b => rfl
    refine ⟨hsize, Array.size_setIfInBounds.trans hwords, fun k => ?_⟩
    rw [foldl_cons, foldl_nil, combineWord, Array.getD_setIfInBounds, hread, hread, hget, hwords]
    grind

theorem length_ones (w : UInt64) : (ones w).length = wordCount w := by
  have hmem : ∀ i, i ∈ ones w ↔ i ∈ (range 64).filter fun i => w &&& bit i != 0 := fun i => by
    rw [mem_filter, mem_range, and_bit_ne_zero]
    refine ⟨fun hi => ⟨lt_of_mem_ones hi, ?_⟩, fun ⟨hlt, hi⟩ => (mem_ones w i).mpr ?_⟩
    · rwa [Nat.mod_eq_of_lt (lt_of_mem_ones hi), ← mem_ones]
    · rwa [Nat.mod_eq_of_lt hlt] at hi
  have hnodup : (ones w).Nodup := (ones_sorted w).imp Nat.ne_of_lt
  rw [wordCount, countP_eq_length_filter]
  exact ((perm_ext_iff_of_nodup hnodup (nodup_range.filter _)).mpr hmem).length_eq

theorem length_toList (b : Bitset) : b.toList.length = b.count := by
  have hwords : (range b.words.size).map (fun k => b.words.getD k 0) = b.words.toList :=
    ext_getElem (by simp) fun k hk hk' => by simp [Array.getElem?_eq_getElem (by simpa using hk')]
  rw [toList, length_flatMap, count, ← sum_eq_foldl, ← hwords, map_map]
  simp only [length_map, length_ones, Function.comp_def]

/-! ## Holding the members of a set -/

/-- The bits that are set stand for the elements of a set below `n`. -/
structure Holds (n : Nat) (b : Bitset) (s : Finset Nat) : Prop where
  size : b.size = n
  words : b.words.size = (n + 63) / 64
  mem : ∀ i, b.contains i = decide (i ∈ s)
  lt : ∀ i ∈ s, i < n

variable {n : Nat} {a b t : Bitset} {r s u : Finset Nat}

theorem holds_empty (n : Nat) : Holds n (empty n) ∅ where
  size := rfl
  words := Array.size_replicate
  mem i := by simp [contains_empty]
  lt := by simp

section

variable (h : Holds n b s)
include h

theorem Holds.index {i : Int} (hpos : 0 ≤ i) (hlt : i < n) : b.index i = .ok i.toNat := by
  rw [Bitset.index, if_pos (by simp [hpos, h.size, hlt])]

theorem Holds.insert {i : Nat} (hi : i < n) : Holds n (b.insert i) (Insert.insert i s) where
  size := h.size
  words := (words_insert b i).trans h.words
  mem j := by
    rw [contains_insert _ (by rw [h.words]; omega), h.mem]
    grind
  lt j hj := by
    rcases Finset.mem_insert.mp hj with rfl | hj
    · exact hi
    · exact h.lt j hj

theorem Holds.erase (i : Nat) : Holds n (b.erase i) (s.erase i) where
  size := h.size
  words := Array.size_modify.trans h.words
  mem j := by
    rw [contains_erase, h.mem]
    grind
  lt j hj := h.lt j (Finset.mem_of_mem_erase hj)

theorem Holds.setAll : Holds n b.setAll (Finset.range n) where
  size := by
    unfold Bitset.setAll trim
    split <;> exact h.size
  words := by
    unfold Bitset.setAll trim
    split <;> simp [h.words]
  mem i := by
    rw [contains_setAll _ (by rw [h.words, h.size]), h.size]
    simp
  lt i := mem_range.mp

theorem Holds.clearAll : Holds n b.clearAll ∅ where
  size := h.size
  words := Array.size_map.trans h.words
  mem i := by
    rw [contains_eq, Bitset.clearAll, Array.getD_eq_getD_getElem?, Array.getElem?_map]
    cases b.words[i / 64]? <;> simp
  lt := by simp

theorem Holds.checkSizes (ha : Holds n a u) (op : String) :
    Bitset.checkSizes op b [a] = .ok () := by
  rw [Bitset.checkSizes, if_pos (ha.size.trans h.size.symm)]
  rfl

theorem Holds.copy (ha : Holds n a u) : ∃ c, b.copy a = .ok c ∧ Holds n c u := by
  rw [Bitset.copy, h.checkSizes ha]
  exact ⟨_, rfl, h.size, ha.words, ha.mem, ha.lt⟩

end

/-- Two sets are combined in place when a function of words acts on each bit alone. -/
theorem Holds.combine {x y : Operand} (ht : t.Holds n r) (ha : (x.get t).Holds n s)
    (hb : (y.get t).Holds n u)
    {v : Finset Nat} {f : UInt64 → UInt64 → UInt64} {c : Bool → Bool → Bool} (op : String)
    (hf : f 0 0 = 0)
    (hbits : ∀ v w : UInt64, ∀ i < 64,
      (f v w).toNat.testBit i = c (v.toNat.testBit i) (w.toNat.testBit i))
    (hv : ∀ i, decide (i ∈ v) = c (decide (i ∈ s)) (decide (i ∈ u))) (hsub : v ⊆ s ∪ u) :
    ∃ d, combine op f t x y = .ok d ∧ Holds n d v := by
  have hcheck : Bitset.checkSizes op t [x.get t, y.get t] = .ok () := by
    rw [Bitset.checkSizes, if_pos (ha.size.trans ht.size.symm), Bitset.checkSizes,
      if_pos (hb.size.trans ht.size.symm)]
    rfl
  obtain ⟨hsize, hwords, hget⟩ := getD_foldl_combineWord f x y t le_rfl
  refine ⟨_, ?_, hsize.trans ht.size, hwords.trans ht.words, fun i => ?_, fun i hi => ?_⟩
  · rw [Bitset.combine, hcheck]
    rfl
  · have hword := hget (i / 64)
    rw [contains_eq, hword, hv, ← ha.mem, ← hb.mem, contains_eq, contains_eq,
      ← hbits _ _ _ (Nat.mod_lt _ (by decide))]
    split
    · rfl
    · next hge =>
      -- Beyond the last word, all of them read as zero.
      rw [ht.words] at hge
      rw [Array.getD_of_not_lt _ (by rwa [ha.words]),
        Array.getD_of_not_lt _ (by rwa [hb.words]), hf]
  · rcases Finset.mem_union.mp (hsub hi) with hi | hi
    · exact ha.lt i hi
    · exact hb.lt i hi

section

variable (h : Holds n b s)
include h

theorem Holds.mem_toList (i : Nat) : i ∈ b.toList ↔ i ∈ s := by
  rw [Bitset.mem_toList, h.mem, decide_eq_true_eq]

theorem Holds.count_eq : b.count = s.card := by
  have hset : b.toList.toFinset = s := by
    ext i
    rw [mem_toFinset, h.mem_toList]
  rw [← length_toList, ← hset, toFinset_card_of_nodup (b.toList_sorted.imp Nat.ne_of_lt)]

theorem Holds.words_eq_iff (ha : Holds n a u) : b.words = a.words ↔ s = u := by
  constructor
  · intro hwords
    ext i
    have hcontains : b.contains i = a.contains i := by rw [contains_eq, contains_eq, hwords]
    rw [h.mem, ha.mem] at hcontains
    exact decide_eq_decide.mp hcontains
  · rintro rfl
    exact congrArg Bitset.words (eq_of_contains (h.size.trans ha.size.symm)
      (h.words.trans ha.words.symm) fun i => (h.mem i).trans (ha.mem i).symm)

theorem Holds.isEmpty_iff : b.isEmpty = true ↔ s = ∅ := by
  rw [← h.words_eq_iff (holds_empty n), empty, Bitset.isEmpty, Array.all_eq_true_iff_forall_mem,
    Array.eq_replicate_iff]
  simp [h.words]

theorem Holds.equal_eq (ha : Holds n a u) : b.equal a = .ok (decide (s = u)) := by
  rw [Bitset.equal, h.checkSizes ha]
  exact congrArg Except.ok (decide_eq_decide.mpr (h.words_eq_iff ha))

theorem Holds.test_eq {i : Int} (hpos : 0 ≤ i) (hlt : i < n) :
    b.test i = .ok (decide (i.toNat ∈ s)) := by
  rw [Bitset.test, h.index hpos hlt, ← h.mem]
  rfl

end

/-! ## Histories -/

end Bitset

/-- What is done to a named set. The other sets taking part are named too, and may be the same
one. -/
inductive BitsetOp where
  | new
  | newAll
  | set (i : Int)
  | clear (i : Int)
  | setAll
  | clearAll
  | union (a b : Nat)
  | intersect (a b : Nat)
  | difference (a b : Nat)
  | copyFrom (a : Nat)
  | clone (a : Nat)

namespace BitsetOp

variable {n : Nat} {bits : Nat → Bitset} {sets : Nat → Finset Nat}

def InRange (n : Nat) : BitsetOp → Prop
  | set i | clear i => 0 ≤ i ∧ i < n
  | _ => True

/-- A named set as it takes part in an operation on another one, or on itself. -/
def operand (bits : Nat → Bitset) (x a : Nat) : Bitset.Operand :=
  if a = x then .target else .other (bits a)

def result (n : Nat) (bits : Nat → Bitset) (x : Nat) : BitsetOp → Except BitsetError Bitset
  | new => Bitset.new n
  | newAll => (Bitset.new n).map .setAll
  | set i => (bits x).set i
  | clear i => (bits x).clear i
  | setAll => .ok (bits x).setAll
  | clearAll => .ok (bits x).clearAll
  | union a b => (bits x).union (operand bits x a) (operand bits x b)
  | intersect a b => (bits x).intersect (operand bits x a) (operand bits x b)
  | difference a b => (bits x).difference (operand bits x a) (operand bits x b)
  | copyFrom a => (bits x).copy (bits a)
  | clone a => do (← Bitset.new (bits a).size).copy (bits a)

def members (n : Nat) (sets : Nat → Finset Nat) (x : Nat) : BitsetOp → Finset Nat
  | new | clearAll => ∅
  | newAll | setAll => Finset.range n
  | set i => insert i.toNat (sets x)
  | clear i => (sets x).erase i.toNat
  | union a b => sets a ∪ sets b
  | intersect a b => sets a ∩ sets b
  | difference a b => sets a \ sets b
  | copyFrom a | clone a => sets a

/-- The bitsets after a history, each operation of which names its target. -/
def run (n : Nat) (bits : Nat → Bitset) (ops : List (Nat × BitsetOp)) :
    Except BitsetError (Nat → Bitset) :=
  ops.foldlM (fun bits op => return Function.update bits op.1 (← op.2.result n bits op.1)) bits

/-- The sets after the same history. -/
def runSets (n : Nat) (sets : Nat → Finset Nat) (ops : List (Nat × BitsetOp)) : Nat → Finset Nat :=
  ops.foldl (fun sets op => Function.update sets op.1 (op.2.members n sets op.1)) sets

theorem result_holds (h : ∀ x, (bits x).Holds n (sets x)) (x : Nat) {op : BitsetOp}
    (hop : op.InRange n) :
    ∃ b, op.result n bits x = .ok b ∧ b.Holds n (op.members n sets x) := by
  have hnew : Bitset.new n = .ok (.empty n) := if_neg (by omega)
  have hempty := Bitset.holds_empty n
  have hoperand : ∀ a, ((operand bits x a).get (bits x)).Holds n (sets a) := fun a => by
    unfold operand
    split
    · next hax => exact hax ▸ h x
    · exact h a
  cases op with
  | new => exact ⟨_, hnew, hempty⟩
  | newAll => exact ⟨_, congrArg (Except.map Bitset.setAll) hnew, hempty.setAll⟩
  | set i =>
    obtain ⟨hpos, hlt⟩ := hop
    refine ⟨_, ?_, (h x).insert (by omega : i.toNat < n)⟩
    rw [result, Bitset.set, (h x).index hpos hlt]
    rfl
  | clear i =>
    refine ⟨_, ?_, (h x).erase i.toNat⟩
    rw [result, Bitset.clear, (h x).index hop.1 hop.2]
    rfl
  | setAll => exact ⟨_, rfl, (h x).setAll⟩
  | clearAll => exact ⟨_, rfl, (h x).clearAll⟩
  | union a b =>
    exact (h x).combine (hoperand a) (hoperand b) (c := (· || ·)) _ rfl (by simp)
      (by simp [members])
      Finset.Subset.rfl
  | intersect a b =>
    exact (h x).combine (hoperand a) (hoperand b) (c := (· && ·)) _ rfl (by simp)
      (by simp [members])
      (Finset.inter_subset_left.trans Finset.subset_union_left)
  | difference a b =>
    exact (h x).combine (hoperand a) (hoperand b) (c := (· && !·)) _ rfl
      (fun v w _ => Bitset.testBit_andNot v w)
      (by simp [members]) (Finset.sdiff_subset.trans Finset.subset_union_left)
  | copyFrom a => exact (h x).copy (h a)
  | clone a =>
    obtain ⟨c, hc, hholds⟩ := hempty.copy (h a)
    refine ⟨c, ?_, hholds⟩
    rw [result, (h a).size, hnew]
    exact hc

theorem run_holds (h : ∀ x, (bits x).Holds n (sets x)) (ops : List (Nat × BitsetOp))
    (hops : ∀ op ∈ ops, op.2.InRange n) :
    ∃ bits', run n bits ops = .ok bits' ∧ ∀ x, (bits' x).Holds n (runSets n sets ops x) := by
  induction ops generalizing bits sets with
  | nil => exact ⟨bits, rfl, h⟩
  | cons op ops ih =>
    obtain ⟨b, hb, hholds⟩ := result_holds h op.1 (hops _ (.head _))
    have hnext : ∀ y, (Function.update bits op.1 b y).Holds n
        (Function.update sets op.1 (op.2.members n sets op.1) y) := by
      intro y
      by_cases hy : y = op.1
      · subst hy
        rwa [Function.update_self, Function.update_self]
      · rw [Function.update_of_ne hy, Function.update_of_ne hy]
        exact h y
    obtain ⟨bits', hrun, hall⟩ := ih hnext fun op hop => hops op (.tail _ hop)
    refine ⟨bits', ?_, hall⟩
    rw [run, foldlM_cons, hb]
    exact hrun

end BitsetOp

namespace Bitset

/-- Bitsets are sets: every history of operations on new sets of one size, with indices in range,
goes through, and then the tests, counts, comparisons and members listed are those of the subsets
that the same history gives. -/
theorem acts_as_finite_sets (n : Nat) (ops : List (Nat × BitsetOp))
    (hops : ∀ op ∈ ops, op.2.InRange n) :
    ∃ bits, BitsetOp.run n (fun _ => empty n) ops = .ok bits ∧
      ∀ x s, s = BitsetOp.runSets n (fun _ => ∅) ops x → s ⊆ Finset.range n ∧
        (∀ i : Int, 0 ≤ i → i < n → (bits x).test i = .ok (decide (i.toNat ∈ s))) ∧
        (bits x).count = s.card ∧ ((bits x).isEmpty = true ↔ s = ∅) ∧
        (∀ y, (bits x).equal (bits y) = .ok (decide (s = BitsetOp.runSets n (fun _ => ∅) ops y))) ∧
        (bits x).toList.Pairwise (· < ·) ∧ ∀ i, i ∈ (bits x).toList ↔ i ∈ s := by
  obtain ⟨bits, hrun, hall⟩ := BitsetOp.run_holds (fun _ => holds_empty n) ops hops
  refine ⟨bits, hrun, fun x s hs => ?_⟩
  have h : (bits x).Holds n s := hs ▸ hall x
  exact ⟨fun i hi => Finset.mem_range.mpr (h.lt i hi), fun i => h.test_eq, h.count_eq,
    h.isEmpty_iff,
    fun y => h.equal_eq (hall y), (bits x).toList_sorted, h.mem_toList⟩

/-- A set of 70 numbers, more than one word holds, whose last word is not full. -/
theorem acts_as_finite_sets_seventy : ∃ bits, BitsetOp.run 70 (fun _ => empty 70)
      [(0, .newAll), (1, .set 69), (0, .difference 0 1), (0, .clear 3)] = .ok bits ∧
    (bits 0).count = ((Finset.range 70 \ {69}).erase 3).card := by
  obtain ⟨bits, hrun, hall⟩ := acts_as_finite_sets 70
    [(0, .newAll), (1, .set 69), (0, .difference 0 1), (0, .clear 3)] (by simp [BitsetOp.InRange])
  exact ⟨bits, hrun, (hall 0 _ rfl).2.2.1⟩

end Bitset

end SsaIr
