import SsaIr.Proofs.Container.Probing

/-!
# What hash tables keep up

`HashTable.Valid` is what every operation on a table keeps up: there are a power of two slots, the
entries and the marks of removed ones are counted and take at most three quarters of them, keys are
stored once, and no empty slot stands before an entry on the probe sequence of its key. A slot is
assigned something that is not empty by every change of a table, so `Valid.assign` carries all of
them. Read `Valid` and `Valid.find?_eq_some_iff` first.
-/

namespace SsaIr

open List

/-- Keys that are the same hash alike, and sameness is an equivalence of the keys that can be
stored; a key that cannot be stored is not even the same as itself. -/
structure KeyRules.Lawful {κ : Type} (r : KeyRules κ) : Prop where
  symm : ∀ {a b}, r.same a b = true → r.same b a = true
  trans : ∀ {a b c}, r.same a b = true → r.same b c = true → r.same a c = true
  hash_eq : ∀ {a b}, r.same a b = true → r.hash a = r.hash b
  stored : ∀ {k k'}, r.storedForm k = some k' → r.same k' k = true
  refused : ∀ {k}, r.storedForm k = none → r.same k k = false

namespace KeyRules.Lawful

variable {κ : Type} {r : KeyRules κ}

theorem same_congr (hr : r.Lawful) {a b : κ} (h : r.same a b = true) (c : κ) :
    r.same a c = r.same b c := by
  rw [Bool.eq_iff_iff]
  exact ⟨fun hac => hr.trans (hr.symm h) hac, fun hbc => hr.trans h hbc⟩

theorem same_comm (hr : r.Lawful) (a b : κ) : r.same a b = r.same b a := by
  rw [Bool.eq_iff_iff]
  exact ⟨hr.symm, hr.symm⟩

end KeyRules.Lawful

def Slot.isRemoved {κ ν : Type} : Slot κ ν → Bool
  | removed => true
  | _ => false

namespace HashTable

variable {κ ν : Type} {r : KeyRules κ} {t : HashTable κ ν}

theorem start_lt {capacity : Nat} (h : 0 < capacity) (r : KeyRules κ) (k : κ) :
    start r capacity k < capacity :=
  Nat.mod_lt _ h

theorem start_eq_of_same (hr : r.Lawful) {a b : κ} (h : r.same a b = true) (capacity : Nat) :
    start r capacity a = start r capacity b := by
  unfold start
  rw [hr.hash_eq h]

/-- A key leads to a slot: on its probe sequence no empty slot stands before it. -/
def Leads (r : KeyRules κ) (slots : Array (Slot κ ν)) (k : κ) (i : Nat) : Prop :=
  ∃ n < slots.size, probe slots.size (start r slots.size k) n = i ∧
    ∀ m < n, ∃ slot, visited slots (start r slots.size k) m = some slot ∧ slot ≠ .empty

/-- The invariant of a table: each key is filled in once, where probing finds it. -/
structure Valid (r : KeyRules κ) (t : HashTable κ ν) : Prop where
  power : ∃ e, t.slots.size = 2 ^ e
  least : 2 ≤ t.slots.size
  filled : t.size = t.slots.toList.countP Slot.isFilled
  marked : t.removed = t.slots.toList.countP Slot.isRemoved
  room : (t.size + t.removed) * 4 ≤ t.slots.size * 3
  once : ∀ {i j : Nat} {key key' v v'}, t.slots[i]? = some (.filled key v) →
    t.slots[j]? = some (.filled key' v') →
    r.same key key' = true → i = j
  self : ∀ {i : Nat} {key v}, t.slots[i]? = some (.filled key v) → r.same key key = true
  leads : ∀ {i : Nat} {key v}, t.slots[i]? = some (.filled key v) → Leads r t.slots key i

/-! ## Finding -/

theorem Valid.find?_eq_some_iff (ht : t.Valid r) (hr : r.Lawful) {k : κ} {i : Nat} :
    t.find? r k = some i ↔ ∃ key v, t.slots[i]? = some (.filled key v) ∧ r.same key k = true := by
  have hstart := start_lt (Nat.lt_of_lt_of_le Nat.two_pos ht.least) r k
  have hfound : ∀ {j}, t.find? r k = some j → ∃ key v, t.slots[j]? = some (.filled key v) ∧
      r.same key k = true := fun h => holdsAt_iff.mp (find?_some ((seek_eq hstart).symm.trans h))
  refine ⟨hfound, ?_⟩
  intro ⟨key, v, hslot, hsame⟩
  obtain ⟨n, hn, hprobe, hpath⟩ := ht.leads hslot
  rw [start_eq_of_same hr hsame] at hprobe hpath
  have hsome : (t.find? r k).isSome = true :=
    seek_isSome hstart hn (holdsAt_iff.mpr ⟨key, v, hprobe ▸ hslot, hsame⟩) hpath
  -- the entry that is found is the one given, as a key is stored once
  obtain ⟨j, hj⟩ := Option.isSome_iff_exists.mp hsome
  obtain ⟨key', v', hslot', hsame'⟩ := hfound hj
  rw [hj, ht.once hslot' hslot (hr.trans hsame' (hr.symm hsame))]

theorem slot_entry?_iff {slot : Slot κ ν} {e : κ × ν} :
    slot.entry? = some e ↔ slot = .filled e.1 e.2 := by
  cases slot <;> simp [Slot.entry?, Prod.ext_iff]

theorem mem_toList {e : κ × ν} :
    e ∈ t.toList ↔ ∃ i : Nat, t.slots[i]? = some (.filled e.1 e.2) := by
  unfold toList
  rw [mem_filterMap]
  simp only [slot_entry?_iff, exists_eq_right, Array.mem_toList_iff, Array.mem_iff_getElem?]

theorem Valid.entry?_eq_some_iff (ht : t.Valid r) (hr : r.Lawful) {k : κ} {e : κ × ν} :
    t.entry? r k = some e ↔ e ∈ t.toList ∧ r.same e.1 k = true := by
  rw [mem_toList]
  constructor
  · intro h
    obtain ⟨i, hfind, h⟩ := Option.bind_eq_some_iff.mp h
    obtain ⟨key, v, hslot, hsame⟩ := (ht.find?_eq_some_iff hr).mp hfind
    rw [hslot] at h
    cases h
    exact ⟨⟨i, hslot⟩, hsame⟩
  · intro ⟨⟨i, hslot⟩, hsame⟩
    have hfind := (ht.find?_eq_some_iff hr).mpr ⟨_, _, hslot, hsame⟩
    exact Option.bind_eq_some_iff.mpr ⟨i, hfind, by rw [hslot]; rfl⟩

theorem Valid.not_same_of_find?_eq_none (ht : t.Valid r) (hr : r.Lawful) {k : κ}
    (h : t.find? r k = none) :
    ∀ e ∈ t.toList, r.same e.1 k = false := by
  intro e he
  by_contra hsame
  rw [Bool.not_eq_false] at hsame
  obtain ⟨i, hslot⟩ := mem_toList.mp he
  rw [(ht.find?_eq_some_iff hr).mpr ⟨_, _, hslot, hsame⟩] at h
  cases h

theorem Valid.toList_apart (ht : t.Valid r) : t.toList.Pairwise fun a b =>
    r.same a.1 b.1 = false := by
  unfold toList
  rw [pairwise_filterMap, pairwise_iff_getElem]
  intro i j hi hj hij a ha b hb
  have hslot : ∀ {n : Nat} (hn : n < t.slots.toList.length) {e : κ × ν},
      Slot.entry? t.slots.toList[n] = some e → t.slots[n]? = some (.filled e.1 e.2) := by
    intro n hn e he
    rw [Array.getElem_toList, slot_entry?_iff] at he
    rw [Array.getElem?_eq_getElem hn, he]
  by_contra hsame
  rw [Bool.not_eq_false] at hsame
  have heq := ht.once (hslot hi ha) (hslot hj hb) hsame
  omega

theorem length_toList (t : HashTable κ ν) :
    t.toList.length = t.slots.toList.countP Slot.isFilled := by
  unfold toList
  rw [length_filterMap_eq_countP]
  congr 1
  funext slot
  cases slot <;> rfl

theorem Valid.length_toList (ht : t.Valid r) : t.toList.length = t.size := by
  rw [HashTable.length_toList, ht.filled]

/-! ## Assigning a slot -/

def assign (t : HashTable κ ν) (i : Nat) (new : Slot κ ν) (size removed : Nat) : HashTable κ ν :=
  { slots := t.slots.setIfInBounds i new, size, removed }

section Assign

variable {i : Nat} {old new : Slot κ ν}

section

variable (hold : t.slots[i]? = some old)
include hold

theorem assign_slots {size removed j : Nat} :
    (t.assign i new size removed).slots[j]? = if i = j then some new else t.slots[j]? := by
  have hi := (Array.getElem?_eq_some_iff.mp hold).1
  show (t.slots.setIfInBounds i new)[j]? = _
  rw [Array.getElem?_setIfInBounds]
  by_cases hij : i = j
  · rw [if_pos hij, if_pos hij, if_pos hi]
  · rw [if_neg hij, if_neg hij]

theorem mem_assign {size removed : Nat} {e : κ × ν} : e ∈ (t.assign i new size removed).toList ↔
    new.entry? = some e ∨ ∃ j ≠ i, t.slots[j]? = some (.filled e.1 e.2) := by
  simp only [mem_toList, assign_slots hold, slot_entry?_iff]
  constructor
  · rintro ⟨j, hj⟩
    split at hj
    · exact .inl (Option.some.inj hj)
    · next hij => exact .inr ⟨j, Ne.symm hij, hj⟩
  · rintro (hnew | ⟨j, hij, hj⟩)
    · exact ⟨i, by rw [if_pos rfl, hnew]⟩
    · exact ⟨j, by rw [if_neg (Ne.symm hij), hj]⟩

theorem leads_assign (hnew : new ≠ .empty) {k : κ} {j size removed : Nat}
    (h : Leads r t.slots k j) : Leads r (t.assign i new size removed).slots k j := by
  obtain ⟨n, hn, hprobe, hpath⟩ := h
  have hsize : (t.assign i new size removed).slots.size = t.slots.size := Array.size_setIfInBounds
  unfold Leads
  rw [hsize]
  refine ⟨n, hn, hprobe, fun m hm => ?_⟩
  unfold visited
  rw [hsize, assign_slots hold]
  split
  · exact ⟨new, rfl, hnew⟩
  · exact hpath m hm

end

/-- A slot may be assigned something that is not empty: a mark, or an entry that leads there and
whose key stands nowhere else. -/
theorem Valid.assign (ht : t.Valid r) (hr : r.Lawful) (hold : t.slots[i]? = some old)
    (hnew : new ≠ .empty)
    {size removed : Nat}
    (hsize : size = t.size - old.isFilled.toNat + new.isFilled.toNat)
    (hremoved : removed = t.removed - old.isRemoved.toNat + new.isRemoved.toNat)
    (hroom : (size + removed) * 4 ≤ t.slots.size * 3)
    (hentry : ∀ {key v}, new = .filled key v → r.same key key = true ∧ Leads r t.slots key i ∧
      ∀ {j : Nat} {key' v'}, j ≠ i → t.slots[j]? = some (.filled key' v') →
      r.same key key' = false) :
    (t.assign i new size removed).Valid r := by
  obtain ⟨hi, hget⟩ := Array.getElem?_eq_some_iff.mp hold
  have hlen : i < t.slots.toList.length := by rwa [Array.length_toList]
  have hlength : (t.assign i new size removed).slots.size = t.slots.size := Array.size_setIfInBounds
  have hcount : ∀ p : Slot κ ν → Bool, (t.slots.setIfInBounds i new).toList.countP p =
      t.slots.toList.countP p - (p old).toNat + (p new).toNat := by
    intro p
    rw [Array.toList_setIfInBounds, countP_set hlen, Array.getElem_toList, hget]
    cases p old <;> cases p new <;> rfl
  refine ⟨?_, ?_, ?_, ?_, ?_, ?_, ?_, ?_⟩
  · rw [hlength]
    exact ht.power
  · rw [hlength]
    exact ht.least
  · rw [hsize, ht.filled]
    exact (hcount _).symm
  · rw [hremoved, ht.marked]
    exact (hcount _).symm
  · rwa [hlength]
  · intro a b key key' v v' ha hb hsame
    rw [assign_slots hold] at ha hb
    split at ha <;> split at hb
    · omega
    · rename_i hia hib
      have hfree := (hentry (Option.some.inj ha)).2.2 (Ne.symm hib) hb
      rw [hsame] at hfree
      cases hfree
    · rename_i hia hib
      have hfree := (hentry (Option.some.inj hb)).2.2 (Ne.symm hia) ha
      rw [hr.same_comm, hsame] at hfree
      cases hfree
    · exact ht.once ha hb hsame
  · intro a key v ha
    rw [assign_slots hold] at ha
    split at ha
    · exact (hentry (Option.some.inj ha)).1
    · exact ht.self ha
  · intro a key v ha
    rw [assign_slots hold] at ha
    split at ha
    · rename_i hia
      exact leads_assign hold hnew (hia ▸ (hentry (Option.some.inj ha)).2.1)
    · exact leads_assign hold hnew (ht.leads ha)

end Assign

/-! ## The operations -/

theorem slotsFor_power (least : Nat) {n e : Nat} (hn : n = 2 ^ e) :
    ∃ e', slotsFor least n = 2 ^ e' ∧ n ≤ slotsFor least n := by
  fun_induction slotsFor least n generalizing e with
  | case1 n _ => exact ⟨e, hn, le_rfl⟩
  | case2 n _ ih =>
    obtain ⟨e', heq, hle⟩ := ih (e := e + 1) (by rw [hn, Nat.pow_succ'])
    exact ⟨e', heq, by omega⟩

theorem valid_ofCapacity {e n : Nat} (hn : n = 2 ^ e) (hle : 2 ≤ n) :
    (ofCapacity n : HashTable κ ν).Valid r := by
  have hsize : (ofCapacity n : HashTable κ ν).slots.size = n := Array.size_replicate
  have hempty : ∀ {i : Nat} {key : κ} {v : ν},
      (ofCapacity n : HashTable κ ν).slots[i]? ≠ some (.filled key v) := by
    intro i key v h
    have hget : (Array.replicate n (Slot.empty : Slot κ ν))[i]? = some (.filled key v) := h
    rw [Array.getElem?_replicate] at hget
    split at hget <;> cases hget
  have hcount : ∀ p : Slot κ ν → Bool, p .empty = false →
      (ofCapacity n : HashTable κ ν).slots.toList.countP p = 0 := by
    intro p hp
    rw [countP_eq_zero]
    intro slot hslot
    have hslot : slot ∈ Array.replicate n (Slot.empty : Slot κ ν) := ⟨hslot⟩
    rw [(Array.mem_replicate.mp hslot).2, hp]
    exact Bool.false_ne_true
  exact
    { power := ⟨e, by rw [hsize, hn]⟩
      least := by rw [hsize]; exact hle
      filled := (hcount _ rfl).symm
      marked := (hcount _ rfl).symm
      room := Nat.zero_le _
      once := fun h => absurd h hempty
      self := fun h => absurd h hempty
      leads := fun h => absurd h hempty }

theorem capacity_ofCapacity (slots : Nat) : (ofCapacity slots : HashTable κ ν).capacity = slots :=
  Array.size_replicate

theorem toList_ofCapacity (n : Nat) : (ofCapacity n : HashTable κ ν).toList = [] := by
  rw [eq_nil_iff_forall_not_mem]
  intro e he
  obtain ⟨i, hslot⟩ := mem_toList.mp he
  have hget : (Array.replicate n (Slot.empty : Slot κ ν))[i]? = some (.filled e.1 e.2) := hslot
  rw [Array.getElem?_replicate] at hget
  split at hget <;> cases hget

theorem valid_new (wanted : Int64) : (new wanted : HashTable κ ν).Valid r := by
  obtain ⟨e, heq, hle⟩ :=
    slotsFor_power (wanted * 4).toInt.toNat (show leastCapacity = 2 ^ 3 from rfl)
  refine valid_ofCapacity heq (le_trans ?_ hle)
  decide

theorem store_grows (r : KeyRules κ) (t : HashTable κ ν) (k : κ) (v : ν) :
    (t.store r k v).capacity = t.capacity ∧ (t.store r k v).size ≤ t.size + 1 ∧
      (t.store r k v).removed ≤ t.removed := by
  unfold store
  split
  · exact ⟨rfl, by omega, le_rfl⟩
  · refine ⟨Array.size_setIfInBounds, le_rfl, ?_⟩
    dsimp only
    split
    · exact Nat.sub_le _ _
    · exact le_rfl

theorem foldl_store_grows (r : KeyRules κ) (es : List (κ × ν)) (t : HashTable κ ν) :
    (es.foldl (fun t e => t.store r e.1 e.2) t).capacity = t.capacity ∧
      (es.foldl (fun t e => t.store r e.1 e.2) t).size +
        (es.foldl (fun t e => t.store r e.1 e.2) t).removed ≤ t.size + t.removed + es.length := by
  induction es generalizing t with
  | nil => exact ⟨rfl, le_rfl⟩
  | cons e es ih =>
    obtain ⟨hcap, hsize, hmarks⟩ := store_grows r t e.1 e.2
    obtain ⟨hcap', hle⟩ := ih (t.store r e.1 e.2)
    rw [foldl_cons, length_cons]
    exact ⟨hcap'.trans hcap, by omega⟩

section

variable (ht : t.Valid r)
include ht

theorem Valid.clear : t.clear.Valid r := by
  obtain ⟨e, he⟩ := ht.power
  exact valid_ofCapacity he ht.least

theorem Valid.exists_vacant : ∃ (i : Nat) (slot : Slot κ ν), t.slots[i]? = some slot ∧
    slot.isFilled = false := by
  by_contra hall
  push Not at hall
  have hroom := ht.room
  have hleast := ht.least
  have hcount : t.slots.toList.countP Slot.isFilled = t.slots.toList.length := by
    rw [countP_eq_length]
    intro slot hslot
    obtain ⟨i, hget⟩ := Array.mem_iff_getElem?.mp ⟨hslot⟩
    exact (Bool.not_eq_false _).mp (hall i slot hget)
  rw [← ht.filled, Array.length_toList] at hcount
  omega

theorem Valid.exists_vacancy (k : κ) :
    ∃ i, vacancy t.slots t.capacity 1 (start r t.capacity k) = some i := by
  obtain ⟨e, he⟩ := ht.power
  obtain ⟨i, slot, hslot, hvacant⟩ := ht.exists_vacant
  have hstart := start_lt (Nat.lt_of_lt_of_le Nat.two_pos ht.least) r k
  exact HashTable.exists_vacancy hstart he (vacantAt_iff.mpr ⟨slot, hslot, hvacant⟩)

theorem Valid.store (hr : r.Lawful) {k : κ} (v : ν) (hself : r.same k k = true)
    (hfree : ∀ e ∈ t.toList, r.same e.1 k = false)
    (hroom : (t.size + t.removed + 1) * 4 ≤ t.slots.size * 3) :
    (t.store r k v).Valid r ∧ ∀ e, e ∈ (t.store r k v).toList ↔ e = (k, v) ∨ e ∈ t.toList := by
  obtain ⟨i, hvacancy⟩ := ht.exists_vacancy k
  obtain ⟨b, hb, hi, ⟨old, hold, hvacant⟩, hpath⟩ :=
    vacancy_eq_some (start_lt (show 0 < t.slots.size by omega) r k) hvacancy
  -- what is stored takes a slot that was empty or had a mark
  have hstore : t.store r k v =
      t.assign i (.filled k v) (t.size + 1) (t.removed - old.isRemoved.toNat) := by
    unfold HashTable.store
    simp only [hvacancy, hold]
    cases old with
    | empty => rfl
    | removed => rfl
    | filled => cases hvacant
  have hleads : Leads r t.slots k i := by
    refine ⟨b, hb, hi.symm, fun m hm => ?_⟩
    obtain ⟨key, w, hvisited⟩ := hpath m hm
    exact ⟨_, hvisited, by simp⟩
  rw [hstore]
  refine ⟨?_, fun e => ?_⟩
  · refine ht.assign hr hold (by simp) ?_ rfl (by omega) fun {key w} hnew => ?_
    · rw [hvacant]
      rfl
    · cases hnew
      refine ⟨hself, hleads, fun {j key' v'} hj hslot => ?_⟩
      rw [hr.same_comm]
      exact hfree (key', v') (mem_toList.mpr ⟨j, hslot⟩)
  · rw [mem_assign hold, mem_toList, slot_entry?_iff]
    grind [Slot.isFilled]

theorem Valid.storeAll (hr : r.Lawful) (es : List (κ × ν))
    (hself : ∀ e ∈ es, r.same e.1 e.1 = true)
    (hapart : es.Pairwise fun a b => r.same a.1 b.1 = false)
    (hfree : ∀ a ∈ t.toList, ∀ e ∈ es, r.same a.1 e.1 = false)
    (hroom : (t.size + t.removed + es.length) * 4 ≤ t.slots.size * 3) :
    (es.foldl (fun t e => t.store r e.1 e.2) t).Valid r ∧
      ∀ e, e ∈ (es.foldl (fun t e => t.store r e.1 e.2) t).toList ↔ e ∈ t.toList ∨ e ∈ es := by
  induction es generalizing t with
  | nil => exact ⟨ht, by simp⟩
  | cons e es ih =>
    rw [length_cons] at hroom
    obtain ⟨hfirst, hapart⟩ := pairwise_cons.mp hapart
    obtain ⟨hsize, hlive, hmarks⟩ := store_grows r t e.1 e.2
    have hsize : (t.store r e.1 e.2).slots.size = t.slots.size := hsize
    obtain ⟨hvalid, hmem⟩ :=
      ht.store hr e.2 (hself e (.head _)) (fun a ha => hfree a ha e (.head _)) (by omega)
    obtain ⟨hvalid', hmem'⟩ := ih hvalid (fun a ha => hself a (.tail _ ha)) hapart (by grind)
      (by omega)
    refine ⟨hvalid', fun a => ?_⟩
    rw [foldl_cons, hmem', hmem, mem_cons]
    grind

end

def rebuiltCapacity (t : HashTable κ ν) : Nat :=
  if t.capacity < (t.size + 1) * 2 then 2 * t.capacity else t.capacity

theorem Valid.rebuiltCapacity_spec (ht : t.Valid r) : (∃ e, t.rebuiltCapacity = 2 ^ e) ∧
    2 ≤ t.rebuiltCapacity ∧ (t.size + 1) * 4 ≤ t.rebuiltCapacity * 3 := by
  obtain ⟨e, he⟩ := ht.power
  have hleast := ht.least
  have hroom := ht.room
  unfold rebuiltCapacity
  have hcapacity : t.capacity = t.slots.size := rfl
  split
  · exact ⟨⟨e + 1, by rw [hcapacity, he, Nat.pow_succ']⟩, by omega, by omega⟩
  · exact ⟨⟨e, he⟩, by omega, by omega⟩

theorem Valid.self_of_mem (ht : t.Valid r) : ∀ e ∈ t.toList, r.same e.1 e.1 = true := by
  intro e he
  obtain ⟨i, hslot⟩ := mem_toList.mp he
  exact ht.self hslot

/-- While a table is built anew, every stretch of its entries is stored in a table that is valid, so
that the search for the next vacancy ends. -/
theorem Valid.rebuild_part (ht : t.Valid r) (hr : r.Lawful) {pre post : List (κ × ν)}
    (hsplit : t.toList = pre ++ post) :
    (pre.foldl (fun t e => t.store r e.1 e.2) (ofCapacity t.rebuiltCapacity)).Valid r ∧
      ∀ e, e ∈ (pre.foldl (fun t e => t.store r e.1 e.2) (ofCapacity t.rebuiltCapacity)).toList ↔
      e ∈ pre := by
  obtain ⟨⟨e, he⟩, hleast, hroom⟩ := ht.rebuiltCapacity_spec
  have hlength : pre.length + post.length = t.size := by
    rw [← ht.length_toList, hsplit, length_append]
  have hapart := ht.toList_apart
  rw [hsplit] at hapart
  have hall :=
    (show (ofCapacity t.rebuiltCapacity : HashTable κ ν).Valid r
      from valid_ofCapacity he hleast).storeAll hr pre
    (fun a ha => ht.self_of_mem a (hsplit ▸ mem_append_left post ha)) (pairwise_append.mp hapart).1
    (by simp [toList_ofCapacity])
    (by
      show (0 + 0 + pre.length) * 4 ≤ (ofCapacity t.rebuiltCapacity : HashTable κ ν).capacity * 3
      rw [capacity_ofCapacity]
      omega)
  exact ⟨hall.1, by simp [hall.2, toList_ofCapacity]⟩

theorem Valid.size_pos (ht : t.Valid r) {i : Nat} {key : κ} {w : ν}
    (hold : t.slots[i]? = some (.filled key w)) : 0 < t.size := by
  rw [← ht.length_toList]
  exact length_pos_of_mem (mem_toList.mpr ⟨i, hold⟩ : (key, w) ∈ t.toList)

section

variable (ht : t.Valid r) (hr : r.Lawful)
include ht hr

theorem Valid.withRoom : (t.withRoom r).Valid r ∧ (∀ e, e ∈ (t.withRoom r).toList ↔ e ∈ t.toList) ∧
    ((t.withRoom r).size + (t.withRoom r).removed + 1) * 4 ≤ (t.withRoom r).slots.size * 3 := by
  unfold HashTable.withRoom
  have hcapacity : t.capacity = t.slots.size := rfl
  split
  · obtain ⟨hvalid, hmem⟩ := ht.rebuild_part hr (append_nil _).symm
    obtain ⟨hsize, hle⟩ := foldl_store_grows r t.toList (ofCapacity t.rebuiltCapacity)
    obtain ⟨-, -, hroom⟩ := ht.rebuiltCapacity_spec
    have hle : (t.rebuild r).size + (t.rebuild r).removed ≤ 0 + 0 + t.size := ht.length_toList ▸ hle
    have hsize : (t.rebuild r).slots.size = t.rebuiltCapacity := hsize.trans (capacity_ofCapacity _)
    exact ⟨hvalid, hmem, by omega⟩
  · exact ⟨ht, fun _ => Iff.rfl, by omega⟩

section

variable {i : Nat} {key : κ} {w : ν} (hold : t.slots[i]? = some (.filled key w))
include hold

/-- Assigning the slot of a key leaves the entries of the other keys. -/
theorem Valid.mem_assign {k : κ} (hsame : r.same key k = true) {new : Slot κ ν} {size removed : Nat}
    (e : κ × ν) :
    e ∈ (t.assign i new size removed).toList ↔
      new.entry? = some e ∨ e ∈ t.toList ∧ r.same e.1 k = false := by
  rw [HashTable.mem_assign hold, mem_toList]
  refine or_congr_right ⟨fun ⟨j, hij, hj⟩ => ⟨⟨j, hj⟩, ?_⟩, fun ⟨⟨j, hj⟩, hne⟩ => ⟨j, ?_, hj⟩⟩
  · by_contra hsame'
    rw [Bool.not_eq_false] at hsame'
    exact hij (ht.once hj hold (hr.trans hsame' (hr.symm hsame)))
  · rintro rfl
    cases hold.symm.trans hj
    cases hsame.symm.trans hne

theorem Valid.replaceAt (v : ν) : t.replaceAt i v = t.assign i (.filled key v) t.size t.removed ∧
    (t.assign i (.filled key v) t.size t.removed).Valid r := by
  refine ⟨?_, ht.assign hr hold (by simp) ?_ rfl ht.room fun {key' v'} hnew => ?_⟩
  · unfold HashTable.replaceAt HashTable.assign
    congr 1
    refine Array.ext_getElem? fun j => ?_
    have hi := (Array.getElem?_eq_some_iff.mp hold).1
    rw [Array.getElem?_modify, Array.getElem?_setIfInBounds]
    by_cases hij : i = j
    · subst hij
      rw [if_pos rfl, if_pos rfl, if_pos hi, hold]
      rfl
    · rw [if_neg hij, if_neg hij]
  · have hpos := ht.size_pos hold
    show t.size = t.size - 1 + 1
    omega
  · cases hnew
    refine ⟨ht.self hold, ht.leads hold, fun {j key' w'} hj hslot => ?_⟩
    by_contra hsame
    rw [Bool.not_eq_false] at hsame
    exact hj (ht.once hold hslot hsame).symm

theorem Valid.removeAt : (t.assign i .removed (t.size - 1) (t.removed + 1)).Valid r := by
  have hpos := ht.size_pos hold
  have hroom := ht.room
  exact ht.assign hr hold (by simp) rfl rfl (by omega) nofun

end

end

end HashTable

end SsaIr
