import SsaIr.Container.HashTable
import Mathlib

/-!
# Probe sequences of hash tables

Looking for a key visits the slots `probe capacity start 0`, `probe capacity start 1`, … in turn. In
a table whose number of slots is a power of two the first `capacity` of them, the route of the
search, are all the slots, each once (`nodup_route`, `route_perm`). Looking for a key and looking
for a vacancy are searches along the route (`seek_eq`, `vacancy_eq`), so that neither misses a slot
(`searches_reach_every_slot`).
-/

namespace SsaIr

open List

namespace HashTable

def probe (capacity start n : Nat) : Nat := (start + n * (n + 1) / 2) % capacity

theorem probe_zero {capacity start : Nat} (h : start < capacity) :
    probe capacity start 0 = start := by
  show (start + 0 * (0 + 1) / 2) % capacity = start
  rw [Nat.zero_mul, Nat.zero_div, Nat.add_zero, Nat.mod_eq_of_lt h]

theorem probe_lt {capacity : Nat} (h : 0 < capacity) (start n : Nat) :
    probe capacity start n < capacity :=
  Nat.mod_lt _ h

theorem probe_succ (capacity start n : Nat) :
    probe capacity start (n + 1) = (probe capacity start n + (n + 1)) % capacity := by
  have htriangle : (n + 1) * (n + 1 + 1) / 2 = n * (n + 1) / 2 + (n + 1) := by
    have hsum : (n + 1) * (n + 1 + 1) = n * (n + 1) + 2 * (n + 1) := by ring
    rw [hsum, Nat.add_mul_div_left _ _ (by decide)]
  unfold probe
  rw [htriangle, Nat.mod_add_mod, Nat.add_assoc]

/-- No slot is visited twice. The difference of two triangular numbers is half of a product of an
even and an odd number, and a power of two divides the even one alone. -/
theorem probe_injective {k start i j : Nat} (hij : i ≤ j) (hj : j < 2 ^ k)
    (h : probe (2 ^ k) start i = probe (2 ^ k) start j) : i = j := by
  have hmod : i * (i + 1) / 2 ≡ j * (j + 1) / 2 [MOD 2 ^ k] := Nat.ModEq.add_left_cancel' start h
  have heven : ∀ n : Nat, 2 ∣ n * (n + 1) := fun n => (Nat.even_mul_succ_self n).two_dvd
  have htwice : i * (i + 1) ≡ j * (j + 1) [MOD 2 ^ (k + 1)] := by
    have := hmod.mul_left' 2
    rwa [Nat.mul_div_cancel' (heven i), Nat.mul_div_cancel' (heven j), ← Nat.pow_succ'] at this
  have hdvd : 2 ^ (k + 1) ∣ (j - i) * (i + j + 1) := by
    have hsub := (Nat.modEq_iff_dvd' (Nat.mul_le_mul hij (by omega))).mp htwice
    have hfactor : j * (j + 1) - i * (i + 1) = (j - i) * (i + j + 1) := by
      obtain ⟨d, rfl⟩ := Nat.exists_eq_add_of_le hij
      rw [Nat.add_sub_cancel_left]
      apply Nat.sub_eq_of_eq_add
      ring
    rwa [hfactor] at hsub
  have hpow : 2 ^ (k + 1) = 2 * 2 ^ k := Nat.pow_succ'
  -- the factor that is odd is coprime to the power of two
  rcases Nat.even_or_odd (j - i) with hdiff | hdiff
  · have hodd : Odd (i + j + 1) := by
      obtain ⟨c, hc⟩ := hdiff
      exact ⟨i + c, by omega⟩
    have hdvd' := ((Nat.coprime_two_left.mpr hodd).pow_left (k + 1)).dvd_of_dvd_mul_right hdvd
    by_contra hne
    have hle := Nat.le_of_dvd (by omega) hdvd'
    omega
  · have hle := Nat.le_of_dvd (by omega)
      (((Nat.coprime_two_left.mpr hdiff).pow_left (k + 1)).dvd_of_dvd_mul_left hdvd)
    omega

/-- The slots that a search visits before it gives up. -/
def route (capacity start : Nat) : List Nat := (List.range capacity).map (probe capacity start)

theorem nodup_route (e start : Nat) : (route (2 ^ e) start).Nodup := by
  refine List.Nodup.map_on (fun i hi j hj heq => ?_) nodup_range
  rcases Nat.le_total i j with hle | hle
  · exact probe_injective hle (mem_range.mp hj) heq
  · exact (probe_injective hle (mem_range.mp hi) heq.symm).symm

theorem route_perm (e start : Nat) : (route (2 ^ e) start).Perm (List.range (2 ^ e)) := by
  have hsub : route (2 ^ e) start ⊆ List.range (2 ^ e) := fun j hj => by
    obtain ⟨n, -, rfl⟩ := mem_map.mp hj
    exact mem_range.mpr (probe_lt (Nat.two_pow_pos e) start n)
  exact (subperm_of_subset (nodup_route e start) hsub).perm_of_length_le (by simp [route])

section Search

variable {κ ν : Type} {r : KeyRules κ} {slots : Array (Slot κ ν)} {k : κ} {s i : Nat}

def visited (slots : Array (Slot κ ν)) (s n : Nat) : Option (Slot κ ν) :=
  slots[probe slots.size s n]?

def vacantAt (slots : Array (Slot κ ν)) (i : Nat) : Bool := slots[i]?.any fun slot => !slot.isFilled

def usedAt (slots : Array (Slot κ ν)) (i : Nat) : Bool :=
  slots[i]?.any fun
    | .empty => false
    | _ => true

def holdsAt (r : KeyRules κ) (slots : Array (Slot κ ν)) (k : κ) (i : Nat) : Bool :=
  slots[i]?.any fun
    | .filled key _ => r.same key k
    | _ => false

theorem vacantAt_iff : vacantAt slots i = true ↔ ∃ slot,
    slots[i]? = some slot ∧ slot.isFilled = false := by
  simp [vacantAt, Option.any_eq_true]

theorem holdsAt_iff :
    holdsAt r slots k i = true ↔ ∃ key v, slots[i]? = some (.filled key v) ∧
    r.same key k = true := by
  unfold holdsAt
  rcases slots[i]? with _ | _ | _ | ⟨key, v⟩ <;> simp

section

variable (hs : s < slots.size)
include hs

theorem exists_visited (n : Nat) : ∃ slot, visited slots s n = some slot :=
  ⟨_, Array.getElem?_eq_getElem (probe_lt (Nat.zero_lt_of_lt hs) s n)⟩

theorem seek_eq : seek r slots k slots.size 1 s =
    ((route slots.size s).takeWhile (usedAt slots)).find? (holdsAt r slots k) := by
  -- from the `d`-th slot of the route on
  suffices h : ∀ n d, seek r slots k n (d + 1) (probe slots.size s d) =
      (((List.range' d n).map (probe slots.size s)).takeWhile (usedAt slots)).find?
        (holdsAt r slots k) by
    rw [route, range_eq_range', ← h, probe_zero hs]
  intro n
  induction n with
  | zero => exact fun d => rfl
  | succ n ih =>
    intro d
    rw [seek, range'_succ, map_cons, takeWhile_cons, ← probe_succ, ih, usedAt]
    rcases hslot : slots[probe slots.size s d]? with _ | _ | _ | ⟨key, v⟩
    · rfl
    · rfl
    · simp [holdsAt, hslot]
    · cases hsame : r.same key k <;> simp [holdsAt, hslot, hsame]

theorem vacancy_eq :
    vacancy slots slots.size 1 s = (route slots.size s).find? (vacantAt slots) := by
  suffices h : ∀ n d, vacancy slots n (d + 1) (probe slots.size s d) =
      ((List.range' d n).map (probe slots.size s)).find? (vacantAt slots) by
    rw [route, range_eq_range', ← h, probe_zero hs]
  intro n
  induction n with
  | zero => exact fun d => rfl
  | succ n ih =>
    intro d
    obtain ⟨slot, hslot⟩ := exists_visited hs d
    rw [vacancy, range'_succ, map_cons, find?_cons, ← probe_succ, ih, vacantAt, ← visited, hslot]
    cases slot <;> rfl

theorem seek_isSome {n : Nat} (hn : n < slots.size)
    (hholds : holdsAt r slots k (probe slots.size s n) = true)
    (hpath : ∀ m < n, ∃ slot, visited slots s m = some slot ∧ slot ≠ .empty) :
    (seek r slots k slots.size 1 s).isSome = true := by
  have hused : ∀ i ∈ (List.range (n + 1)).map (probe slots.size s), usedAt slots i = true := by
    simp only [forall_mem_map, mem_range]
    intro m hm
    rcases Nat.lt_succ_iff_lt_or_eq.mp hm with hm | rfl
    · obtain ⟨slot, hslot, hne⟩ := hpath m hm
      unfold visited at hslot
      cases slot <;> simp_all [usedAt]
    · obtain ⟨key, v, hslot, -⟩ := holdsAt_iff.mp hholds
      simp [usedAt, hslot]
  rw [seek_eq hs, find?_isSome]
  refine ⟨_, ?_, hholds⟩
  obtain ⟨rest, hrest⟩ : ∃ rest, List.range slots.size = List.range (n + 1) ++ rest := by
    rw [← Nat.add_sub_of_le hn, range_add]
    exact ⟨_, rfl⟩
  rw [route, hrest, map_append, takeWhile_append_of_pos hused]
  exact mem_append_left _ (mem_map.mpr ⟨n, by simp, rfl⟩)

theorem vacancy_eq_some (h : vacancy slots slots.size 1 s = some i) :
    ∃ b < slots.size, i = probe slots.size s b ∧
    (∃ slot, slots[i]? = some slot ∧ slot.isFilled = false) ∧
      ∀ m < b, ∃ key v, visited slots s m = some (.filled key v) := by
  rw [vacancy_eq hs, route, find?_map, Option.map_eq_some_iff] at h
  obtain ⟨b, hfirst, rfl⟩ := h
  obtain ⟨hvacant, hb, hbefore⟩ := find?_range_eq_some.mp hfirst
  refine ⟨b, mem_range.mp hb, rfl, vacantAt_iff.mp hvacant, fun m hm => ?_⟩
  obtain ⟨slot, hslot⟩ := exists_visited hs m
  have hfull := hbefore m hm
  cases slot with
  | filled key v => exact ⟨key, v, hslot⟩
  | _ =>
    rw [Function.comp, vacantAt, ← visited, hslot] at hfull
    cases hfull

theorem exists_vacancy {e : Nat} (hsize : slots.size = 2 ^ e) (hvacant : vacantAt slots i = true) :
    ∃ j, vacancy slots slots.size 1 s = some j := by
  obtain ⟨slot, hslot, -⟩ := vacantAt_iff.mp hvacant
  have hi : i ∈ route slots.size s := by
    rw [hsize, (route_perm e s).mem_iff, ← hsize]
    exact mem_range.mpr (Array.getElem?_eq_some_iff.mp hslot).1
  rw [vacancy_eq hs]
  exact Option.isSome_iff_exists.mp (find?_isSome.mpr ⟨i, hi, hvacant⟩)

end

/-- In a table whose number of slots is a power of two, the first slots that a search visits are
pairwise distinct and are all the slots. Looking for a key ends at the first of them that holds the
key or is empty, and gives up on a table without empty slots only when no slot holds the key;
looking for a vacancy ends at the first of them that is not filled, whenever there is one. -/
theorem searches_reach_every_slot {e : Nat} (hs : s < 2 ^ e) :
    (probe (2 ^ e) s 0 = s ∧ ∀ n, probe (2 ^ e) s (n + 1) = (probe (2 ^ e) s n + (n + 1)) % 2 ^ e) ∧
    (route (2 ^ e) s).Nodup ∧ (∀ i, i ∈ route (2 ^ e) s ↔ i < 2 ^ e) ∧
    ∀ slots : Array (Slot κ ν), slots.size = 2 ^ e →
      (∀ r k, seek r slots k slots.size 1 s =
          ((route (2 ^ e) s).takeWhile (usedAt slots)).find? (holdsAt r slots k) ∧
        ((∀ i < 2 ^ e, usedAt slots i = true) → seek r slots k slots.size 1 s = none →
          ∀ i < 2 ^ e, holdsAt r slots k i = false)) ∧
      vacancy slots slots.size 1 s = (route (2 ^ e) s).find? (vacantAt slots) ∧
      ((∃ i, vacantAt slots i = true) → ∃ j, vacancy slots slots.size 1 s = some j ∧
        vacantAt slots j = true) := by
  have hmem : ∀ i, i ∈ route (2 ^ e) s ↔ i < 2 ^ e :=
    fun i => (route_perm e s).mem_iff.trans mem_range
  refine ⟨⟨probe_zero hs, probe_succ _ s⟩, nodup_route e s, hmem, fun slots hsize => ?_⟩
  rw [← hsize] at hs hmem ⊢
  refine ⟨fun r k => ⟨seek_eq hs, fun hused hnone i hi => ?_⟩, vacancy_eq hs,
    fun ⟨i, hvacant⟩ => ?_⟩
  · rw [seek_eq hs, takeWhile_eq_self_iff.mpr fun j hj => hused j ((hmem j).mp hj)] at hnone
    simpa using find?_eq_none.mp hnone i ((hmem i).mpr hi)
  · obtain ⟨j, hj⟩ := exists_vacancy hs hsize hvacant
    refine ⟨j, hj, ?_⟩
    rw [vacancy_eq hs] at hj
    exact find?_some hj

/-- A table in which only the slot that is visited last is not filled. -/
theorem searches_reach_every_slot_last : 2 < 2 ^ 2 ∧ route 4 2 = [2, 3, 1, 0] ∧
    ∃ j, vacancy #[Slot.removed, .filled 5 (), .filled 2 (), .filled 6 ()] 4 1 2 = some j := by
  obtain ⟨-, -, -, h⟩ :=
    searches_reach_every_slot (κ := Nat) (ν := Unit) (s := 2) (e := 2) (by decide)
  obtain ⟨-, -, hvacancy⟩ := h #[.removed, .filled 5 (), .filled 2 (), .filled 6 ()] rfl
  obtain ⟨j, hj, -⟩ := hvacancy ⟨0, rfl⟩
  exact ⟨by decide, by decide, j, hj⟩

end Search

end HashTable

end SsaIr
