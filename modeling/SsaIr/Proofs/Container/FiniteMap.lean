import SsaIr.Container.HashKeys
import SsaIr.Proofs.Container.HashTable

/-!
# Hash tables are finite maps

A `Ledger` is a finite map seen from outside: it gives the entry of every key that has one, and a
list of its entries holds each of them once (`Ledger.Lists`). Requests to a table are answered as
the ledger that the same requests build answers them, whatever the hash function is. The main result
is `HashTable.answers_as_finite_map`.
-/

namespace SsaIr

/-! ## Finite maps -/

/-- The entry, a stored key with its value, of every key that has one. -/
def Ledger (κ ν : Type) := κ → Option (κ × ν)

namespace Ledger

variable {κ ν : Type} {r : KeyRules κ} {m : Ledger κ ν}

/-- The list holds every entry of the map once. -/
structure Lists (r : KeyRules κ) (m : Ledger κ ν) (l : List (κ × ν)) : Prop where
  apart : l.Pairwise fun a b => r.same a.1 b.1 = false
  self : ∀ e ∈ l, r.same e.1 e.1 = true
  mem : ∀ {k e}, m k = some e ↔ e ∈ l ∧ r.same e.1 k = true

def empty : Ledger κ ν := fun _ => none

/-- The map in which the keys that are the same as a given one have a certain entry, or none. -/
def set (r : KeyRules κ) (m : Ledger κ ν) (k : κ) (e : Option (κ × ν)) : Ledger κ ν :=
  fun q => if r.same k q = true then e else m q

/-- Give a key a value. An existing entry keeps its key, and a key that cannot be stored changes
nothing. -/
def put (r : KeyRules κ) (m : Ledger κ ν) (k : κ) (v : ν) : Ledger κ ν :=
  match m k, r.storedForm k with
  | some e, _ => m.set r k (some (e.1, v))
  | none, some key => m.set r k (some (key, v))
  | none, none => m

def remove (r : KeyRules κ) (m : Ledger κ ν) (k : κ) : Ledger κ ν := m.set r k none

end Ledger

/-! ## Requests -/

inductive TableRequest (κ ν : Type) where
  | put (k : κ) (v : ν)
  | remove (k : κ)
  | clear
  | get (k : κ)
  | getKey (k : κ)
  | contains (k : κ)
  | length
  | iterate
  | range (more : κ → ν → Bool)

inductive TableReply (κ ν : Type) where
  | stored (isNew : Except KeyError Bool)
  | removed (present : Bool)
  | cleared
  | value (v : Option ν)
  | key (k : Option κ)
  | present (b : Bool)
  | length (n : Nat)
  | entries (l : List (κ × ν))

/-- The entries that are visited when a visitor may have enough. -/
def visitedUpTo {κ ν : Type} (more : κ → ν → Bool) : List (κ × ν) → List (κ × ν)
  | [] => []
  | e :: rest => if more e.1 e.2 then e :: visitedUpTo more rest else [e]

namespace Ledger

variable {κ ν : Type}

def Answers (r : KeyRules κ) (m : Ledger κ ν) : TableRequest κ ν → TableReply κ ν → Prop
  | .put k _, .stored isNew =>
    isNew = match m k, r.storedForm k with
      | some _, _ => .ok false
      | none, some _ => .ok true
      | none, none => .error .refused
  | .remove k, .removed present => present = (m k).isSome
  | .clear, .cleared => True
  | .get k, .value v => v = (m k).map Prod.snd
  | .getKey k, .key key => key = (m k).map Prod.fst
  | .contains k, .present b => b = (m k).isSome
  | .length, .length n => ∃ l, m.Lists r l ∧ n = l.length
  | .iterate, .entries l => m.Lists r l
  | .range more, .entries l => ∃ all, m.Lists r all ∧ l = visitedUpTo more all
  | _, _ => False

def after (r : KeyRules κ) (m : Ledger κ ν) : TableRequest κ ν → Ledger κ ν
  | .put k v => m.put r k v
  | .remove k => m.remove r k
  | .clear => empty
  | _ => m

/-- Every reply is right for the map that the requests before it build. -/
def AnswersAll (r : KeyRules κ) :
    Ledger κ ν → List (TableRequest κ ν) → List (TableReply κ ν) → Prop
  | _, [], [] => True
  | m, q :: qs, a :: as => m.Answers r q a ∧ (m.after r q).AnswersAll r qs as
  | _, _, _ => False

end Ledger

namespace HashTable

variable {κ ν : Type} {r : KeyRules κ} {t : HashTable κ ν} {m : Ledger κ ν}

def serve (r : KeyRules κ) (t : HashTable κ ν) : TableRequest κ ν → TableReply κ ν × HashTable κ ν
  | .put k v => (.stored (t.put r k v).1, (t.put r k v).2)
  | .remove k => (.removed (t.remove r k).1, (t.remove r k).2)
  | .clear => (.cleared, t.clear)
  | .get k => (.value (t.get? r k), t)
  | .getKey k => (.key (t.getKey? r k), t)
  | .contains k => (.present (t.contains r k), t)
  | .length => (.length t.size, t)
  | .iterate => (.entries t.iterate, t)
  | .range more => (.entries (t.range (fun l k v => (l ++ [(k, v)], more k v)) []), t)

def serveAll (r : KeyRules κ) (t : HashTable κ ν) :
    List (TableRequest κ ν) → List (TableReply κ ν) × HashTable κ ν
  | [] => ([], t)
  | q :: qs =>
    let (reply, t) := t.serve r q
    let (replies, t) := t.serveAll r qs
    (reply :: replies, t)

/-! ## Iteration -/

def entriesFrom (t : HashTable κ ν) (passed : Nat) : List (κ × ν) :=
  (t.slots.toList.drop passed).filterMap Slot.entry?

theorem entriesFrom_of_size_le {passed : Nat} (h : t.slots.size ≤ passed) :
    t.entriesFrom passed = [] := by
  rw [entriesFrom, List.drop_of_length_le (by rwa [Array.length_toList]), List.filterMap_nil]

/-- What a search from a slot on finds: nothing, or the first entry and where to go on. -/
def FindsFrom (t : HashTable κ ν) (passed : Nat) : Option ((κ × ν) × Nat) → Prop
  | none => t.entriesFrom passed = []
  | some (e, next) =>
    t.entriesFrom passed = e :: t.entriesFrom next ∧ passed < next ∧ next ≤ t.slots.size

theorem entryFrom?_spec (n passed : Nat) (h : passed + n = t.slots.size) :
    t.FindsFrom passed (entryFrom? t.slots n passed) := by
  induction n generalizing passed with
  | zero => exact entriesFrom_of_size_le h.ge
  | succ n ih =>
    have hlt : passed < t.slots.size := by omega
    have hdrop : t.entriesFrom passed = Option.toList ( Slot.entry? t.slots[passed]) ++
        t.entriesFrom (passed + 1) := by
      unfold entriesFrom
      rw [List.drop_eq_getElem_cons (by rw [Array.length_toList]; exact hlt), List.filterMap_cons,
        Array.getElem_toList]
      cases Slot.entry? t.slots[passed] <;> rfl
    -- a slot without entry is passed over
    have hskip : Slot.entry? t.slots[passed] = none →
        t.FindsFrom passed (entryFrom? t.slots n (passed + 1)) := by
      intro hnone
      rw [hnone] at hdrop
      have hrest := ih (passed + 1) (by omega)
      cases hnext : entryFrom? t.slots n (passed + 1) with rw [hnext] at hrest
      | none => exact hdrop.trans hrest
      | some p => exact ⟨hdrop.trans hrest.1, by have := hrest.2.1; omega, hrest.2.2⟩
    rw [entryFrom?, Array.getElem?_eq_getElem hlt]
    cases hslot : t.slots[passed] with
    | empty => exact hskip (by rw [hslot]; rfl)
    | removed => exact hskip (by rw [hslot]; rfl)
    | filled k v =>
      refine ⟨?_, by omega, by omega⟩
      rw [hdrop, hslot]
      rfl

theorem iterateFrom_eq {n passed : Nat} (hpassed : passed ≤ t.slots.size)
    (hn : t.slots.size ≤ passed + n) :
    t.iterateFrom n passed = t.entriesFrom passed := by
  induction n generalizing passed with
  | zero => exact (entriesFrom_of_size_le hn).symm
  | succ n ih =>
    have hspec := entryFrom?_spec (t := t) (t.slots.size - passed) passed (by omega)
    have hnext : t.next? passed = entryFrom? t.slots (t.slots.size - passed) passed := rfl
    rw [iterateFrom, hnext]
    cases hcase : entryFrom? t.slots (t.slots.size - passed) passed with rw [hcase] at hspec
    | none => exact hspec.symm
    | some p =>
      show p.1 :: t.iterateFrom n p.2 = t.entriesFrom passed
      rw [hspec.1, ih hspec.2.2 (by have := hspec.2.1; omega)]

theorem iterate_eq_toList (t : HashTable κ ν) : t.iterate = t.toList :=
  iterateFrom_eq (Nat.zero_le _) (by show t.slots.size ≤ 0 + t.slots.size; omega)

theorem visit_append (more : κ → ν → Bool) (seen l : List (κ × ν)) :
    visit (fun l k v => (l ++ [(k, v)], more k v)) seen l = seen ++ visitedUpTo more l := by
  induction l generalizing seen with
  | nil => exact (List.append_nil seen).symm
  | cons e rest ih =>
    rw [visit, visitedUpTo]
    cases hmore : more e.1 e.2 with
    | true =>
      show visit _ (seen ++ [(e.1, e.2)]) rest = _
      rw [ih, List.append_assoc]
      rfl
    | false => rfl

/-! ## Steps -/

/-- The table is valid and its entries are those of the map. -/
structure Represents (r : KeyRules κ) (t : HashTable κ ν) (m : Ledger κ ν) : Prop where
  valid : t.Valid r
  mem : ∀ {k e}, m k = some e ↔ e ∈ t.toList ∧ r.same e.1 k = true

theorem Represents.lists (h : t.Represents r m) : m.Lists r t.toList :=
  ⟨h.valid.toList_apart, h.valid.self_of_mem, h.mem⟩

section

variable (h : t.Represents r m) (hr : r.Lawful)
include h hr

theorem Represents.entry?_eq (k : κ) : t.entry? r k = m k := by
  refine Option.ext fun e => ?_
  rw [h.valid.entry?_eq_some_iff hr, h.mem]

theorem Represents.find?_eq_some {k : κ} {i : Nat}
    (hfind : t.find? r k = some i) :
    ∃ key w, t.slots[i]? = some (.filled key w) ∧ r.same key k = true ∧
      m k = some (key, w) := by
  obtain ⟨key, w, hslot, hsame⟩ := (h.valid.find?_eq_some_iff hr).mp hfind
  exact ⟨key, w, hslot, hsame, h.mem.mpr ⟨mem_toList.mpr ⟨i, hslot⟩, hsame⟩⟩

theorem Represents.find?_eq_none {k : κ}
    (hfind : t.find? r k = none) : m k = none := by
  rw [← h.entry?_eq hr]
  unfold entry?
  rw [hfind]
  rfl

/-- The entry of a key is set when the entries of the other keys stay. -/
theorem Represents.set {k : κ} {x : Option (κ × ν)} (hx : ∀ e, x = some e → r.same e.1 k = true)
    {t' : HashTable κ ν} (hvalid : t'.Valid r)
    (hmem : ∀ e, e ∈ t'.toList ↔ x = some e ∨ e ∈ t.toList ∧ r.same e.1 k = false) :
    t'.Represents r (m.set r k x) := by
  refine ⟨hvalid, fun {q e} => ?_⟩
  have hsame : ∀ {a b c}, r.same a b = true → r.same a c = true → r.same b c = true :=
    fun hab hac => hr.trans (hr.symm hab) hac
  rw [hmem, Ledger.set]
  split
  · next hkq =>
      refine ⟨fun he => ⟨.inl he, hr.trans (hx e he) hkq⟩, fun ⟨hcases, heq⟩ =>
        hcases.resolve_right ?_⟩
      rintro ⟨-, hne⟩
      cases hne.symm.trans (hr.trans heq (hr.symm hkq))
  · next hkq =>
      rw [h.mem]
      refine ⟨fun ⟨hmem, heq⟩ => ⟨.inr ⟨hmem, ?_⟩, heq⟩, fun ⟨hcases, heq⟩ => ⟨?_, heq⟩⟩
      · rw [← Bool.not_eq_true]
        exact fun hek => hkq (hsame hek heq)
      · exact (hcases.resolve_left fun he => hkq (hsame (hx e he) heq)).1

theorem Represents.store {k key : κ} (hfind : t.find? r k = none)
    (hstored : r.storedForm k = some key) (v : ν) :
    ((t.withRoom r).store r key v).Represents r (m.set r k (some (key, v))) := by
  obtain ⟨hvalid, hmem, hroom⟩ := h.valid.withRoom hr
  have hsame := hr.stored hstored
  have hother := h.valid.not_same_of_find?_eq_none hr hfind
  have hfree : ∀ e ∈ (t.withRoom r).toList, r.same e.1 key = false := fun e he => by
    rw [hr.same_comm, hr.same_congr hsame, hr.same_comm]
    exact hother e ((hmem e).mp he)
  obtain ⟨hvalid', hmem'⟩ := hvalid.store hr v (hr.trans hsame (hr.symm hsame)) hfree hroom
  refine h.set hr (by rintro e ⟨⟩; exact hsame) hvalid' fun e => ?_
  rw [hmem', hmem, Option.some.injEq, eq_comm]
  exact or_congr_right (and_iff_left_of_imp (hother e)).symm

end

/-- What a step gives: a right reply and a table for the map after it. -/
def StepsTo (r : KeyRules κ) (m : Ledger κ ν) (q : TableRequest κ ν)
    (s : TableReply κ ν × HashTable κ ν) :
    Prop :=
  m.Answers r q s.1 ∧ s.2.Represents r (m.after r q)

theorem Represents.put (h : t.Represents r m) (hr : r.Lawful) (k : κ) (v : ν) :
    StepsTo r m (.put k v) (t.serve r (.put k v)) := by
  show (t.put r k v).1 = _ ∧ (t.put r k v).2.Represents r (m.put r k v)
  unfold HashTable.put Ledger.put
  cases hfind : t.find? r k with
  | some i =>
    obtain ⟨key, w, hslot, hsame, hentry⟩ := h.find?_eq_some hr hfind
    obtain ⟨heq, hvalid⟩ := h.valid.replaceAt hr hslot v
    have hset := h.set hr (by rintro e ⟨⟩; exact hsame) hvalid (h.valid.mem_assign hr hslot hsame)
    rw [← heq] at hset
    rw [hentry]
    exact ⟨rfl, hset⟩
  | none =>
    rw [h.find?_eq_none hr hfind]
    cases hstored : r.storedForm k with
    | some key => exact ⟨rfl, h.store hr hfind hstored v⟩
    | none =>
      -- a refused key may leave a table that was built anew
      obtain ⟨hvalid, hmem, -⟩ := h.valid.withRoom hr
      exact ⟨rfl, hvalid, fun {k e} => by rw [hmem, h.mem]⟩

theorem Represents.remove (h : t.Represents r m) (hr : r.Lawful) (k : κ) :
    StepsTo r m (.remove k) (t.serve r (.remove k)) := by
  show (t.remove r k).1 = (m k).isSome ∧ (t.remove r k).2.Represents r (m.set r k none)
  unfold HashTable.remove
  cases hfind : t.find? r k with
  | some i =>
    obtain ⟨key, w, hslot, hsame, hentry⟩ := h.find?_eq_some hr hfind
    rw [hentry]
    exact ⟨rfl, h.set hr (x := none) (by simp) (h.valid.removeAt hr hslot)
      (h.valid.mem_assign hr hslot hsame)⟩
  | none =>
    rw [h.find?_eq_none hr hfind]
    refine ⟨rfl, h.set hr (x := none) (by simp) h.valid fun e => ?_⟩
    simpa using h.valid.not_same_of_find?_eq_none hr hfind e

theorem represents_empty {n : Nat} (hvalid : (ofCapacity n : HashTable κ ν).Valid r) :
    (ofCapacity n : HashTable κ ν).Represents r Ledger.empty := by
  refine ⟨hvalid, fun {k e} => ?_⟩
  simp [toList_ofCapacity, Ledger.empty]

theorem Represents.serve (h : t.Represents r m) (hr : r.Lawful) (q : TableRequest κ ν) :
    StepsTo r m q (t.serve r q) := by
  cases q with
  | put k v => exact h.put hr k v
  | remove k => exact h.remove hr k
  | clear => exact ⟨trivial, represents_empty h.valid.clear⟩
  | get k => exact ⟨congrArg (Option.map Prod.snd) (h.entry?_eq hr k), h⟩
  | getKey k => exact ⟨congrArg (Option.map Prod.fst) (h.entry?_eq hr k), h⟩
  | contains k =>
    refine ⟨?_, h⟩
    show (t.find? r k).isSome = (m k).isSome
    cases hfind : t.find? r k with
    | some i =>
      obtain ⟨key, w, -, -, hentry⟩ := h.find?_eq_some hr hfind
      rw [hentry]
      rfl
    | none =>
      rw [h.find?_eq_none hr hfind]
      rfl
  | length => exact ⟨⟨t.toList, h.lists, h.valid.length_toList.symm⟩, h⟩
  | iterate =>
    refine ⟨?_, h⟩
    show m.Lists r t.iterate
    rw [iterate_eq_toList]
    exact h.lists
  | range more => exact ⟨⟨t.toList, h.lists, visit_append more [] t.toList⟩, h⟩

theorem Represents.serveAll (h : t.Represents r m) (hr : r.Lawful) (qs : List (TableRequest κ ν)) :
    m.AnswersAll r qs (t.serveAll r qs).1 ∧ (t.serveAll r qs).2.Valid r := by
  induction qs generalizing t m with
  | nil => exact ⟨trivial, h.valid⟩
  | cons q qs ih =>
    obtain ⟨hanswer, hnext⟩ := h.serve hr q
    obtain ⟨hrest, hvalid⟩ := ih hnext
    exact ⟨⟨hanswer, hrest⟩, hvalid⟩

/-- All searches for a vacancy that storing a key may make are over before their bound: those for
the entries of a table that is built anew, and the last one for the key itself. -/
def Settles (r : KeyRules κ) (t : HashTable κ ν) : Prop :=
  (∀ k, ∃ i, vacancy (t.withRoom r).slots (t.withRoom r).capacity 1
    (start r (t.withRoom r).capacity k) = some i) ∧
    ∀ pre e post, t.toList = pre ++ e :: post →
      ∃ i, vacancy (pre.foldl (fun t e => t.store r e.1 e.2) (ofCapacity t.rebuiltCapacity)).slots
        t.rebuiltCapacity 1 (start r t.rebuiltCapacity e.1) = some i

theorem Valid.settles (ht : t.Valid r) (hr : r.Lawful) : t.Settles r := by
  refine ⟨fun k => (ht.withRoom hr).1.exists_vacancy k, fun pre e post hsplit => ?_⟩
  have hvacancy := (ht.rebuild_part hr hsplit).1.exists_vacancy e.1
  rwa [(foldl_store_grows ..).1, capacity_ofCapacity] at hvacancy

end HashTable

/-! ## Kinds of keys -/

namespace KeyRules

theorem lawful_of_equivalence {κ : Type} {hash : κ → UInt64} {same : κ → κ → Bool}
    (hequiv : Equivalence fun a b => same a b = true)
    (hhash : ∀ a b, same a b = true → hash a = hash b) :
    Lawful { hash, same } where
  symm := hequiv.symm
  trans := hequiv.trans
  hash_eq h := hhash _ _ h
  stored h := by
    cases h
    exact hequiv.refl _
  refused h := nomatch h

theorem isNan64_foldZero (bits : UInt64) (h : isNan64 bits = false) :
    isNan64 (foldZero bits) = false := by
  unfold foldZero
  split
  · decide
  · exact h

theorem foldZero_foldZero (bits : UInt64) : foldZero (foldZero bits) = foldZero bits := by
  unfold foldZero
  by_cases hzero : bits = 0x8000000000000000
  · rw [if_pos hzero]
    decide
  · rw [if_neg hzero, if_neg hzero]

theorem float_same_iff {a b : UInt64} :
    float.same a b = true ↔ isNan64 a = false ∧ isNan64 b = false ∧ foldZero a = foldZero b := by
  show (!isNan64 a && !isNan64 b && decide (foldZero a = foldZero b)) = true ↔ _
  simp [and_assoc]

theorem float_storedForm_eq_none_iff {bits : UInt64} :
    float.storedForm bits = none ↔ isNan64 bits = true := by
  show (if isNan64 bits = true then none else some (foldZero bits)) = none ↔ _
  split <;> simp_all

theorem float_lawful : float.Lawful where
  symm h := by
    rw [float_same_iff] at h ⊢
    exact ⟨h.2.1, h.1, h.2.2.symm⟩
  trans h h' := by
    rw [float_same_iff] at h h' ⊢
    exact ⟨h.1, h'.2.1, h.2.2.trans h'.2.2⟩
  hash_eq h := congrArg Hash64.ofWord (float_same_iff.mp h).2.2
  stored {k k'} h := by
    have hnan : isNan64 k = false := by
      by_contra hne
      rw [float_storedForm_eq_none_iff.mpr ((Bool.not_eq_false _).mp hne)] at h
      cases h
    have hform : float.storedForm k = some (foldZero k) :=
      if_neg (by rw [hnan]; exact Bool.false_ne_true)
    cases hform.symm.trans h
    exact float_same_iff.mpr ⟨isNan64_foldZero k hnan, hnan, foldZero_foldZero k⟩
  refused {k} h := by
    by_contra hsame
    rw [Bool.not_eq_false] at hsame
    have hnan := (float_same_iff.mp hsame).1
    rw [float_storedForm_eq_none_iff.mp h] at hnan
    cases hnan

end KeyRules

namespace HashTable

/-- A hash table is a finite map. Under lawful rules for keys, of which every equivalence that the
hash function respects gives an example, all requests to a new table are answered as the map that
they build answers them, and every search for a vacancy ends. The rules for floating-point keys are
lawful as well, and refuse exactly the NaNs. -/
theorem answers_as_finite_map :
    (∀ {κ ν : Type} (r : KeyRules κ), r.Lawful → ∀ (wanted : Int64) (qs : List (TableRequest κ ν)),
      Ledger.AnswersAll r Ledger.empty qs ((new wanted : HashTable κ ν).serveAll r qs).1 ∧
        ((new wanted : HashTable κ ν).serveAll r qs).2.Settles r) ∧
    (∀ {κ : Type} (hash : κ → UInt64) (same : κ → κ → Bool),
      Equivalence (fun a b => same a b = true) →
      (∀ a b, same a b = true → hash a = hash b) → KeyRules.Lawful { hash, same }) ∧
    KeyRules.float.Lawful ∧ ∀ bits, KeyRules.float.storedForm bits = none ↔
    isNan64 bits = true := by
  refine ⟨?_, fun hash same hequiv hhash => KeyRules.lawful_of_equivalence hequiv hhash,
    KeyRules.float_lawful, fun bits => KeyRules.float_storedForm_eq_none_iff⟩
  intro κ ν r hr wanted qs
  have hnew : (new wanted : HashTable κ ν).Represents r Ledger.empty :=
    represents_empty (valid_new wanted)
  obtain ⟨hanswers, hvalid⟩ := hnew.serveAll hr qs
  exact ⟨hanswers, hvalid.settles hr⟩

/-- Requests for floating-point keys: both zeros, and a NaN that is refused. -/
def zerosAndNan : List (TableRequest UInt64 String) :=
  [.put 0x8000000000000000 "zero", .put 0x7FF8000000000001 "nan", .put 0 "null",
    .getKey 0x8000000000000000,
    .remove 0x7FF8000000000001, .length, .iterate]

/-- The rules for floating-point keys are lawful, so that a table of them answers as a map does. -/
theorem answers_as_finite_map_zeros_and_nan : KeyRules.float.Lawful ∧
    Ledger.AnswersAll KeyRules.float Ledger.empty zerosAndNan
      ((new 0 : HashTable UInt64 String).serveAll KeyRules.float zerosAndNan).1 :=
  ⟨answers_as_finite_map.2.2.1,
    (answers_as_finite_map.1 KeyRules.float answers_as_finite_map.2.2.1 0 zerosAndNan).1⟩

end HashTable

end SsaIr
