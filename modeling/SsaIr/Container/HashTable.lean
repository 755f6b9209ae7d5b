/-!
# Hash tables

A table of slots whose number is a power of two. A key is looked for along the triangular probe
sequence `h`, `h + 1`, `h + 1 + 2`, `h + 1 + 2 + 3`, …, which visits every slot once before it
repeats. A removed entry leaves a mark, so that entries behind it are still found; marks count as
taken until the table is built anew, which happens before more than three quarters of the slots are
taken. `HashTable.toList` lists the entries in the order of their slots.
-/

namespace SsaIr

/-- How keys are hashed and compared, and in which form a new key is stored, if at all. -/
structure KeyRules (κ : Type) where
  hash : κ → UInt64
  same : κ → κ → Bool
  storedForm : κ → Option κ := some

inductive Slot (κ ν : Type) where
  | empty
  | removed
  | filled (key : κ) (value : ν)
deriving Repr, Inhabited

def Slot.isFilled {κ ν : Type} : Slot κ ν → Bool
  | filled .. => true
  | _ => false

def Slot.entry? {κ ν : Type} : Slot κ ν → Option (κ × ν)
  | filled k v => some (k, v)
  | _ => none

/-- A table with the numbers of its entries and of its marks of removed entries. -/
structure HashTable (κ ν : Type) where
  slots : Array (Slot κ ν)
  size : Nat := 0
  removed : Nat := 0
deriving Repr, Inhabited

inductive KeyError where
  | refused
deriving DecidableEq, Repr

namespace HashTable

variable {κ ν : Type}

def leastCapacity : Nat := 8

/-- The first of `slots`, `2 * slots`, `4 * slots`, … three times which is no less than a number. -/
def slotsFor (least slots : Nat) : Nat :=
  if slots = 0 ∨ least ≤ slots * 3 then slots else slotsFor least (2 * slots)
termination_by least - slots * 3

def ofCapacity (slots : Nat) : HashTable κ ν := { slots := Array.replicate slots .empty }

/-- An empty table that takes the wanted number of entries without being built anew: they fill three
quarters of it. The product wraps around. -/
def new (wanted : Int64) : HashTable κ ν :=
  ofCapacity (slotsFor (wanted * 4).toInt.toNat leastCapacity)

def capacity (t : HashTable κ ν) : Nat := t.slots.size

def start (r : KeyRules κ) (capacity : Nat) (k : κ) : Nat := (r.hash k).toNat % capacity

/-- Look for a key from an index on. The next index is the given number of slots ahead, and the
number of slots to look at is bounded. -/
def seek (r : KeyRules κ) (slots : Array (Slot κ ν)) (k : κ) : Nat → Nat → Nat → Option Nat
  | 0, _, _ => none
  | n + 1, ahead, index =>
    match slots[index]? with
    | none | some .empty => none
    | some .removed => seek r slots k n (ahead + 1) ((index + ahead) % slots.size)
    | some (.filled key _) =>
      if r.same key k then some index
      else seek r slots k n (ahead + 1) ((index + ahead) % slots.size)

def find? (r : KeyRules κ) (t : HashTable κ ν) (k : κ) : Option Nat :=
  seek r t.slots k t.capacity 1 (start r t.capacity k)

def entry? (r : KeyRules κ) (t : HashTable κ ν) (k : κ) : Option (κ × ν) := do
  let i ← t.find? r k
  let slot ← t.slots[i]?
  slot.entry?

def get? (r : KeyRules κ) (t : HashTable κ ν) (k : κ) : Option ν := (t.entry? r k).map (·.2)

def getKey? (r : KeyRules κ) (t : HashTable κ ν) (k : κ) : Option κ := (t.entry? r k).map (·.1)

def contains (r : KeyRules κ) (t : HashTable κ ν) (k : κ) : Bool := (t.find? r k).isSome

def vacancy (slots : Array (Slot κ ν)) : Nat → Nat → Nat → Option Nat
  | 0, _, _ => none
  | n + 1, ahead, index =>
    match slots[index]? with
    | none => none
    | some (.filled ..) => vacancy slots n (ahead + 1) ((index + ahead) % slots.size)
    | some _ => some index

def store (r : KeyRules κ) (t : HashTable κ ν) (k : κ) (v : ν) : HashTable κ ν :=
  match vacancy t.slots t.capacity 1 (start r t.capacity k) with
  | none => t
  | some i =>
    let removed :=
      match t.slots[i]? with
      | some .removed => t.removed - 1
      | _ => t.removed
    { slots := t.slots.setIfInBounds i (.filled k v), size := t.size + 1, removed }

def toList (t : HashTable κ ν) : List (κ × ν) := t.slots.toList.filterMap Slot.entry?

/-- The table without marks, and with twice the slots when half of them would be taken. -/
def rebuild (r : KeyRules κ) (t : HashTable κ ν) : HashTable κ ν :=
  let slots := if t.capacity < (t.size + 1) * 2 then 2 * t.capacity else t.capacity
  t.toList.foldl (fun t e => t.store r e.1 e.2) (ofCapacity slots)

/-- The table, built anew if one more entry would take more than three quarters of its slots. -/
def withRoom (r : KeyRules κ) (t : HashTable κ ν) : HashTable κ ν :=
  if t.capacity * 3 < (t.size + t.removed + 1) * 4 then t.rebuild r else t

def replaceAt (t : HashTable κ ν) (i : Nat) (v : ν) : HashTable κ ν :=
  { t with
    slots := t.slots.modify i fun
      | .filled k _ => .filled k v
      | slot => slot }

/-- Give a key a value; tells whether the key is new. An existing entry keeps its key. -/
def put (r : KeyRules κ) (t : HashTable κ ν) (k : κ) (v : ν) :
    Except KeyError Bool × HashTable κ ν :=
  match t.find? r k with
  | some i => (.ok false, t.replaceAt i v)
  | none =>
    let t := t.withRoom r
    match r.storedForm k with
    | none => (.error .refused, t)
    | some k => (.ok true, t.store r k v)

def remove (r : KeyRules κ) (t : HashTable κ ν) (k : κ) : Bool × HashTable κ ν :=
  match t.find? r k with
  | none => (false, t)
  | some i =>
    (true,
      { slots := t.slots.setIfInBounds i .removed, size := t.size - 1, removed := t.removed + 1 })

def clear (t : HashTable κ ν) : HashTable κ ν := ofCapacity t.capacity

def visit {σ : Type} (step : σ → κ → ν → σ × Bool) (s : σ) : List (κ × ν) → σ
  | [] => s
  | (k, v) :: rest =>
    match step s k v with
    | (s, true) => visit step s rest
    | (s, false) => s

def range {σ : Type} (t : HashTable κ ν) (step : σ → κ → ν → σ × Bool) (s : σ) : σ :=
  visit step s t.toList

/-- The first entry from an index on, within a bound, and the index after it. -/
def entryFrom? (slots : Array (Slot κ ν)) : Nat → Nat → Option ((κ × ν) × Nat)
  | 0, _ => none
  | n + 1, index =>
    match slots[index]? with
    | some (.filled k v) => some ((k, v), index + 1)
    | _ => entryFrom? slots n (index + 1)

/-- One step of an iteration that has passed the slots below an index: the next entry, and the slots
passed then. -/
def next? (t : HashTable κ ν) (passed : Nat) : Option ((κ × ν) × Nat) :=
  entryFrom? t.slots (t.capacity - passed) passed

/-- The entries that an iteration gives from an index on, within a bound on their number. -/
def iterateFrom (t : HashTable κ ν) : Nat → Nat → List (κ × ν)
  | 0, _ => []
  | n + 1, passed =>
    match t.next? passed with
    | some (e, passed) => e :: t.iterateFrom n passed
    | none => []

def iterate (t : HashTable κ ν) : List (κ × ν) := t.iterateFrom t.capacity 0

end HashTable

end SsaIr
