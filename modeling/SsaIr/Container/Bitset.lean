/-!
# Bitsets

Sets of the numbers below a fixed size, kept as an array of 64-bit words. Read `Bitset.toList`
first: it lists the members in ascending order, and every operation is described by what it does to
them. Sets are combined in place, word by word (`Bitset.combine`); the target may be one of the
operands.
-/

namespace SsaIr

structure Bitset where
  size : Nat
  words : Array UInt64
deriving DecidableEq, Repr, Inhabited

inductive BitsetError where
  | negativeSize (n : Int)
  | outOfRange (i : Int) (size : Nat)
  | sizes (operation : String) (first other : Nat)
deriving DecidableEq, Repr

def BitsetError.message : BitsetError → String
  | negativeSize n => s!"bitset: negative size {n}"
  | outOfRange i n => s!"bitset: index {i} out of range [0, {n})"
  | sizes op m n => s!"bitset: {op} of sets with sizes {m} and {n}"

namespace Bitset

def empty (size : Nat) : Bitset := { size, words := Array.replicate ((size + 63) / 64) 0 }

def new (size : Int) : Except BitsetError Bitset :=
  if size < 0 then .error (.negativeSize size) else .ok (empty size.toNat)

def bit (i : Nat) : UInt64 := 1 <<< (i % 64).toUInt64

def word (b : Bitset) (i : Nat) : UInt64 := b.words.getD (i / 64) 0

def contains (b : Bitset) (i : Nat) : Bool := b.word i &&& bit i != 0

def insert (b : Bitset) (i : Nat) : Bitset :=
  { b with words := b.words.modify (i / 64) (· ||| bit i) }

def erase (b : Bitset) (i : Nat) : Bitset :=
  { b with words := b.words.modify (i / 64) (· &&& ~~~bit i) }

def index (b : Bitset) (i : Int) : Except BitsetError Nat :=
  if 0 ≤ i && i < b.size then .ok i.toNat else .error (.outOfRange i b.size)

def set (b : Bitset) (i : Int) : Except BitsetError Bitset := return b.insert (← b.index i)

def clear (b : Bitset) (i : Int) : Except BitsetError Bitset := return b.erase (← b.index i)

def test (b : Bitset) (i : Int) : Except BitsetError Bool := return b.contains (← b.index i)

def trim (b : Bitset) : Bitset :=
  if b.size % 64 = 0 then b
  else { b with words := b.words.modify (b.words.size - 1) (· &&& (bit (b.size % 64) - 1)) }

def setAll (b : Bitset) : Bitset := trim { b with words := b.words.map fun _ => ~~~0 }

def clearAll (b : Bitset) : Bitset := { b with words := b.words.map fun _ => 0 }

def wordCount (w : UInt64) : Nat := (List.range 64).countP fun i => w &&& bit i != 0

def count (b : Bitset) : Nat := (b.words.toList.map wordCount).foldl (· + ·) 0

def isEmpty (b : Bitset) : Bool := b.words.all (· = 0)

/-- Complain about the first set that differs in size from the leading one. -/
def checkSizes (operation : String) (first : Bitset) : List Bitset → Except BitsetError Unit
  | [] => .ok ()
  | s :: rest =>
    if s.size = first.size then checkSizes operation first rest
    else .error (.sizes operation first.size s.size)

/-- A set that takes part in an operation in place: another one, or the target itself. -/
inductive Operand where
  | target
  | other (b : Bitset)

/-- The set that an operand is while the target is the given one. -/
def Operand.get (t : Bitset) : Operand → Bitset
  | target => t
  | other b => b

/-- Set a word of the target from the words at the same place, as they are by then. -/
def combineWord (f : UInt64 → UInt64 → UInt64) (a b : Operand) (t : Bitset) (k : Nat) : Bitset :=
  { t with words :=
    t.words.setIfInBounds k (f ((a.get t).words.getD k 0) ((b.get t).words.getD k 0)) }

def combine (operation : String) (f : UInt64 → UInt64 → UInt64) (t : Bitset) (a b : Operand) :
    Except BitsetError Bitset := do
  checkSizes operation t [a.get t, b.get t]
  return (List.range t.words.size).foldl (combineWord f a b) t

def union : Bitset → Operand → Operand → Except BitsetError Bitset := combine "union" (· ||| ·)

def intersect : Bitset → Operand → Operand → Except BitsetError Bitset :=
  combine "intersection" (· &&& ·)

def difference : Bitset → Operand → Operand → Except BitsetError Bitset :=
  combine "difference" (· &&& ~~~·)

def equal (a b : Bitset) : Except BitsetError Bool := do
  checkSizes "comparison" a [b]
  return a.words = b.words

def copy (target source : Bitset) : Except BitsetError Bitset := do
  checkSizes "copy" target [source]
  return { target with words := source.words }

/-- The number of zeros below the lowest bit that is set; all 64 if there is none. -/
def trailingZeros (w : UInt64) : Nat := (List.range 64).findIdx fun i => w &&& bit i != 0

theorem toNat_and_pred_lt {w : UInt64} (h : w ≠ 0) : (w &&& (w - 1)).toNat < w.toNat := by
  have hpos : 0 < w.toNat := Nat.pos_of_ne_zero fun h0 => h (UInt64.toNat_inj.mp h0)
  have hone : (1 : UInt64) ≤ w := UInt64.le_iff_toNat_le.mpr hpos
  have hle : (w &&& (w - 1)).toNat ≤ (w - 1).toNat := by
    rw [UInt64.toNat_and]
    exact Nat.and_le_right
  rw [UInt64.toNat_sub_of_le _ _ hone, UInt64.toNat_one] at hle
  omega

/-- The bits of a word that are set, the lowest first; it is cleared until none is left. -/
def ones (w : UInt64) : List Nat :=
  if h : w = 0 then [] else trailingZeros w :: ones (w &&& (w - 1))
termination_by w.toNat
decreasing_by exact toNat_and_pred_lt h

/-- The members, the smallest first: word after word, bit after bit. -/
def toList (b : Bitset) : List Nat :=
  (List.range b.words.size).flatMap fun k => (ones (b.words.getD k 0)).map (64 * k + ·)

def text (b : Bitset) : String := "\x7b" ++ ", ".intercalate (b.toList.map toString) ++ "\x7d"

end Bitset

end SsaIr
