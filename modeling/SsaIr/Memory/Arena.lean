import SsaIr.Layout
import SsaIr.Memory.Space

/-!
# Arenas

An arena allocates from chunks of an address space that it holds, newest first; it bumps downwards
within the newest chunk and asks for a bigger one when that is full, up to its limit. All its
memory is given back at once. Sizes are 64-bit integers whose sums wrap.
-/

namespace SsaIr

/-- An allocator, with the bases of the chunks that it holds, newest first. -/
structure Arena where
  minChunk : Int64 := 4096
  minAlign : Int64 := 1
  limit : Int64 := 0
  held : List UInt64 := []
  capacity : Int64 := 0
  allocated : Int64 := 0
deriving DecidableEq, Repr, Inhabited

structure ArenaOptions where
  minChunk : Option Int64 := none
  minAlign : Option Int64 := none
  limit : Option Int64 := none
deriving DecidableEq, Repr, Inhabited

/-- A new arena. A least chunk that is not positive and an alignment that is no power of two do not
count. -/
def Arena.new (o : ArenaOptions) : Arena where
  minChunk := (o.minChunk.filter (0 < ·)).getD 4096
  minAlign := (o.minAlign.filter isPowerOfTwo).getD 1
  limit := o.limit.getD 0

structure Heap where
  space : Space := {}
  arena : Arena := {}
deriving Inhabited

abbrev Allocate := EStateM MemoryError Heap

namespace Arena

def limited (limit : Int64) : Arena := { limit }

def head? (h : Heap) : Option Chunk := h.arena.held.head?.bind h.space.chunk?

/-- The offset of an allocation at the top of the free part of a chunk, if it fits. -/
def fit? (c : Chunk) (size align : Int64) : Option Int64 :=
  if c.top < size then none
  else
    let address := (c.base + (c.top - size).toUInt64) &&& ~~~(align - 1).toUInt64
    if address < c.base then none else some (address - c.base).toInt64

def bump? (h : Heap) (c : Chunk) (size align : Int64) : Option (UInt64 × Heap) :=
  (fit? c size align).map fun offset =>
    (c.base + offset.toUInt64,
      { space := h.space.modifyChunk c.base fun c => c.allocate offset size
        arena := { h.arena with allocated := h.arena.allocated + (c.top - offset) } })

/-- The size of the next chunk for a request: at least the request, the least chunk and twice the
newest one, but within the limit. -/
def nextChunk (a : Arena) (head : Option Chunk) (size align : Int64) : Except MemoryError Int64 :=
  let need := size + align - 1
  let doubled : Int64 :=
    match head with
    | some c => 2 * c.size
    | none => 0
  let wanted := max (max a.minChunk doubled) need
  if 0 < a.limit then
    let left := a.limit - a.capacity
    if left < need then .error (.exhausted size left a.limit) else .ok (min wanted left)
  else .ok wanted

def grow (size align : Int64) : Allocate Unit := do
  let h ← get
  match h.arena.nextChunk (head? h) size align with
  | .error e => throw e
  | .ok n =>
    if n < 0 then throw .negativeChunk
    let (base, space) := h.space.reserve n
    set { h with
      space
      arena := { h.arena with held := base :: h.arena.held, capacity := h.arena.capacity + n } }

def tryHead (size align : Int64) : Allocate (Option UInt64) := do
  let h ← get
  match (head? h).bind fun c => bump? h c size align with
  | none => return none
  | some (address, h) =>
    set h
    return some address

/-- Allocate zeroed bytes at a multiple of the alignment, or of the arena's own alignment when that
is greater or none is given. -/
def alloc (size align : Int64) : Allocate UInt64 := do
  if size < 0 then throw (.negativeSize size)
  let least := (← get).arena.minAlign
  let align := if align ≤ 0 then least else align
  if !isPowerOfTwo align then throw (.badAlign align)
  let align := max align least
  match ← tryHead size align with
  | some address => return address
  | none =>
    grow size align
    match ← tryHead size align with
    | some address => return address
    | none => throw .chunkTooSmall

def bytes (address : UInt64) (length : Int64) : Allocate (List UInt8) := do
  match (← get).space.read address length with
  | .ok bs => return bs
  | .error e => throw e

def write (address : UInt64) (bs : List UInt8) : Allocate Unit := do
  match (← get).space.write address bs with
  | .ok space => modify fun h => { h with space }
  | .error e => throw e

def copy (bs : List UInt8) (align : Int64) : Allocate UInt64 := do
  let address ← alloc (Int64.ofNat bs.length) align
  if !bs.isEmpty then write address bs
  return address

def copyText (s : String) : Allocate String := do
  if s ≠ "" then discard (copy (Text.toBytes s) 1)
  return s

def owns (h : Heap) (address : UInt64) : Bool :=
  h.arena.held.any fun base =>
    match h.space.chunk? base with
    | some c => c.base + c.top.toUInt64 ≤ address && address < c.base + c.size.toUInt64
    | none => false

def reset (h : Heap) : Heap :=
  match h.arena.held with
  | [] => h
  | base :: older =>
    let size : Int64 :=
      match h.space.chunk? base with
      | some c => c.size
      | none => 0
    { space := (h.space.releaseAll older).modifyChunk base Chunk.rewind
      arena := { h.arena with held := [base], capacity := size, allocated := 0 } }

def destroy (h : Heap) : Heap where
  space := h.space.releaseAll h.arena.held
  arena := { h.arena with held := [], capacity := 0, allocated := 0 }

end Arena

end SsaIr
