import SsaIr.Breakdown
import SsaIr.Text.Octets
import Std.Data.TreeMap

/-!
# Address spaces

An address space hands out chunks of addresses. Bases only grow, are multiples of the page size, and
an unmapped page follows every chunk, so that chunks never meet. Within a chunk, memory is allocated
from the top down: the bytes from offset `top` on are allocated, those below are not accessible.
Bytes that were never written are zero. Read `Space.resolve` first: it decides which address ranges
may be accessed.
-/

namespace SsaIr

inductive MemoryError where
  | negativeSize (size : Int64)
  | badAlign (align : Int64)
  | exhausted (size left limit : Int64)
  | nullAddress
  | negativeLength (length : Int64)
  | invalidAddress (address : UInt64) (length : Int64)
  | chunkTooSmall
  | negativeChunk
  | rangeWraps
deriving DecidableEq, Repr, Inhabited

namespace MemoryError

def message : MemoryError → String
  | negativeSize n => s!"arena: negative allocation size {n.toInt}"
  | badAlign n => s!"arena: alignment must be a power of two: {n.toInt}"
  | exhausted n left limit =>
    s!"arena: out of memory: requested {n.toInt} bytes, {left.toInt} of {limit.toInt} left"
  | nullAddress => "arena: invalid address: null pointer"
  | negativeLength n => s!"arena: invalid address: negative length {n.toInt}"
  | invalidAddress a n =>
    s!"arena: invalid address: addr=0x{Text.hex a.toNat} size={n.toInt}"
  | chunkTooSmall => "arena: fresh chunk cannot satisfy allocation"
  | negativeChunk => "arena: chunk of negative size"
  | rangeWraps => "arena: range wraps around"

/-- The breakdown that an error stands for, if it is more than a refusal. -/
def breakdown? : MemoryError → Option Breakdown
  | chunkTooSmall => some (.abort chunkTooSmall.message)
  | negativeChunk | rangeWraps => some .crash
  | _ => none

end MemoryError

/-- A piece of memory that is handed out from its end downwards. -/
structure Chunk where
  base : UInt64
  size : Int64
  top : Int64
  untouched : Int64
  bytes : Std.TreeMap Nat UInt8

namespace Chunk

def fresh (base : UInt64) (size : Int64) : Chunk where
  base
  size
  top := size
  untouched := size
  bytes := {}

def byte (c : Chunk) (offset : Nat) : UInt8 := c.bytes.getD offset 0

def read (c : Chunk) (offset count : Nat) : List UInt8 :=
  (List.range count).map fun i => c.byte (offset + i)

def write (c : Chunk) (offset : Nat) : List UInt8 → Chunk
  | [] => c
  | b :: rest => write { c with bytes := c.bytes.insert offset b } (offset + 1) rest

def clear (c : Chunk) (offset : Nat) : Nat → Chunk
  | 0 => c
  | n + 1 => clear { c with bytes := c.bytes.erase offset } (offset + 1) n

/-- Allocate from an offset on: the first `size` bytes become zero. Bytes that were never touched
are zero already. -/
def allocate (c : Chunk) (offset size : Int64) : Chunk :=
  let start := max offset c.untouched
  let c := c.clear start.toInt.toNat (offset + size - start).toInt.toNat
  { c with top := offset, untouched := min c.untouched offset }

def rewind (c : Chunk) : Chunk := { c with top := c.size }

end Chunk

def pageSize : Int64 := 4096

/-- The base of the first chunk, which keeps small numbers from being addresses. -/
def firstBase : UInt64 := 0x10000

structure Space where
  next : UInt64 := firstBase
  chunks : List Chunk := []

instance : Inhabited Space := ⟨{}⟩

namespace Space

def reserve (s : Space) (size : Int64) : UInt64 × Space :=
  let span := (size + pageSize - 1) &&& ~~~(pageSize - 1)
  (s.next,
    { next := s.next + (span + pageSize).toUInt64, chunks := .fresh s.next size :: s.chunks })

def release (s : Space) (base : UInt64) : Space :=
  { s with chunks := s.chunks.filter fun c => c.base ≠ base }

def releaseAll (s : Space) (bases : List UInt64) : Space := bases.foldl release s

def chunk? (s : Space) (base : UInt64) : Option Chunk := s.chunks.find? fun c => c.base = base

def modifyChunk (s : Space) (base : UInt64) (f : Chunk → Chunk) : Space :=
  { s with chunks := s.chunks.map fun c => if c.base = base then f c else c }

/-- The chunk and the offset that a range of addresses starts at, if all of it is allocated. -/
def resolve (s : Space) (address : UInt64) (length : Int64) :
    Except MemoryError (Chunk × Int64) :=
  if address = 0 then .error .nullAddress
  else if length < 0 then .error (.negativeLength length)
  else
    match s.chunks.find? fun c => c.base ≤ address with
    | none => .error (.invalidAddress address length)
    | some c =>
      let offset := (address - c.base).toInt64
      if offset < c.top || c.size < offset + length then .error (.invalidAddress address length)
      else if offset + length < offset then .error .rangeWraps
      else .ok (c, offset)

def read (s : Space) (address : UInt64) (length : Int64) : Except MemoryError (List UInt8) := do
  let (c, offset) ← s.resolve address length
  return c.read offset.toInt.toNat length.toInt.toNat

def write (s : Space) (address : UInt64) (bytes : List UInt8) : Except MemoryError Space := do
  let (c, offset) ← s.resolve address (Int64.ofNat bytes.length)
  return s.modifyChunk c.base fun c => c.write offset.toInt.toNat bytes

def chunkCount (s : Space) : Nat := s.chunks.length

end Space

end SsaIr
