/-!
# Slabs

A slab hands out cells of one type from chunks, each twice as large as the one before. Cells handed
out stay readable when the slab starts over.
-/

namespace SsaIr

/-- Cells in the order in which they were handed out, with the count since the slab last started
over, the number of chunks behind them, the free cells of the newest chunk and the size of the next
one. -/
structure Slab (α : Type) where
  cells : Array α := #[]
  length : Nat := 0
  chunks : Nat := 0
  free : Nat := 0
  next : Nat := 0
deriving Repr, Inhabited

namespace Slab

variable {α : Type}

def leastChunk : Nat := 16

def ready (s : Slab α) : Slab α :=
  if s.free = 0 then
    let size := max s.next leastChunk
    { s with free := size, next := 2 * size, chunks := s.chunks + 1 }
  else s

def push (s : Slab α) (a : α) : Slab α :=
  let s := s.ready
  { s with cells := s.cells.push a, length := s.length + 1, free := s.free - 1 }

def reset (s : Slab α) : Slab α := { cells := s.cells }

def get? (s : Slab α) (n : Nat) : Option α := s.cells[n]?

end Slab

end SsaIr
