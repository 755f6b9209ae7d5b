import SsaIr.Memory.Arena

/-!
# Growing texts in an arena

A `TextBuffer` is a text under construction whose bytes live in an arena (`SsaIr.Memory.Arena`).
When a piece does not fit, the text moves to at least twice the room; the outgrown room stays
allocated until the arena is reset.
-/

namespace SsaIr

/-- A text under construction: where it starts, the bytes reserved for it, and those written. -/
structure TextBuffer where
  address : UInt64 := 0
  room : Nat := 0
  length : Nat := 0
deriving DecidableEq, Repr, Inhabited

namespace TextBuffer

/-- The first of `size`, `2 * size`, `4 * size`, … that holds the needed bytes. -/
def doubled (need size : Nat) : Nat :=
  if size = 0 ∨ need ≤ size then size else doubled need (2 * size)
termination_by need - size

def nextRoom (room need : Nat) : Nat := doubled need (max (2 * room) 256)

def text (b : TextBuffer) : Allocate String := do
  if b.length = 0 then return ""
  return Text.ofBytes (← Arena.bytes b.address (Int64.ofNat b.length))

def grow (b : TextBuffer) (need : Nat) : Allocate TextBuffer := do
  let room := nextRoom b.room need
  let written ← b.text
  let address ← Arena.alloc (Int64.ofNat room) 1
  if written ≠ "" then Arena.write address (Text.toBytes written)
  return { b with address, room }

def append (b : TextBuffer) (piece : String) : Allocate TextBuffer := do
  let need := b.length + piece.length
  let b ← if b.room < need then b.grow need else pure b
  if piece ≠ "" then Arena.write (b.address + b.length.toUInt64) (Text.toBytes piece)
  return { b with length := need }

def appendAll (b : TextBuffer) : List String → Allocate TextBuffer
  | [] => return b
  | piece :: rest => do (← b.append piece).appendAll rest

end TextBuffer

end SsaIr
