import SsaIr.Container.HashKeys

/-!
# Interned texts

An interner keeps one copy of every text it was asked for. The empty text needs no copy.
-/

namespace SsaIr

structure Interner where
  table : HashTable String Unit := .new 64
deriving Inhabited

namespace Interner

def intern (t : Interner) (s : String) : String × Interner :=
  if s = "" then ("", t)
  else
    match t.table.getKey? .text s with
    | some kept => (kept, t)
    | none =>
      let table := (t.table.put .text s ()).2
      ((table.getKey? .text s).getD "", { table })

def size (t : Interner) : Nat := t.table.size

end Interner

end SsaIr
