/-!
# Descriptions

A `Datum` is a tree of texts, numbers and flags in which the parts of a program are described to a
reader outside of it. `SsaIr.Inspect.Describe` describes types and values, and `SsaIr.Inspect.Flow`
the analyses of a function.
-/

namespace SsaIr

inductive Datum where
  | nothing
  | flag (b : Bool)
  | number (n : Int)
  | text (s : String)
  | list (items : List Datum)
  | record (fields : List (String × Datum))
deriving Inhabited

namespace Datum

def text? : Option String → Datum
  | some s => .text s
  | none => .nothing

def texts (items : List String) : Datum := .list (items.map .text)

def numbers (items : List Nat) : Datum := .list (items.map fun (n : Nat) => .number n)

/-- A number in decimal digits, for a reader who cannot hold it otherwise. -/
def digits (n : Int) : Datum := .text (toString n)

def flags (bs : List Bool) : Datum := .text (String.ofList (bs.map fun b => if b then '1' else '0'))

end Datum

end SsaIr
