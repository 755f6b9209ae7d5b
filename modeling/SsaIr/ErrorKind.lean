/-!
# Kinds of failures

The categories under which every failure of the library is filed.
-/

namespace SsaIr

inductive ErrorKind where
  | outOfMemory
  | typeMismatch
  | structural
  | ssa
  | parse
  | runtime
deriving DecidableEq, Repr, Inhabited

namespace ErrorKind

def all : List ErrorKind := [.outOfMemory, .typeMismatch, .structural, .ssa, .parse, .runtime]

def name : ErrorKind → String
  | outOfMemory => "out of memory"
  | typeMismatch => "type mismatch"
  | structural => "structural error"
  | ssa => "SSA error"
  | parse => "parse error"
  | runtime => "runtime error"

def codeName (code : Int) : String :=
  match if 1 ≤ code then all[code.toNat - 1]? else none with
  | some k => k.name
  | none => s!"ErrorKind({code})"

end ErrorKind

end SsaIr
