import SsaIr.Ty

/-!
# Kinds of types

The outermost shape of a type, with the numbers and names that reports use.
-/

namespace SsaIr

inductive TypeKind where
  | void
  | int (w : IntWidth)
  | float (w : FloatWidth)
  | label
  | pointer
  | array
  | struct
  | function
deriving DecidableEq, Repr, Inhabited

namespace TypeKind

def all : List TypeKind :=
  [.void, .int .w1, .int .w8, .int .w16, .int .w32, .int .w64, .float .f32, .float .f64, .label,
    .pointer, .array, .struct, .function]

def name : TypeKind → String
  | void => "void"
  | int w => w.name
  | float w => w.name
  | label => "label"
  | pointer => "pointer"
  | array => "array"
  | struct => "struct"
  | function => "function"

def codeName (code : Nat) : String :=
  match all[code]? with
  | some k => k.name
  | none => s!"TypeKind({code})"

end TypeKind

def Ty.kind : Ty → TypeKind
  | .void => .void
  | .int w => .int w
  | .float w => .float w
  | .label => .label
  | .pointer _ => .pointer
  | .array .. => .array
  | .struct _ | .named .. => .struct
  | .function .. => .function

end SsaIr
