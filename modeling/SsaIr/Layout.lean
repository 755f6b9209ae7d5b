import SsaIr.Breakdown
import SsaIr.Ty

/-!
# Data layout

Sizes, alignments and member offsets of types in memory, for a target described by a `LayoutSpec`.
All quantities are 64-bit machine integers, and sums and products wrap. Members of a struct follow
each other, each at the next multiple of its alignment; the struct is as aligned as its most aligned
member, and its size is a multiple of its alignment.
-/

namespace SsaIr

structure Extent where
  size : Int64
  align : Int64
deriving DecidableEq, Repr, Inhabited

/-- A target: byte order, extents of the scalars, and the least alignment of structs. -/
structure LayoutSpec where
  littleEndian : Bool
  i1 : Extent
  i8 : Extent
  i16 : Extent
  i32 : Extent
  i64 : Extent
  f32 : Extent
  f64 : Extent
  ptr : Extent
  aggregateAlign : Int64
deriving DecidableEq, Repr, Inhabited

inductive LayoutSpecError where
  | size (scalar : String) (n : Int64)
  | alignment (scalar : String) (n : Int64)
  | floats
  | aggregate (n : Int64)
deriving DecidableEq, Repr, Inhabited

def LayoutSpecError.message (e : LayoutSpecError) : String :=
  "datalayout: invalid spec: " ++
    match e with
    | size s n => s!"{s} size {n.toInt}"
    | alignment s n => s!"{s} alignment {n.toInt}"
    | floats => "floats must be 4 and 8 bytes"
    | aggregate n => s!"aggregate alignment {n.toInt}"

def isPowerOfTwo (n : Int64) : Bool := 0 < n && n &&& (n - 1) == 0

def alignUp (n align : Int64) : Int64 := (n + align - 1) &&& ~~~(align - 1)

namespace LayoutSpec

/-- A little-endian target with 64-bit pointers, where every scalar is aligned to its size. -/
def host : LayoutSpec where
  littleEndian := true
  i1 := ⟨1, 1⟩
  i8 := ⟨1, 1⟩
  i16 := ⟨2, 2⟩
  i32 := ⟨4, 4⟩
  i64 := ⟨8, 8⟩
  f32 := ⟨4, 4⟩
  f64 := ⟨8, 8⟩
  ptr := ⟨8, 8⟩
  aggregateAlign := 0

def scalars (s : LayoutSpec) : List (String × Extent × Int64) :=
  [("i1", s.i1, 1), ("i8", s.i8, 1), ("i16", s.i16, 2), ("i32", s.i32, 4), ("i64", s.i64, 8),
    ("f32", s.f32, 4), ("f64", s.f64, 8), ("ptr", s.ptr, 1)]

/-- Every scalar has a size between its least one and 8 bytes, and an alignment that is a power of
two. -/
def checkScalars : List (String × Extent × Int64) → Except LayoutSpecError Unit
  | [] => .ok ()
  | (name, extent, least) :: rest =>
    if extent.size < least || 8 < extent.size then .error (.size name extent.size)
    else if !isPowerOfTwo extent.align then .error (.alignment name extent.align)
    else checkScalars rest

def check (s : LayoutSpec) : Except LayoutSpecError Unit := do
  checkScalars s.scalars
  if s.f32.size ≠ 4 || s.f64.size ≠ 8 then throw .floats
  if s.aggregateAlign ≠ 0 && !isPowerOfTwo s.aggregateAlign then throw (.aggregate s.aggregateAlign)

end LayoutSpec

structure DataLayout where
  spec : LayoutSpec
  admissible : spec.check = .ok ()

structure StructLayout where
  offsets : List Int64
  size : Int64
  align : Int64
deriving DecidableEq, Repr, Inhabited

namespace DataLayout

def new (spec : LayoutSpec) : Except LayoutSpecError DataLayout :=
  match h : spec.check with
  | .ok _ => .ok { spec, admissible := h }
  | .error e => .error e

def host : DataLayout where
  spec := .host
  admissible := by rfl

def littleEndian (d : DataLayout) : Bool := d.spec.littleEndian

def intExtent (d : DataLayout) : IntWidth → Extent
  | .w1 => d.spec.i1
  | .w8 => d.spec.i8
  | .w16 => d.spec.i16
  | .w32 => d.spec.i32
  | .w64 => d.spec.i64

def floatExtent (d : DataLayout) : FloatWidth → Extent
  | .f32 => d.spec.f32
  | .f64 => d.spec.f64

def noLayout (t : Ty) : Breakdown := .abort s!"datalayout: type {t.text} has no layout"

/-- Size and alignment of a struct from the end of its last member and its greatest alignment. -/
def closeStruct (d : DataLayout) (offsets : List Int64) (last align : Int64) : StructLayout :=
  let align := max align d.spec.aggregateAlign
  { offsets, size := alignUp last align, align }

mutual
def extent (d : DataLayout) : Ty → Except Breakdown Extent
  | .int w => .ok (d.intExtent w)
  | .float w => .ok (d.floatExtent w)
  | .pointer _ => .ok d.spec.ptr
  | .array n t => do
    let e ← d.extent t
    return { size := e.size * Int64.ofNat n, align := e.align }
  | .struct ms => do
    let l ← d.place [] 0 1 ms
    return { size := l.size, align := l.align }
  | .named _ ms => do
    let l ← d.place [] 0 1 ms
    return { size := l.size, align := l.align }
  | .void => .error (noLayout .void)
  | .label => .error (noLayout .label)
  | .function r ps v => .error (noLayout (.function r ps v))

/-- Place members after those already placed, whose offsets are given latest first. -/
def place (d : DataLayout) (offsets : List Int64) (last align : Int64) :
    List Ty → Except Breakdown StructLayout
  | [] => .ok (d.closeStruct offsets.reverse last align)
  | t :: rest => do
    let e ← d.extent t
    let offset := alignUp last e.align
    d.place (offset :: offsets) (offset + e.size) (max align e.align) rest
end

def sizeOf (d : DataLayout) (t : Ty) : Except Breakdown Int64 := return (← d.extent t).size

def structLayout (d : DataLayout) (t : Ty) : Except Breakdown StructLayout :=
  match t with
  | .struct ms | .named _ ms => d.place [] 0 1 ms
  | t => .error (.abort s!"datalayout: {t.text} is not a struct")

end DataLayout

end SsaIr
