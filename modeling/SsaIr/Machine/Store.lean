import SsaIr.Graph.Basic
import SsaIr.Machine.Fault
import SsaIr.Memory.Arena

/-!
# The memory of a machine

Scalars are kept as bytes in the order of the target. `Store` holds everything that outlives a call:
the address space, the arena of globals and of addresses of functions, which are handed out when
they are first needed, and the output written so far.
-/

namespace SsaIr

def bigEndian (bytes : List UInt8) : UInt64 :=
  bytes.foldl (fun v b => v <<< 8 ||| b.toUInt64) 0

def decodeBytes (little : Bool) (bytes : List UInt8) : UInt64 :=
  bigEndian (if little then bytes.reverse else bytes)

/-- The lowest bytes of a number, the least significant first; there are eight that can be set. -/
def lowBytes (v : UInt64) : Nat → List UInt8
  | 0 => []
  | n + 1 => v.toUInt8 :: lowBytes (v >>> 8) n

def encodeBytes (little : Bool) (count : Nat) (v : UInt64) : List UInt8 :=
  if little then lowBytes v count else (lowBytes v count).reverse

def RuntimeKind.decode (k : RuntimeKind) (raw : UInt64) : RuntimeValue :=
  match k with
  | .int w => .ofInt w raw.toInt64
  | k => { kind := k, bits := raw }

namespace Space

def load (s : Space) (d : DataLayout) (address : UInt64) (t : Ty) : Except Stop RuntimeValue := do
  let k := RuntimeKind.ofType t
  if k = .undef then throw (.failure (.raise (.loadAggregate t)))
  let size ← (d.sizeOf t).mapError .breakdown
  let bytes ← (s.read address size).mapError .ofAddress
  return k.decode (decodeBytes d.littleEndian bytes)

def store (s : Space) (d : DataLayout) (address : UInt64) (t : Ty) (v : RuntimeValue) :
    Except Stop Space := do
  let k := RuntimeKind.ofType t
  if k = .undef then throw (.failure (.raise (.storeAggregate t)))
  if !v.isUndef && v.kind ≠ k then throw (.failure (.raise (.storeKind v.kind t)))
  let size ← (d.sizeOf t).mapError .breakdown
  (s.write address (encodeBytes d.littleEndian size.toInt.toNat v.bits)).mapError .ofAddress

/-- The bytes from an address up to the first zero, looking at no more than a number of them. -/
def text (s : Space) (start : UInt64) : Nat → UInt64 → Except Stop (List UInt8)
  | 0, _ => throw (.failure (.raise (.unterminatedText start)))
  | n + 1, address => do
    let bytes ← (s.read address 1).mapError .ofAddress
    match bytes with
    | [b] => if b = 0 then return [] else return b :: (← text s start n (address + 1))
    | _ => return []

end Space

def maxText : Nat := 65536

/-- The element that indices select within a type, and its offset added to a given one. Sums and
products wrap. -/
def DataLayout.descend (d : DataLayout) (t : Ty) (offset : Int64) :
    List RuntimeValue → Except Breakdown (Ty × Int64)
  | [] => .ok (t, offset)
  | ix :: rest =>
    match t with
    | .struct ms | .named _ ms => do
      let l ← d.structLayout t
      let n := ix.toInt.toInt
      match if 0 ≤ n then l.offsets[n.toNat]? else none, ms[n.toNat]? with
      | some o, some m => d.descend m (offset + o) rest
      | _, _ => throw .crash
    | .array _ elem => do
      let size ← d.sizeOf elem
      d.descend elem (offset + ix.toInt * size) rest
    | _ => throw .crash

/-- The address that indices select, starting from a pointer to the source type. -/
def DataLayout.elementAddress (d : DataLayout) (source : Ty) (base : RuntimeValue)
    (indices : List RuntimeValue) : Except Breakdown UInt64 :=
  match indices with
  | [] => .error .crash
  | first :: rest => do
    let size ← d.sizeOf source
    let (_, offset) ← d.descend source (first.toInt * size) rest
    return (base.toAddress.toInt64 + offset).toUInt64

/-- The memory, where globals and functions lie in it, and what was printed. -/
structure Store where
  space : Space := {}
  master : Arena := {}
  globals : Std.TreeMap Nat UInt64 := {}
  functions : Std.TreeMap Nat UInt64 := {}
  functionAt : Std.TreeMap Nat FuncId := {}
  output : List String := []
  closed : Bool := false

instance : Inhabited Store := ⟨{}⟩

/-- Give all memory back and forget which addresses stand for what. -/
def Store.close (s : Store) : Store :=
  if s.closed then s
  else
    let h := Arena.destroy { space := s.space, arena := s.master }
    { s with
      space := h.space, master := h.arena, globals := {}, functions := {}, functionAt := {}
      closed := true }

abbrev Access := EStateM Stop Store

namespace Access

def ofExcept {α : Type} : Except Stop α → Access α
  | .ok a => pure a
  | .error e => throw e

def onArena {α : Type} (a : Arena) (x : Allocate α) :
    Access (Except MemoryError α × Arena) := fun s =>
  let space := s.space
  let s := { s with space := {} }
  match x { space, arena := a } with
  | .ok r h => .ok (.ok r, h.arena) { s with space := h.space }
  | .error e h => .ok (.error e, h.arena) { s with space := h.space }

def alloc (size align : Int64) : Access (Except MemoryError UInt64) := do
  let a := (← get).master
  let (r, a) ← onArena a (Arena.alloc size align)
  modify fun s => { s with master := a }
  match r with
  | .ok address => return .ok address
  | .error e =>
    match e.breakdown? with
    | some b => throw (.breakdown b)
    | none => return .error e

def store (d : DataLayout) (address : UInt64) (t : Ty) (v : RuntimeValue) : Access Unit := do
  let space ← ofExcept ((← get).space.store d address t v)
  modify fun s => { s with space }

def functionAddress (f : FuncId) : Access UInt64 := do
  match (← get).functions[f.index]? with
  | some address => return address
  | none =>
    match ← alloc 1 1 with
    | .error e => throw (.failure (.memory e))
    | .ok address =>
      modify fun s =>
        { s with
          functions := s.functions.insert f.index address
          functionAt := s.functionAt.insert address.toNat f }
      return address

def functionAtAddress (address : UInt64) : Access FuncId := do
  match (← get).functionAt[address.toNat]? with
  | some f => return f
  | none => throw (.failure (.raise (.notFunction address)))

/-- The address of a global, whose cell is made when it is first asked for and then filled with its
initializer. The cell is known before it is filled, so that it may refer to itself. A bound on the
chain of globals that initialize each other is given. -/
def globalAddress (c : Context) (d : DataLayout) : Nat → GlobalId → Access UInt64
  | 0, _ => throw (.breakdown .crash)
  | n + 1, g => do
    match (← get).globals[g.index]? with
    | some address => return address
    | none =>
      let x := c.global g
      let e ← ofExcept ((d.extent x.allocated).mapError .breakdown)
      match ← alloc (max e.size 1) e.align with
      | .error e => throw (.failure (.globalMemory x.name e))
      | .ok address =>
        modify fun s => { s with globals := s.globals.insert g.index address }
        if RuntimeKind.ofType x.allocated = .undef then return address
        match x.init with
        | none => return address
        | some (.const k) => store d address x.allocated (.ofConst k)
        | some (.func f) => do
          let a ← functionAddress f
          store d address x.allocated (.ptr a)
        | some (.global h) => do
          let a ← globalAddress c d n h
          store d address x.allocated (.ptr a)
        | some _ => store d address x.allocated .undef
        return address

end Access

end SsaIr
