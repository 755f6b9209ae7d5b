import SsaIr.Number.FloatText
import SsaIr.Number.IntWidth

/-!
# Types

A type is a piece of data: two types are the same exactly when they have the same structure. A
named struct carries its members along with its name; the context that introduces names keeps
one body for each name, so that within a context named structs are the same when their names are.
-/

namespace SsaIr

/-- The types of values and functions. -/
inductive Ty where
  | void
  | int (w : IntWidth)
  | float (w : FloatWidth)
  | label
  | pointer (pointee : Ty)
  | array (count : Nat) (elem : Ty)
  | struct (members : List Ty)
  | named (name : String) (members : List Ty)
  | function (ret : Ty) (params : List Ty) (variadic : Bool)
deriving Repr, Inhabited

namespace Ty

mutual
def decEq : (a b : Ty) → Decidable (a = b)
  | .void, b => by cases b <;> first | exact isTrue rfl | exact isFalse (by simp)
  | .label, b => by cases b <;> first | exact isTrue rfl | exact isFalse (by simp)
  | .int w, b =>
    match b with
    | .int v => if h : w = v then isTrue (by rw [h]) else isFalse (by simp [h])
    | .void | .float _ | .label | .pointer _ | .array .. | .struct _ | .named .. | .function .. =>
      isFalse (by simp)
  | .float w, b =>
    match b with
    | .float v => if h : w = v then isTrue (by rw [h]) else isFalse (by simp [h])
    | .void | .int _ | .label | .pointer _ | .array .. | .struct _ | .named .. | .function .. =>
      isFalse (by simp)
  | .pointer s, b =>
    match b with
    | .pointer t =>
      match decEq s t with
      | isTrue h => isTrue (by rw [h])
      | isFalse h => isFalse (by simp [h])
    | .void | .int _ | .float _ | .label | .array .. | .struct _ | .named .. | .function .. =>
      isFalse (by simp)
  | .array m s, b =>
    match b with
    | .array n t =>
      if hn : m = n then
        match decEq s t with
        | isTrue h => isTrue (by rw [h, hn])
        | isFalse h => isFalse (by simp [h])
      else isFalse (by simp [hn])
    | .void | .int _ | .float _ | .label | .pointer _ | .struct _ | .named .. | .function .. =>
      isFalse (by simp)
  | .struct ss, b =>
    match b with
    | .struct ts =>
      match decEqList ss ts with
      | isTrue h => isTrue (by rw [h])
      | isFalse h => isFalse (by simp [h])
    | .void | .int _ | .float _ | .label | .pointer _ | .array .. | .named .. | .function .. =>
      isFalse (by simp)
  | .named m ss, b =>
    match b with
    | .named n ts =>
      if hn : m = n then
        match decEqList ss ts with
        | isTrue h => isTrue (by rw [h, hn])
        | isFalse h => isFalse (by simp [h])
      else isFalse (by simp [hn])
    | .void | .int _ | .float _ | .label | .pointer _ | .array .. | .struct _ | .function .. =>
      isFalse (by simp)
  | .function r ss v, b =>
    match b with
    | .function q ts u =>
      if hv : v = u then
        match decEq r q with
        | isTrue hr =>
          match decEqList ss ts with
          | isTrue h => isTrue (by rw [h, hr, hv])
          | isFalse h => isFalse (by simp [h])
        | isFalse hr => isFalse (by simp [hr])
      else isFalse (by simp [hv])
    | .void | .int _ | .float _ | .label | .pointer _ | .array .. | .struct _ | .named .. =>
      isFalse (by simp)

def decEqList : (a b : List Ty) → Decidable (a = b)
  | [], [] => isTrue rfl
  | [], _ :: _ => isFalse (by simp)
  | _ :: _, [] => isFalse (by simp)
  | s :: ss, t :: ts =>
    match decEq s t with
    | isTrue h =>
      match decEqList ss ts with
      | isTrue hs => isTrue (by rw [h, hs])
      | isFalse hs => isFalse (by simp [hs])
    | isFalse h => isFalse (by simp [h])
end

instance : DecidableEq Ty := decEq

abbrev i1 : Ty := int .w1

abbrev i64 : Ty := int .w64

def isInteger : Ty → Bool
  | int _ => true
  | _ => false

def isFloat : Ty → Bool
  | float _ => true
  | _ => false

def isVoid : Ty → Bool
  | void => true
  | _ => false

def isLabel : Ty → Bool
  | label => true
  | _ => false

def isPointer : Ty → Bool
  | pointer _ => true
  | _ => false

def isArray : Ty → Bool
  | array .. => true
  | _ => false

def isStruct : Ty → Bool
  | struct _ | named .. => true
  | _ => false

def isFunction : Ty → Bool
  | function .. => true
  | _ => false

def isNamed : Ty → Bool
  | named .. => true
  | _ => false

/-- Types with parts. -/
def isAggregate (t : Ty) : Bool := t.isArray || t.isStruct

/-- Types of scalars. -/
def isPrimitive (t : Ty) : Bool := t.isInteger || t.isFloat || t.isPointer

/-- Types whose values lie in memory. -/
def isSized : Ty → Bool
  | void | label | function .. => false
  | _ => true

/-- Types of what a function may return. -/
def isReturnable : Ty → Bool
  | label | function .. => false
  | _ => true

/-- The number of bits of a number, and 0 for other types. -/
def bitWidth : Ty → Nat
  | int w => w.bits
  | float w => w.bits
  | _ => 0

def pointee? : Ty → Option Ty
  | pointer t => some t
  | _ => none

def elem? : Ty → Option Ty
  | array _ t => some t
  | _ => none

def count : Ty → Nat
  | array n _ => n
  | _ => 0

/-- The types of the members of a struct. -/
def members : Ty → List Ty
  | struct ts | named _ ts => ts
  | _ => []

def structName : Ty → String
  | named n _ => n
  | _ => ""

def params : Ty → List Ty
  | function _ ps _ => ps
  | _ => []

def ret? : Ty → Option Ty
  | function r _ _ => some r
  | _ => none

def variadic : Ty → Bool
  | function _ _ v => v
  | _ => false

def isFunctionPointer : Ty → Bool
  | pointer (function ..) => true
  | _ => false

mutual
/-- The notation of a type in a source. -/
def text : Ty → String
  | void => "void"
  | int w => w.name
  | float w => w.name
  | label => "label"
  | pointer t => "<" ++ t.text ++ ">"
  | array n t => "[" ++ toString n ++ " x " ++ t.text ++ "]"
  | struct ts => bodyText ts
  | named n _ => "%" ++ n
  | function r ps v =>
    let dots := if v then (if ps.isEmpty then "..." else ", ...") else ""
    r.text ++ " (" ++ listText ps ++ dots ++ ")"

def listText : List Ty → String
  | [] => ""
  | [t] => t.text
  | t :: u :: ts => t.text ++ ", " ++ listText (u :: ts)

def bodyText : List Ty → String
  | [] => "\x7b \x7d"
  | t :: ts => "\x7b " ++ listText (t :: ts) ++ " \x7d"
end

/-- The notation of a type that may be missing, for messages. -/
def optionText : Option Ty → String
  | some t => t.text
  | none => "<null_type>"

end Ty

end SsaIr
