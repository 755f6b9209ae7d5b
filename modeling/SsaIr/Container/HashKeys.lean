import SsaIr.Container.Hash64
import SsaIr.Container.HashTable
import SsaIr.Number.Binary

/-!
# Kinds of keys

The rules of the keys that tables are made for (`SsaIr.Container.HashTable`): integers by value,
floating-point numbers by numeric equality, and texts by content. Numbers are words: an integer is
extended to 64 bits, and a float is a double, to which a narrower number is converted exactly.
-/

namespace SsaIr

namespace KeyRules

def word : KeyRules UInt64 where
  hash := Hash64.ofWord
  same a b := a = b

def foldZero (bits : UInt64) : UInt64 := if bits = 0x8000000000000000 then 0 else bits

/-- Floats are the same when they are numerically equal: the zeros are, and a NaN equals nothing. A
NaN is no key, and a zero is stored as the positive one. -/
def float : KeyRules UInt64 where
  hash bits := Hash64.ofWord (foldZero bits)
  same a b := !isNan64 a && !isNan64 b && foldZero a = foldZero b
  storedForm bits := if isNan64 bits then none else some (foldZero bits)

def text : KeyRules String where
  hash := Hash64.ofText
  same a b := a = b

end KeyRules

def KeyError.message : KeyError → String
  | refused => "hashmap: NaN key"

end SsaIr
