import SsaIr.Text.Octets

/-!
# A 64-bit hash of bytes

xxHash64 with seed 0. The bytes are read as little-endian words. Four lanes take one word each from
every full stripe of four; then the remaining words, a half word and single bytes are mixed in, and
a final step spreads every bit over the result.
-/

namespace SsaIr.Hash64

def prime1 : UInt64 := 11400714785074694791

def prime2 : UInt64 := 14029467366897019727

def prime3 : UInt64 := 1609587929392839161

def prime4 : UInt64 := 9650029242287828579

def prime5 : UInt64 := 2870177450012600261

def rotate (w : UInt64) (n : UInt64) : UInt64 := (w <<< n) ||| (w >>> (64 - n))

def word (bytes : List UInt8) : UInt64 := bytes.foldr (fun b w => (w <<< 8) ||| b.toUInt64) 0

def wordBytes (w : UInt64) : List UInt8 :=
  (List.range 8).map fun i => (w >>> (8 * i).toUInt64).toUInt8

def split : List UInt8 → List UInt64 × List UInt8
  | a :: b :: c :: d :: e :: f :: g :: h :: rest =>
    let (ws, left) := split rest
    (word [a, b, c, d, e, f, g, h] :: ws, left)
  | rest => ([], rest)

def round (lane w : UInt64) : UInt64 := rotate (lane + w * prime2) 31 * prime1

structure Lanes where
  a : UInt64 := prime1 + prime2
  b : UInt64 := prime2
  c : UInt64 := 0
  d : UInt64 := 0 - prime1
deriving DecidableEq, Repr

/-- Mix all full stripes into the lanes; gives the fewer than four words left. -/
def stripes (l : Lanes) : List UInt64 → Lanes × List UInt64
  | w :: x :: y :: z :: rest =>
    stripes { a := round l.a w, b := round l.b x, c := round l.c y, d := round l.d z } rest
  | rest => (l, rest)

def merge (h lane : UInt64) : UInt64 := (h ^^^ round 0 lane) * prime1 + prime4

def Lanes.joined (l : Lanes) : UInt64 :=
  let h := rotate l.a 1 + rotate l.b 7 + rotate l.c 12 + rotate l.d 18
  merge (merge (merge (merge h l.a) l.b) l.c) l.d

def tailWord (h w : UInt64) : UInt64 := rotate (h ^^^ round 0 w) 27 * prime1 + prime4

def tailByte (h : UInt64) (b : UInt8) : UInt64 := rotate (h ^^^ b.toUInt64 * prime5) 11 * prime1

/-- Mix fewer than eight bytes: a half word, if there is one, and single bytes. -/
def tail (h : UInt64) : List UInt8 → UInt64
  | a :: b :: c :: d :: rest =>
    rest.foldl tailByte (rotate (h ^^^ word [a, b, c, d] * prime1) 23 * prime2 + prime3)
  | rest => rest.foldl tailByte h

def avalanche (h : UInt64) : UInt64 :=
  let h := (h ^^^ (h >>> 33)) * prime2
  let h := (h ^^^ (h >>> 29)) * prime3
  h ^^^ (h >>> 32)

def ofBytes (bytes : List UInt8) : UInt64 :=
  let (words, left) := split bytes
  let (lanes, rest) := stripes {} words
  let start := if words.length < 4 then prime5 else lanes.joined
  avalanche (tail (rest.foldl tailWord (start + bytes.length.toUInt64)) left)

def ofWord (w : UInt64) : UInt64 := ofBytes (wordBytes w)

def ofText (s : String) : UInt64 := ofBytes (Text.toBytes s)

inductive Part where
  | word (w : UInt64)
  | text (s : String)
deriving DecidableEq, Repr

def Part.bytes : Part → List UInt8
  | word w => wordBytes w
  | text s => Text.toBytes s

def ofParts (parts : List Part) : UInt64 := ofBytes (parts.flatMap Part.bytes)

end SsaIr.Hash64
