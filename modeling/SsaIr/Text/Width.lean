import SsaIr.Text.Octets
import SsaIr.Text.Printable

/-!
# Display width

How many columns a text takes on a terminal. Control, format and combining characters take none, as
do the narrow mathematical brackets; wide and full-width characters take two. Sequences that set
colours or erase a line are not shown at all, which `displayWidth` takes into account.
-/

namespace SsaIr.Text

def unprintedRuns : List Nat := [
  0, 32, 95, 33, 13, 1, 1633, 1, 4347, 4, 2044, 5, 24, 7, 59, 6, 56975, 1, 249, 3, 2, 2]

def combiningRuns : List Nat := [
  768, 112, 275, 7, 865, 9, 1036, 1, 3, 1, 251, 2, 1627, 3, 1823, 1, 48, 15, 172, 9, 588, 58, 1, 5,
  720, 33, 3070, 3, 238, 32, 665, 2, 30164, 4, 1, 10, 32, 2, 80, 2, 494, 18, 21806, 16, 973, 1, 376,
  5, 3019, 11, 943, 2, 57, 2, 41, 7, 3, 5, 22395, 5, 26224, 5, 3, 6, 8, 8, 2, 7, 30, 4, 148, 3,
  3515, 7, 1, 17, 2, 7, 1, 2, 1, 5, 2213, 7]

def bracketRuns : List Nat := [
  10214, 8, 407, 2]

def wideRuns : List Nat := [
  4352, 96, 4538, 2, 13, 2, 190, 4, 3, 1, 2, 1, 521, 2, 21, 2, 50, 12, 43, 1, 19, 1, 13, 1, 8, 2,
  17, 2, 5, 2, 8, 1, 5, 1, 21, 1, 7, 2, 1, 1, 4, 1, 2, 1, 7, 1, 4, 2, 28, 1, 35, 1, 1, 1, 4, 3, 1,
  1, 61, 3, 24, 1, 14, 1, 859, 2, 51, 1, 4, 1, 810, 26, 1, 89, 12, 214, 26, 12, 4, 63, 2, 86, 2,
  103, 5, 43, 1, 94, 1, 43, 5, 36, 12, 47, 1, 40, 8, 7024, 64, 22157, 3, 55, 1177, 29, 643, 11172,
  8540, 512, 784, 10, 22, 35, 1, 19, 1, 4, 149, 96, 127, 7, 28665, 4, 28, 6136, 8, 755, 9485, 287,
  49, 3, 17, 4, 8, 396, 15624, 1, 202, 1, 190, 1, 2, 10, 101, 3, 13, 44, 4, 9, 7, 2, 14, 6, 154, 33,
  12, 9, 1, 70, 1, 22, 12, 43, 4, 5, 12, 17, 3, 1, 3, 71, 1, 1, 1, 187, 2, 63, 13, 4, 1, 24, 18, 1,
  26, 2, 13, 1, 86, 85, 48, 70, 6, 1, 3, 3, 2, 1, 21, 2, 7, 7, 229, 12, 289, 101, 1, 4, 3, 41, 2, 6,
  3, 29, 2, 51, 112, 4, 4, 3, 5, 3, 13, 6, 1386, 65534, 2, 65534]

def Rune.width : Rune → Nat
  | .stray _ => 1
  | .valid c =>
    if inRuns false unprintedRuns c.toNat || inRuns false combiningRuns c.toNat
      || inRuns false bracketRuns c.toNat then 0
    else if inRuns false wideRuns c.toNat then 2
    else 1

/-- The columns of a text, where the characters of terminal sequences count. -/
def width (s : String) : Nat := ((runes s.toList).map Rune.width).foldl (· + ·) 0

/-! ## Terminal sequences -/

def areParameters (cs : List Char) : Bool :=
  cs.isEmpty || ((String.ofList cs).splitOn ";").all fun n => 1 ≤ n.length && n.length ≤ 3

/-- The length of a terminal sequence after its escape character: a bracket, numbers between
semicolons, and a letter or a bar. -/
def sequenceLength? : List Char → Option Nat
  | '[' :: cs =>
    let inside (c : Char) : Bool := c.isDigit || c = ';'
    let body := cs.takeWhile inside
    match cs.dropWhile inside with
    | c :: _ =>
      if (c = 'm' || c = '|' || c = 'K') && areParameters body then some (body.length + 2)
      else none
    | [] => none
  | _ => none

/-- A text without its terminal sequences, after a number of characters that belong to one. -/
def stripFrom (skip : Nat) : List Char → List Char
  | [] => []
  | c :: cs =>
    match skip with
    | n + 1 => stripFrom n cs
    | 0 =>
      match if c = '\x1b' then sequenceLength? cs else none with
      | some n => stripFrom n cs
      | none => c :: stripFrom 0 cs

def displayWidth (s : String) : Nat := width (String.ofList (stripFrom 0 s.toList))

end SsaIr.Text
