import SsaIr.Text.Octets

/-!
# Blanks

The characters that count as white space at the ends of a text.
-/

namespace SsaIr.Text

def isBlank (c : Char) : Bool :=
  let n := c.toNat
  (0x09 ≤ n && n ≤ 0x0D) || n = 0x20 || n = 0x85 || n = 0xA0 || n = 0x1680
    || (0x2000 ≤ n && n ≤ 0x200A) || n = 0x2028 || n = 0x2029 || n = 0x202F || n = 0x205F
    || n = 0x3000

/-- The characters of a text without the blanks at its ends. A stray byte is no blank. -/
def trimmed (s : String) : List Char :=
  let cs := (runes s.toList).map fun
    | .valid c => c
    | .stray _ => '\ufffd'
  ((cs.dropWhile isBlank).reverse.dropWhile isBlank).reverse

end SsaIr.Text
