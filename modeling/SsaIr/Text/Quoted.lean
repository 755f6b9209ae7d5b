import SsaIr.Text.Octets
import SsaIr.Text.Printable

/-!
# Quoted texts

Two ways to write a text between double quotes. `quote` is the string literal of the textual
form: quote, backslash, newline and tab are written with a backslash, every other byte as itself,
so that a literal read back gives the same bytes. `escape` is the form used in messages: it reads
the text as UTF-8 and shows whatever is not printable as an escape.
-/

namespace SsaIr.Text

/-- The escape letter of a byte that a string literal cannot hold as itself. -/
def literalEscape? (c : Char) : Option Char :=
  if c = '"' then some '"'
  else if c = '\\' then some '\\'
  else if c = '\n' then some 'n'
  else if c = '\t' then some 't'
  else none

def literalUnescape? (c : Char) : Option Char :=
  if c = '"' then some '"'
  else if c = '\\' then some '\\'
  else if c = 'n' then some '\n'
  else if c = 't' then some '\t'
  else none

def quoteBody : List Char → List Char
  | [] => []
  | c :: rest =>
    match literalEscape? c with
    | some e => '\\' :: e :: quoteBody rest
    | none => c :: quoteBody rest

def quote (s : String) : String := String.ofList ('"' :: quoteBody s.toList ++ ['"'])

def escapeControl (c : Char) : String :=
  match c.toNat with
  | 0x07 => "\\a"
  | 0x08 => "\\b"
  | 0x0C => "\\f"
  | 0x0A => "\\n"
  | 0x0D => "\\r"
  | 0x09 => "\\t"
  | 0x0B => "\\v"
  | n =>
    if n < 0x20 || n = 0x7F then "\\x" ++ hexByte n
    else if n < 0x10000 then "\\u" ++ hexPadded 4 n
    else "\\U" ++ hexPadded 8 n

def escapeRune : Rune → String
  | .stray b => "\\x" ++ hexByte b.toNat
  | .valid c =>
    if c = '"' || c = '\\' then String.ofList ['\\', c]
    else if isPrintable c then String.ofList (encodeRune c)
    else escapeControl c

def escape (s : String) : String :=
  "\"" ++ String.join ((runes s.toList).map escapeRune) ++ "\""

end SsaIr.Text
