import SsaIr.Number.FloatText
import SsaIr.Text.Quoted
import SsaIr.Token.Basic

/-!
# Lexemes

`lexeme c rest` is the token that starts with the byte `c`, when `rest` follows it: its kind, its
text, the number it denotes, and how many bytes of `rest` belong to it. It does not depend on the
place in the source. The scanner of whole sources is `SsaIr.Token.Scan`.
-/

namespace SsaIr

/-- A token without its place. `more` counts the bytes after the first. -/
structure Lexeme where
  kind : TokenKind
  literal : String
  value : TokenValue := .none
  more : Nat
deriving DecidableEq, Repr

namespace Lexeme

def isWordStart (c : Char) : Bool :=
  ('a' ≤ c && c ≤ 'z') || ('A' ≤ c && c ≤ 'Z') || c = '_'

def isWordPart (c : Char) : Bool := isWordStart c || Decimal.isDigit c

def isNamePart (c : Char) : Bool := isWordPart c || c = '.'

def word (first : Char) (rest : List Char) : Lexeme :=
  let tail := rest.takeWhile isWordPart
  let literal := String.ofList (first :: tail)
  if literal = "inf" then
    { kind := .float, literal, more := tail.length
      value := .float (FloatReading.signed false FloatFormat.binary64.infinityBits) }
  else if literal = "nan" then
    { kind := .float, literal, value := .float nanBits, more := tail.length }
  else { kind := .ofWord literal, literal, more := tail.length }

/-- The parts of a number: its digits, the digits after a point, and what stands after an exponent
mark. -/
structure NumberParts where
  digits : List Char
  fraction : Option (List Char)
  exponent : Option (Char × Option Char × List Char)

namespace NumberParts

/-- Split a number off the input. A point belongs to it only before a digit. -/
def ofInput (input : List Char) : NumberParts :=
  let digits := input.takeWhile Decimal.isDigit
  let rest := input.dropWhile Decimal.isDigit
  let (fraction, rest) : Option (List Char) × List Char :=
    match rest with
    | '.' :: d :: tail =>
      if Decimal.isDigit d then
        (some ((d :: tail).takeWhile Decimal.isDigit), (d :: tail).dropWhile Decimal.isDigit)
      else (none, rest)
    | _ => (none, rest)
  let exponent : Option (Char × Option Char × List Char) :=
    match rest with
    | c :: tail =>
      if c = 'e' || c = 'E' then
        match tail with
        | s :: after =>
          if s = '+' || s = '-' then some (c, some s, after.takeWhile Decimal.isDigit)
          else some (c, none, tail.takeWhile Decimal.isDigit)
        | [] => some (c, none, [])
      else none
    | [] => none
  { digits, fraction, exponent }

def bytes (p : NumberParts) : List Char :=
  p.digits
    ++ (match p.fraction with
        | some f => '.' :: f
        | none => [])
    ++ (match p.exponent with
        | some (mark, sign, digits) => mark :: (sign.toList ++ digits)
        | none => [])

/-- The magnitude bits of a number with a fraction or an exponent, `none` when the exponent has no
digits or the number is too large. -/
def magnitude? (p : NumberParts) : Option Nat :=
  let fraction := p.fraction.getD []
  let significand := Decimal.value (p.digits ++ fraction)
  let exponent : Option Int :=
    match p.exponent with
    | none => some 0
    | some (_, _, []) => none
    | some (_, sign, digits) =>
      let e : Int := Decimal.value digits
      some (if sign = some '-' then -e else e)
  exponent.bind fun e =>
    let magnitude := Decimal.nearest .binary64 significand (e - fraction.length)
    if magnitude = FloatFormat.binary64.infinityBits then none else some magnitude

end NumberParts

/-- A number that starts at the head of `input`. `before` counts bytes already taken by a sign.
Integers up to 2^64 - 1 are accepted and wrap to 64 bits; an ill-formed number keeps its text
without the sign. -/
def number (negative : Bool) (input : List Char) : Lexeme :=
  let parts := NumberParts.ofInput input
  let text := String.ofList parts.bytes
  let signed := if negative then "-" ++ text else text
  let more := parts.bytes.length - 1 + (if negative then 1 else 0)
  if parts.fraction.isSome || parts.exponent.isSome then
    match parts.magnitude? with
    | some magnitude =>
      { kind := .float, literal := signed, more
        value := .float (FloatReading.signed negative magnitude) }
    | none => { kind := .illegal, literal := text, more }
  else
    let n := Decimal.value parts.digits
    if n < 0x10000000000000000 then
      let v := n.toUInt64.toInt64
      { kind := .int, literal := signed, value := .int (if negative then -v else v), more }
    else { kind := .illegal, literal := text, more }

/-- The decoded body of a string literal after its opening quote: the bytes, whether it was closed,
and how many bytes of the input it took. A NUL, a newline or an unknown escape ends it unclosed. -/
def stringBody : List Char → List Char × Bool × Nat
  | [] => ([], false, 0)
  | c :: rest =>
    if c = '"' then ([], true, 1)
    else if c = '\x00' || c = '\n' then ([], false, 0)
    else if c = '\\' then
      match rest with
      | [] => ([], false, 1)
      | e :: rest =>
        match Text.literalUnescape? e with
        | some d =>
          let (body, closed, n) := stringBody rest
          (d :: body, closed, n + 2)
        | none => ([], false, 1)
    else
      let (body, closed, n) := stringBody rest
      (c :: body, closed, n + 1)

def quoted (rest : List Char) : Lexeme :=
  let (body, closed, more) := stringBody rest
  { kind := if closed then .string else .illegal, literal := String.ofList body, more }

def sigil (kind : TokenKind) (first : Char) (rest : List Char) : Lexeme :=
  let name := rest.takeWhile isNamePart
  if name.isEmpty then { kind := .illegal, literal := String.singleton first, more := 0 }
  else { kind, literal := String.ofList name, more := name.length }

/-- What starts with a minus sign: a number, negative infinity, or nothing legal. -/
def minus (rest : List Char) : Lexeme :=
  match rest with
  | c :: _ =>
    if Decimal.isDigit c then number true rest
    else if rest.takeWhile isWordPart = "inf".toList then
      { kind := .float, literal := "-inf", more := 3
        value := .float (FloatReading.signed true FloatFormat.binary64.infinityBits) }
    else { kind := .illegal, literal := "-", more := 0 }
  | [] => { kind := .illegal, literal := "-", more := 0 }

def punctuation? (c : Char) : Option TokenKind :=
  match c with
  | '=' => some .assign
  | ',' => some .comma
  | ':' => some .colon
  | '(' => some .lparen
  | ')' => some .rparen
  | '[' => some .lbracket
  | ']' => some .rbracket
  | '{' => some .lbrace
  | '}' => some .rbrace
  | '<' => some .lt
  | '>' => some .gt
  | _ => none

/-- An ellipsis is three points; any other byte that starts nothing is illegal by itself. -/
def pointOrOther (c : Char) (rest : List Char) : Lexeme :=
  if c = '.' && rest.take 2 = ['.', '.'] then { kind := .ellipsis, literal := "...", more := 2 }
  else { kind := .illegal, literal := String.singleton c, more := 0 }

end Lexeme

def lexeme (c : Char) (rest : List Char) : Lexeme :=
  if Lexeme.isWordStart c then Lexeme.word c rest
  else if Decimal.isDigit c then Lexeme.number false (c :: rest)
  else if c = '-' then Lexeme.minus rest
  else if c = '"' then Lexeme.quoted rest
  else if c = '@' then Lexeme.sigil .globalIdent c rest
  else if c = '%' then Lexeme.sigil .localIdent c rest
  else if c = '$' then Lexeme.sigil .labelIdent c rest
  else
    match Lexeme.punctuation? c with
    | some kind => { kind, literal := String.singleton c, more := 0 }
    | none => Lexeme.pointOrOther c rest

end SsaIr
