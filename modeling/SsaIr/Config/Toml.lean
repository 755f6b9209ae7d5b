import SsaIr.Config.Moment
import SsaIr.Number.Decimal
import SsaIr.Text.Octets

/-!
# Reading TOML

A text in TOML as the list of events that its phrases are, in the order of the text: table headers,
pairs of a key and a value, and the beginnings and ends of inline tables. What the events build is
for `SsaIr.Config.Document`.

Every named rule of the grammar is a `phrase`. The furthest place at which a phrase that is not
empty ended is remembered, also where the reading had to turn back, because a text that is not TOML
is reported at the line of that place. Read `document` first, and then upwards.
-/

namespace SsaIr

namespace Toml

inductive Scalar where
  | integer (digits : String)
  | float (numeral : String)
  | text
  | flag (b : Bool)
  | datetime (text : String) (moment : Moment)
  | array
deriving DecidableEq, Repr, Inhabited

inductive Event where
  | header (array : Bool) (path : List String) (name : String) (line : Nat)
  | pair (key : String) (value : Scalar) (line : Nat)
  | openTable (element : Bool) (key : String) (line : Nat)
  | closeTable
  | badText (line : Nat)
deriving DecidableEq, Repr, Inhabited

/-- A place in a text, with what has been read up to it, newest first. -/
structure Place where
  rest : List Char
  position : Nat := 0
  line : Nat := 1
  events : List Event := []
deriving Repr, Inhabited

structure Cursor where
  place : Place
  furthest : Nat := 0
deriving Repr, Inhabited

abbrev Read := EStateM Unit Cursor

namespace Read

/-- Where a reading fails, try another one from the same place. What is known about the furthest
phrase is kept. -/
def orElse {α : Type} (a : Read α) (b : Unit → Read α) : Read α := fun c =>
  match a c with
  | .ok x next => .ok x next
  | .error _ stuck => b () { stuck with place := c.place }

/-- Alternatives are tried in order, each from the same place. -/
instance (priority := 2000) {α : Type} : OrElse (Read α) := ⟨orElse⟩

def fail {α : Type} : Read α := throw ()

def one (p : Char → Bool) : Read Char := do
  let c ← get
  match c.place.rest with
  | [] => fail
  | ch :: rest =>
    if p ch then
      let line := if ch = '\n' || ch = '\r' then c.place.line + 1 else c.place.line
      set { c with place := { c.place with rest, position := c.place.position + 1, line } }
      return ch
    else fail

def chars : List Char → Read Unit
  | [] => return ()
  | c :: rest => do
    let _ ← one (· = c)
    chars rest

def word (s : String) : Read Unit := chars s.toList

def phrase {α : Type} (r : Read α) : Read α := do
  let start := (← get).place.position
  let a ← r
  modify fun c =>
    if start < c.place.position then { c with furthest := max c.furthest c.place.position } else c
  return a

def optional {α : Type} (r : Read α) : Read (Option α) := (some <$> r) <|> pure none

def repeated {α : Type} (r : Read α) : Nat → Read (List α)
  | 0 => return []
  | n + 1 => do
    match ← optional r with
    | some a => return a :: (← repeated r n)
    | none => return []

def many {α : Type} (r : Read α) : Read (List α) := do
  repeated r (← get).place.rest.length

def many1 {α : Type} (r : Read α) : Read (List α) := do
  let a ← r
  return a :: (← many r)

def line : Read Nat := return (← get).place.line

def report (e : Event) : Read Unit :=
  modify fun c => { c with place := { c.place with events := e :: c.place.events } }

def taken {α : Type} (r : Read α) : Read (List Char) := do
  let before := (← get).place
  let _ ← r
  let after := (← get).place
  return before.rest.take (after.position - before.position)

end Read

open Read

def isBlank (c : Char) : Bool := c = ' ' || c = '\t'

def isLineEnd (c : Char) : Bool := c = '\r' || c = '\n'

def isText (c : Char) : Bool := c = '\t' || ' ' ≤ c

def isHexDigit (c : Char) : Bool :=
  Decimal.isDigit c || ('a' ≤ c.toLower && c.toLower ≤ 'f')

def blanks : Read Unit := phrase do
  let _ ← many (one isBlank)

def lineEnds : Read Unit := phrase do
  let _ ← many1 (one isLineEnd)

def space : Read Unit := phrase do
  let _ ← many (one isBlank <|> phrase (one isLineEnd))

def comment : Read Unit := phrase do
  word "#"
  let _ ← phrase (many (one isText))

/-! ## Numbers -/

def digit : Read Char := phrase (one Decimal.isDigit)

def grouped : Read Char := digit <|> (do word "_"; digit)

/-- An unsigned integer: one digit, or more that do not begin with zero. -/
def natural : Read Unit := phrase
  ((do
    let _ ← one fun c => Decimal.isDigit c && c ≠ '0'
    let _ ← many1 grouped)
  <|> (do let _ ← digit))

def sign : Read Char := one fun c => c = '-' || c = '+'

def integer : Read Unit := phrase do
  let _ ← optional sign
  natural

def fraction : Read Unit := phrase do
  word "."
  let _ ← digit
  let _ ← many grouped

def exponent : Read Unit := phrase do
  let _ ← one fun c => c = 'e' || c = 'E'
  let _ ← optional sign
  let _ ← digit
  let _ ← many grouped

def float : Read Unit := phrase do
  integer
  (do fraction; let _ ← optional exponent) <|> (do let _ ← optional fraction; exponent)

/-! ## Dates and times -/

def twoDigits : Read Nat := phrase do
  let tens ← digit
  let units ← digit
  return Decimal.value [tens, units]

def partialTime : Read TimeOfDay := phrase do
  let hour ← twoDigits
  word ":"
  let minute ← twoDigits
  word ":"
  let second ← twoDigits
  let _ ← optional (phrase do
    word "."
    let _ ← many1 digit)
  return { hour, minute, second }

def hoursAndMinutes : Read (Nat × Nat) :=
  (do word "Z"; return (0, 0))
  <|> phrase (do
    let _ ← sign
    let hours ← twoDigits
    word ":"
    return (hours, ← twoDigits))

def timeOffset : Read Offset := phrase do
  let before := (← get).place
  let (hours, minutes) ← hoursAndMinutes
  let after := (← get).place
  return ⟨hours, minutes, String.ofList (before.rest.take (after.position - before.position))⟩

def fullDate : Read Date := phrase do
  let year ← phrase do
    let century ← twoDigits
    return 100 * century + (← twoDigits)
  word "-"
  let month ← twoDigits
  word "-"
  return { year, month, day := ← twoDigits }

def datetime : Read Moment := phrase
  ((do
    let date ← fullDate
    let time ← optional do
      word "T"
      phrase do
        let t ← partialTime
        return (t, ← optional timeOffset)
    match time with
    | some (t, offset) => return .both date t offset
    | none => return .date date)
  <|> (do return .time (← partialTime)))

/-! ## Texts and keys -/

def hexQuad : Read (List Char) := phrase (taken do
  let _ ← phrase (one isHexDigit)
  let _ ← phrase (one isHexDigit)
  let _ ← phrase (one isHexDigit)
  let _ ← phrase (one isHexDigit))

def hexValue (digits : List Char) : Nat :=
  digits.foldl (fun n c =>
    16 * n + if Decimal.isDigit c then Decimal.digitValue c
      else c.toLower.toNat - 'a'.toNat + 10) 0

def scalar? (n : Nat) : Option Char := if n.isValidChar then some (Char.ofNat n) else none

/-- What an escape stands for. A slash may be escaped, and stands for nothing. -/
def escape : Read (Option Char) := phrase do
  phrase (word "\\")
  (do
    let c ← one fun c => "btnfr\"/\\".toList.contains c
    return [('b', '\x08'), ('t', '\t'), ('n', '\n'), ('f', '\x0c'), ('r', '\r'), ('"', '"'),
      ('\\', '\\')].lookup c)
  <|> (do word "u"; return scalar? (hexValue (← hexQuad)))
  <|> (do word "U"; return scalar? (hexValue ((← hexQuad) ++ (← hexQuad))))

def basicChar : Read (Option Char) := phrase
  ((some <$> phrase (one fun c => ' ' ≤ c && c ≠ '"' && c ≠ '\\')) <|> escape)

def check (cs : List (Option Char)) : Read Unit := do
  if cs.contains none then report (.badText (← line))

def basicText : Read Unit := phrase do
  let cs ← phrase do
    word "\""
    let cs ← many basicChar
    word "\""
    return cs
  check cs

/-- A text in triple double quotes. A backslash at the end of a line joins it to the next one. -/
def longBasicText : Read Unit := phrase do
  word "\"\"\""
  let cs ← phrase (many
    (phrase (basicChar <|> (do lineEnds; return some '\n'))
    <|> (do phrase (word "\\"); lineEnds; space; return some ' ')))
  word "\"\"\""
  check cs

def singleQuote : Char := Char.ofNat 0x27

def literalText : Read Unit := phrase do
  word "'"
  let _ ← phrase (many (phrase (one fun c => isText c && c ≠ singleQuote)))
  word "'"

def notClosing : Read Unit := do
  if (← get).place.rest.take 3 = List.replicate 3 singleQuote then fail

def longLiteralText : Read Unit := phrase do
  word "'''"
  let _ ← phrase (many (do
    notClosing
    (do let _ ← phrase (one isText)) <|> lineEnds))
  word "'''"

def text : Read Unit := phrase
  (longLiteralText <|> literalText <|> longBasicText <|> basicText)

def octets (cs : List Char) : String := String.ofList (cs.flatMap Text.encodeRune)

def key : Read String := phrase
  (phrase (do
    return octets (← phrase (many1 (one fun c => c.isAlphanum || c = '-' || c = '_'))))
  <|> phrase (do
    let cs ← phrase do
      word "\""
      let cs ← many basicChar
      word "\""
      return cs
    check cs
    return octets (cs.filterMap id)))

/-! ## Values -/

def numeral (cs : List Char) : String := String.ofList (cs.filter (· ≠ '_'))

def plainValue : Read Scalar :=
  (do
    let start := (← get).place
    let moment ← phrase datetime
    let stop := (← get).place
    return .datetime (String.ofList (start.rest.take (stop.position - start.position))) moment)
  <|> (do return .float (numeral (← phrase (taken float))))
  <|> (do return .integer (numeral (← phrase (taken integer))))
  <|> (do phrase text; return .text)
  <|> (do
    phrase (phrase (word "true"))
    return .flag true)
  <|> (do
    phrase (phrase (word "false"))
    return .flag false)

def comma : Read Unit := phrase (word ",")

/-- What may stand beside a comma: blanks and line ends, with a comment among them. -/
def gap : Read Unit := do
  space
  let _ ← optional comment
  space

mutual

/-- A value, with fuel for nested ones. The result is missing if it is a table or has tables in it,
which have been reported. -/
def value (owner : String) (element : Bool) : Nat → Read (Option Scalar)
  | 0 => fail
  | n + 1 => phrase
    ((some <$> plainValue)
    <|> phrase (phrase do
      word "["
      space
      let vs ← optional (phrase do
        let first ← value owner true n
        let others ← many do
          gap
          comma
          gap
          value owner true n
        space
        let _ ← optional comma
        space
        let _ ← optional comment
        return first :: others)
      space
      word "]"
      return if (vs.getD []).contains none then none else some .array)
    <|> phrase (do
      word "\x7b"
      report (.openTable element owner (← line))
      blanks
      let _ ← phrase (many do
        pair element n
        let _ ← optional (phrase do
          blanks
          word ","
          blanks))
      blanks
      word "\x7d"
      report .closeTable
      return none))

def pair (element : Bool) : Nat → Read Unit
  | 0 => fail
  | n + 1 => phrase do
    let k ← key
    blanks
    word "="
    blanks
    if let some v ← value k element n then report (.pair k v (← line))

end

/-! ## Documents -/

def headerPath : Read (List String × String) := do
  let start := (← get).place
  let path ← phrase (phrase do
    let first ← phrase key
    let others ← many do
      phrase do
        blanks
        word "."
        blanks
      phrase key
    return first :: others)
  let stop := (← get).place
  return (path, octets (start.rest.take (stop.position - start.position)))

def bracketed (array : Bool) (left right : String) : Read Unit := phrase do
  word left
  blanks
  let (path, name) ← headerPath
  blanks
  word right
  report (.header array path name (← line))

def header : Read Unit := phrase (bracketed false "[" "]" <|> bracketed true "[[" "]]")

def trailer : Read Unit := do
  blanks
  let _ ← optional comment

/-- A header with the pairs that follow it directly, a pair, a comment or nothing. -/
def expression (n : Nat) : Read Unit := phrase
  (phrase (do
    blanks
    header
    trailer
    let _ ← many do
      space
      pair false n
      trailer)
  <|> (do
    blanks
    pair false n
    trailer)
  <|> (do blanks; comment)
  <|> blanks)

def document (n : Nat) : Read Unit := do
  expression n
  let _ ← many do
    lineEnds
    expression n
  let _ ← optional lineEnds
  unless (← get).place.rest.isEmpty do fail

/-- The line of a place: line feeds count up to and with the character there. -/
def lineOf (text : List Char) (position : Nat) : Nat := 1 + (text.take (position + 1)).count '\n'

def events (source : String) : Except Nat (List Event) :=
  let text := (Text.runes source.toList).map fun
    | .valid c => c
    | .stray _ => '\ufffd'
  match document (text.length + 1) { place := { rest := text } } with
  | .ok _ c => .ok c.place.events.reverse
  | .error _ c => .error (lineOf text c.furthest)

end Toml

end SsaIr
