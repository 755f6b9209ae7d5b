import SsaIr.Number.Decimal
import SsaIr.Text.Blank
import SsaIr.Text.Width

/-!
# Tables in text

Rows of cells between lines, under a header and above a footer. Cells that are wider than a limit
are wrapped between words; numbers are set to the right, other cells to the left, and the header and
the footer are centred. Read `TextTable.text` first.
-/

namespace SsaIr

/-- A table: its header, its rows and its footer have a cell for each column. -/
structure TextTable where
  header : List String
  rows : List (List String)
  footer : List String
deriving DecidableEq, Repr, Inhabited

namespace TextTable

/-! ## Wrapping -/

/-- The widest a cell may get before it is wrapped, unless one of its words is wider. -/
def wrapWidth : Nat := 30

def overfullCost : Nat := 100000

def lineWidth (words : List String) : Nat :=
  (words.map Text.width).foldl (· + ·) 0 + (words.length - 1)

/-- The ways to break words into a first line and the rest, which is not empty. -/
def breaks (words : List String) : List (List String × Nat) :=
  (List.range (words.length - 1)).map fun n => (words.take (n + 1), n + 1)

/-- The best lines for every tail of a list of words, with their cost: all words on one line if they
fit, and else the first of the breaks with the least sum of squared gaps. The table holds the
answers for the shorter tails, the longest of them first. -/
def bestBreak (limit : Nat) (words : List String) (shorter : List (Nat × List (List String))) :
    Nat × List (List String) :=
  if lineWidth words ≤ limit then (0, [words])
  else
    let options := (breaks words).filterMap fun (line, n) =>
      shorter[n - 1]?.map fun (cost, lines) =>
        let w := lineWidth line
        let gap := if w ≤ limit then limit - w else w - limit
        (gap * gap + cost + (if limit < w then overfullCost else 0), line :: lines)
    options.foldl (fun best o => if o.1 < best.1 then o else best) (0x7FFFFFFF, [words])

def bestBreaks (limit : Nat) : List String → List (Nat × List (List String))
  | [] => []
  | w :: rest =>
    let shorter := bestBreaks limit rest
    bestBreak limit (w :: rest) shorter :: shorter

structure Cell where
  width : Nat
  lines : List String
deriving DecidableEq, Repr, Inhabited

def widest (texts : List String) : Nat := (texts.map Text.displayWidth).foldl max 0

def widestWord (words : List String) : Nat := (words.map Text.width).foldl max 0

/-- Break a cell into lines. Line ends count as spaces. A cell that has to be wrapped asks for the
whole limit. -/
def wrap (text : String) : Cell :=
  let paragraphs := text.splitOn "\n"
  let wanted := min (widest paragraphs) wrapWidth
  let words := (" ".intercalate paragraphs).splitOn " "
  let lines :=
    match bestBreaks (max wanted (widestWord words)) words with
    | (_, best) :: _ => best.map (" ".intercalate ·)
    | [] => [""]
  ⟨max wanted (widest lines), lines⟩

/-! ## Setting -/

def spaces (n : Nat) : String := String.ofList (List.replicate n ' ')

/-- The digits are groups of three between commas, after a first group of one to three. -/
def groupsOfThree : List Char → Bool
  | [] => true
  | ',' :: a :: b :: c :: rest => [a, b, c].all Decimal.isDigit && groupsOfThree rest
  | _ => false

def isWhole (cs : List Char) : Bool :=
  let first := cs.takeWhile Decimal.isDigit
  let rest := cs.dropWhile Decimal.isDigit
  !first.isEmpty && (rest.isEmpty || (first.length ≤ 3 && groupsOfThree rest))

/-- The cell is a decimal number, which may have a sign, commas and a fraction. -/
def isNumber (cell : String) : Bool :=
  let cs := Text.trimmed cell
  let cs := if cs.head? = some '-' then cs.drop 1 else cs
  match cs.dropWhile (· ≠ '.') with
  | [] => isWhole cs
  | _ :: fraction =>
    isWhole (cs.takeWhile (· ≠ '.')) && !fraction.isEmpty && fraction.all Decimal.isDigit

def justified (width : Nat) (cell : String) : String :=
  let gap := spaces (width - Text.displayWidth cell)
  if isNumber cell then gap ++ cell else cell ++ gap

def centred (width : Nat) (cell : String) : String :=
  let gap := width - Text.displayWidth cell
  spaces (gap / 2) ++ cell ++ spaces (gap - gap / 2)

def rule (widths : List Nat) : String :=
  "+" ++ String.join (widths.map fun w => String.ofList (List.replicate (w + 2) '-') ++ "+") ++ "\n"

def rowText (widths : List Nat) (cells : List Cell) : String :=
  let height := (cells.map fun c => c.lines.length).foldl max 0
  String.join ((List.range height).map fun n =>
    String.join ((widths.zip cells).map fun (w, c) =>
      s!"| {justified w (c.lines.getD n (spaces 2))} ") ++ "|\n")

def headerText (widths : List Nat) (cells : List String) : String :=
  "|" ++ String.join ((widths.zip cells).map fun (w, cell) => s!" {centred w cell} |") ++ "\n"

def footerText (widths : List Nat) (cells : List String) : String :=
  "|" ++ String.join ((widths.zip cells).map fun (w, cell) =>
    s!" {centred w cell} " ++ (if cell = "" then " " else "|")) ++ "\n"

def widths (t : TextTable) (rows : List (List Cell)) : List Nat :=
  (List.range t.header.length).map fun n =>
    let cells := rows.map fun row => (row.getD n default).width
    cells.foldl max (widest [t.header.getD n "", t.footer.getD n ""])

def text (t : TextTable) : String :=
  let rows := t.rows.map fun row => row.map wrap
  let widths := t.widths rows
  rule widths ++ headerText widths t.header ++ rule widths
    ++ String.join (rows.map (rowText widths)) ++ rule widths
    ++ footerText widths t.footer ++ rule widths

end TextTable

end SsaIr
