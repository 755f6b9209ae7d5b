/-!
# Tokens

The words of the textual form and their places in the source. Identifiers carry a sigil that tells
what they name: `@` globals and functions, `%` locals, arguments and named structs, `$` block
labels. Every kind has a number; the numbers of the kinds are dense, but for one unused number
before the keywords.
-/

namespace SsaIr

/-- A place in the source. Line and column count from 1, offset from 0; columns and offsets count
bytes. The default is the place of no token. -/
structure Position where
  file : String := ""
  line : Nat := 0
  column : Nat := 0
  offset : Nat := 0
deriving DecidableEq, Repr, Inhabited

namespace Position

def start (file : String) : Position := { file, line := 1, column := 1, offset := 0 }

def step (p : Position) (c : Char) : Position :=
  if c = '\n' then { p with line := p.line + 1, column := 1, offset := p.offset + 1 }
  else { p with column := p.column + 1, offset := p.offset + 1 }

def advance (p : Position) (bytes : List Char) : Position := bytes.foldl step p

def text (p : Position) : String :=
  let place := s!"{p.line}:{p.column}"
  if p.file = "" then place else s!"{p.file}:{place}"

end Position

inductive Keyword where
  | module
  | type
  | global
  | declare
  | define
  | zeroinitializer
  | undef
  | null
  | true
  | false
  | inbounds
  | void
  | i1
  | i8
  | i16
  | i32
  | i64
  | f32
  | f64
  | label
  | x
deriving DecidableEq, Repr, Inhabited

namespace Keyword

def all : List Keyword :=
  [.module, .type, .global, .declare, .define, .zeroinitializer, .undef, .null, .true, .false,
    .inbounds, .void, .i1, .i8, .i16, .i32, .i64, .f32, .f64, .label, .x]

def name : Keyword → String
  | .module => "module"
  | .type => "type"
  | .global => "global"
  | .declare => "declare"
  | .define => "define"
  | .zeroinitializer => "zeroinitializer"
  | .undef => "undef"
  | .null => "null"
  | .true => "true"
  | .false => "false"
  | .inbounds => "inbounds"
  | .void => "void"
  | .i1 => "i1"
  | .i8 => "i8"
  | .i16 => "i16"
  | .i32 => "i32"
  | .i64 => "i64"
  | .f32 => "f32"
  | .f64 => "f64"
  | .label => "label"
  | .x => "x"

def ofName? (name : String) : Option Keyword := all.find? fun k => k.name = name

def isPrimitiveType : Keyword → Bool
  | .void | .i1 | .i8 | .i16 | .i32 | .i64 | .f32 | .f64 | .label => Bool.true
  | _ => Bool.false

end Keyword

inductive TokenKind where
  | illegal
  | eof
  | globalIdent
  | localIdent
  | labelIdent
  | ident
  | int
  | float
  | string
  | assign
  | comma
  | colon
  | lbrace
  | rbrace
  | lbracket
  | rbracket
  | lparen
  | rparen
  | lt
  | gt
  | ellipsis
  | keyword (k : Keyword)
deriving DecidableEq, Repr, Inhabited

namespace TokenKind

def plain : List TokenKind :=
  [.illegal, .eof, .globalIdent, .localIdent, .labelIdent, .ident, .int, .float, .string, .assign,
    .comma, .colon, .lbrace, .rbrace, .lbracket, .rbracket, .lparen, .rparen, .lt, .gt, .ellipsis]

def keywordBase : Nat := plain.length

def name : TokenKind → String
  | illegal => "ILLEGAL"
  | eof => "EOF"
  | globalIdent => "GLOBAL_IDENT"
  | localIdent => "LOCAL_IDENT"
  | labelIdent => "LABEL_IDENT"
  | ident => "IDENT"
  | int => "INT"
  | float => "FLOAT"
  | string => "STRING"
  | assign => "="
  | comma => ","
  | colon => ":"
  | lbrace => "\x7b"
  | rbrace => "\x7d"
  | lbracket => "["
  | rbracket => "]"
  | lparen => "("
  | rparen => ")"
  | lt => "<"
  | gt => ">"
  | ellipsis => "..."
  | keyword k => k.name

def all : List TokenKind := plain ++ Keyword.all.map keyword

def ofName? (name : String) : Option TokenKind := all.find? fun k => k.name = name

def ofWord (word : String) : TokenKind :=
  match Keyword.ofName? word with
  | some k => keyword k
  | none => ident

def code : TokenKind → Nat
  | keyword k => keywordBase + 1 + Keyword.all.idxOf k
  | k => plain.idxOf k

def ofCode? (code : Int) : Option TokenKind :=
  if code < 0 then none
  else if code < keywordBase then plain[code.toNat]?
  else if code = keywordBase then none
  else (Keyword.all[code.toNat - keywordBase - 1]?).map keyword

/-- The name shown for a number: empty for the unused number before the keywords. -/
def codeName (code : Int) : String :=
  match ofCode? code with
  | some k => k.name
  | none => if code = keywordBase then "" else s!"token({code})"

def isKeyword : TokenKind → Bool
  | keyword _ => true
  | _ => false

def isIdent : TokenKind → Bool
  | globalIdent | localIdent | labelIdent | ident => true
  | _ => false

def isLiteral : TokenKind → Bool
  | int | float | string => true
  | _ => false

def isPrimitiveType : TokenKind → Bool
  | keyword k => k.isPrimitiveType
  | _ => false

end TokenKind

inductive TokenValue where
  | none
  | int (v : Int64)
  | float (bits : UInt64)
deriving DecidableEq, Repr, Inhabited

/-- A token: its kind, its text without sigil (the decoded contents of a string), the number it
denotes, and where it starts. -/
structure Token where
  kind : TokenKind
  literal : String
  value : TokenValue
  pos : Position
deriving DecidableEq, Repr, Inhabited

end SsaIr
