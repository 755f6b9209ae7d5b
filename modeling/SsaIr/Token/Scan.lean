import SsaIr.Token.Lexeme

/-!
# Scanning a source

`scan file source` is the list of all tokens of a source up to its end, which is the last byte or
the first NUL. Blanks and comments (from `;` to the end of the line) stand between tokens.
`tokenize` stops after the first illegal token, and `TokenStream` is a cursor over the tokens with
one token of lookahead.
-/

namespace SsaIr

def isBlank (c : Char) : Bool := c = ' ' || c = '\t' || c = '\r' || c = '\n'

/-- Skip blanks and comments, keeping track of the place. The flag tells whether the input starts
inside a comment. -/
def skipBlanks (comment : Bool) (p : Position) : List Char → Position × List Char
  | [] => (p, [])
  | c :: rest =>
    if comment then
      if c = '\n' then skipBlanks false (p.step c) rest
      else if c = '\x00' then (p, c :: rest)
      else skipBlanks true (p.step c) rest
    else if isBlank c then skipBlanks false (p.step c) rest
    else if c = ';' then skipBlanks true (p.step c) rest
    else (p, c :: rest)

/-- Skipping blanks leaves no more input than there was. -/
theorem length_skipBlanks_le (comment : Bool) (p : Position) (input : List Char) :
    (skipBlanks comment p input).2.length ≤ input.length := by
  induction input generalizing comment p with
  | nil => simp [skipBlanks]
  | cons c rest ih =>
    simp only [skipBlanks, List.length_cons]
    split <;> split <;> try (exact Nat.le_succ_of_le (ih ..))
    all_goals split <;> first | exact Nat.le_succ_of_le (ih ..) | simp

/-- The tokens of the input from a place on. The last one is the end of the input. -/
def scanFrom (p : Position) (input : List Char) : List Token :=
  match _h : skipBlanks false p input with
  | (start, []) => [{ kind := .eof, literal := "", value := .none, pos := start }]
  | (start, c :: rest) =>
    if c = '\x00' then [{ kind := .eof, literal := "", value := .none, pos := start }]
    else
      let l := lexeme c rest
      { kind := l.kind, literal := l.literal, value := l.value, pos := start }
        :: scanFrom ((start.step c).advance (rest.take l.more)) (rest.drop l.more)
termination_by input.length
decreasing_by
  have hle := length_skipBlanks_le false p input
  rw [_h] at hle
  simp only [List.length_cons] at hle
  simp only [List.length_drop]
  omega

def scan (file source : String) : List Token := scanFrom (.start file) source.toList

/-- The tokens up to the first one that is illegal or the end of the input, that one included. -/
def upToEnd : List Token → List Token
  | [] => []
  | t :: rest => if t.kind = .eof || t.kind = .illegal then [t] else t :: upToEnd rest

def tokenize (file source : String) : List Token := upToEnd (scan file source)

/-- A cursor over tokens: the current token and those that follow it. -/
structure TokenStream where
  current : Token
  following : List Token
deriving Repr, Inhabited

namespace TokenStream

def ofTokens : List Token → TokenStream
  | [] => { current := { kind := .eof, literal := "", value := .none, pos := {} }, following := [] }
  | t :: rest => { current := t, following := rest }

def ofSource (file source : String) : TokenStream := ofTokens (scan file source)

def peek (s : TokenStream) : Token := s.following.headD s.current

def next (s : TokenStream) : TokenStream :=
  match s.following with
  | [] => s
  | t :: rest => { current := t, following := rest }

/-- Move on if the current token has the given kind, and tell whether it had. -/
def eat (s : TokenStream) (kind : TokenKind) : Bool × TokenStream :=
  if s.current.kind = kind then (true, s.next) else (false, s)

/-- The tokens from the current one on, up to the end or the first illegal one, and the cursor at
the last of them. -/
def drain (current : Token) : List Token → List Token × TokenStream
  | [] => ([current], { current, following := [] })
  | t :: rest =>
    if current.kind = .eof || current.kind = .illegal then
      ([current], { current, following := t :: rest })
    else
      let (tokens, s) := drain t rest
      (current :: tokens, s)

end TokenStream

end SsaIr
