import SsaIr.Proofs.Computation
import SsaIr.Token.Scan

/-!
# The words of a text

A text without the places of its tokens is a list of words. `words` is what scanning gives then, and
`Word.Scanned` says which words scanning can yield. A text is made of gaps and lexemes: read
`scan_induction` first, then `scanFrom_scanned`.
-/

namespace SsaIr

open Lexeme List

variable {b : Bool} {gap rest : List Char}

structure Word where
  kind : TokenKind
  literal : String
  value : TokenValue := .none
deriving DecidableEq

def Token.word (t : Token) : Word := { kind := t.kind, literal := t.literal, value := t.value }

def Word.eof : Word := { kind := .eof, literal := "" }

def Lexeme.toWord (l : Lexeme) : Word := { kind := l.kind, literal := l.literal, value := l.value }

def Word.at (w : Word) (p : Position) : Token :=
  { kind := w.kind, literal := w.literal, value := w.value, pos := p }

/-! ## Gaps and lexemes -/

/-- Blanks and comments. The flags tell whether they start and whether they end inside a comment. -/
inductive Skips : Bool → List Char → Bool → Prop
  | done {b : Bool} : Skips b [] b
  | blank {c : Char} {gap : List Char} {b : Bool} (hc : isBlank c = true) (h : Skips false gap b) :
      Skips false (c :: gap) b
  | opens {gap : List Char} {b : Bool} (h : Skips true gap b) : Skips false (';' :: gap) b
  | inside {c : Char} {gap : List Char} {b : Bool} (hc : c ≠ '\n') (h : Skips true gap b) :
    Skips true (c :: gap) b
  | closes {gap : List Char} {b : Bool} (h : Skips false gap b) : Skips true ('\n' :: gap) b

/-- Where a gap ends: at the end of the text or a NUL, or at a byte that starts a lexeme. -/
inductive GapEnds : Bool → List Char → Prop
  | finish {b : Bool} {rest : List Char} (h : rest.headD '\x00' = '\x00') : GapEnds b rest
  | byte {c : Char} {rest : List Char} (hblank : isBlank c = false) (hc : c ∉ [';', '\x00']) :
    GapEnds false (c :: rest)

theorem exists_skips (b : Bool) (input : List Char) :
    ∃ gap rest b', input = gap ++ rest ∧ Skips b gap b' ∧ '\x00' ∉ gap ∧ GapEnds b' rest := by
  induction input generalizing b with
  | nil => exact ⟨[], [], b, rfl, .done, not_mem_nil, .finish rfl⟩
  | cons c input ih =>
    by_cases hnul : c = '\x00'
    · exact ⟨[], _, b, rfl, .done, not_mem_nil, .finish hnul⟩
    have hskip {b₁ : Bool} (h : ∀ {gap b'}, Skips b₁ gap b' → Skips b (c :: gap) b') :
        ∃ gap rest b', c :: input = gap ++ rest ∧ Skips b gap b' ∧ '\x00' ∉ gap ∧
          GapEnds b' rest := by
      obtain ⟨gap, rest, b', rfl, hgap, hfree, hstops⟩ := ih b₁
      exact ⟨c :: gap, rest, b', rfl, h hgap, by simp [hfree, Ne.symm hnul], hstops⟩
    cases b with
    | true =>
      by_cases hline : c = '\n'
      · subst hline
        exact hskip .closes
      · exact hskip (.inside hline)
    | false =>
      by_cases hblank : isBlank c = true
      · exact hskip (.blank hblank)
      by_cases hc : c = ';'
      · subst hc
        exact hskip .opens
      · exact ⟨[], _, false, rfl, .done, not_mem_nil,
          .byte (by simpa using hblank) (by simp [hc, hnul])⟩

theorem skipBlanks_eq {b' : Bool} (hgap : Skips b gap b') (hnul : '\x00' ∉ gap)
    (hrest : GapEnds b' rest) (p : Position) :
    skipBlanks b p (gap ++ rest) = (p.advance gap, rest) := by
  induction hgap generalizing p with
  | @done b =>
    cases hrest with
    | finish h =>
      cases rest with
      | nil => rfl
      | cons c rest =>
        obtain rfl : c = '\x00' := h
        cases b <;> rfl
    | byte hblank hc =>
      simp only [mem_cons, not_mem_nil, or_false, not_or] at hc
      simp [skipBlanks, hblank, hc, Position.advance]
  | blank hc h ih =>
    rw [cons_append, skipBlanks, if_neg (by decide), if_pos hc]
    exact ih (fun h => hnul (.tail _ h)) hrest _
  | opens h ih => exact ih (fun h => hnul (.tail _ h)) hrest _
  | @inside c gap b hc h ih =>
    have hzero : c ≠ '\x00' := fun hzero => hnul (hzero ▸ .head _)
    rw [cons_append, skipBlanks, if_pos rfl, if_neg hc, if_neg hzero]
    exact ih (fun h => hnul (.tail _ h)) hrest _
  | closes h ih => exact ih (fun h => hnul (.tail _ h)) hrest _

theorem scanFrom_eof (hgap : Skips false gap b) (hnul : '\x00' ∉ gap)
    (hend : rest.headD '\x00' = '\x00') (p : Position) :
    scanFrom p (gap ++ rest) = [Word.eof.at (p.advance gap)] := by
  have hskip := skipBlanks_eq hgap hnul (.finish hend) p
  rw [scanFrom]
  split <;> rename_i heq <;> cases hskip.symm.trans heq
  · rfl
  · exact if_pos hend

theorem scanFrom_token {c : Char} (hgap : Skips false gap false) (hnul : '\x00' ∉ gap)
    (hblank : isBlank c = false) (hc : c ∉ [';', '\x00']) (p : Position) :
    scanFrom p (gap ++ c :: rest) =
      (lexeme c rest).toWord.at (p.advance gap) ::
        scanFrom ((p.advance gap).advance (c :: rest.take (lexeme c rest).more))
        (rest.drop (lexeme c rest).more) := by
  have hstops : GapEnds false (c :: rest) := .byte hblank hc
  have hskip := skipBlanks_eq hgap hnul hstops p
  rw [scanFrom]
  split <;> rename_i heq <;> cases hskip.symm.trans heq
  exact if_neg fun h => hc (by simp [h])

theorem scan_induction {motive : Position → List Char → Prop}
    (eof : ∀ {p gap rest b}, Skips false gap b → '\x00' ∉ gap → rest.headD '\x00' = '\x00' →
      motive p (gap ++ rest))
    (token : ∀ {p gap c rest}, Skips false gap false → '\x00' ∉ gap → isBlank c = false →
      c ∉ [';', '\x00'] →
      motive ((p.advance gap).advance (c :: rest.take (lexeme c rest).more))
      (rest.drop (lexeme c rest).more) →
      motive p (gap ++ c :: rest)) (p : Position) (input : List Char) : motive p input := by
  induction hn : input.length using Nat.strongRecOn generalizing p input with
  | ind n ih =>
    obtain ⟨gap, rest, b, rfl, hgap, hnul, hstops⟩ := exists_skips false input
    cases hstops with
    | finish hend => exact eof hgap hnul hend
    | byte hblank hc =>
      refine token hgap hnul hblank hc (ih _ ?_ _ _ rfl)
      rw [← hn, length_drop, length_append, length_cons]
      omega

def words (input : List Char) : List Word := (scanFrom {} input).map Token.word

theorem map_word_scanFrom (p : Position) (input : List Char) :
    (scanFrom p input).map Token.word = words input := by
  suffices h : ∀ q, (scanFrom p input).map Token.word = (scanFrom q input).map Token.word from h {}
  induction p, input using scan_induction with
  | eof hgap hnul hend =>
    intro q
    rw [scanFrom_eof hgap hnul hend, scanFrom_eof hgap hnul hend]
    rfl
  | token hgap hnul hblank hc ih =>
    intro q
    rw [scanFrom_token hgap hnul hblank hc, scanFrom_token hgap hnul hblank hc, map_cons, ih]
    rfl

theorem words_eof (hgap : Skips false gap b) (hnul : '\x00' ∉ gap)
    (hend : rest.headD '\x00' = '\x00') : words (gap ++ rest) = [Word.eof] := by
  rw [words, scanFrom_eof hgap hnul hend]
  rfl

theorem words_token {c : Char} (hgap : Skips false gap false) (hnul : '\x00' ∉ gap)
    (hblank : isBlank c = false) (hc : c ∉ [';', '\x00']) :
    words (gap ++ c :: rest) =
    (lexeme c rest).toWord :: words (rest.drop (lexeme c rest).more) := by
  rw [words, scanFrom_token hgap hnul hblank hc, map_cons, map_word_scanFrom]
  rfl

/-! ## What scanning yields -/

def IsName (name : String) : Prop :=
  name ≠ "" ∧ ∀ c ∈ name.toList, Lexeme.isNamePart c = true

/-- A word as scanning can yield it: names after sigils are names, and literals hold no NUL. -/
structure Word.Scanned (w : Word) : Prop where
  name : w.kind = .globalIdent ∨ w.kind = .localIdent ∨ w.kind = .labelIdent → IsName w.literal
  string : w.kind = .string → '\x00' ∉ w.literal.toList

theorem Word.Scanned.of_plain {w : Word}
    (h : w.kind ∉ [.globalIdent, .localIdent, .labelIdent, .string]) : w.Scanned := by
  simp only [mem_cons, not_mem_nil, or_false, not_or] at h
  exact ⟨fun hkind => by simp_all, fun hkind => absurd hkind h.2.2.2⟩

/-- A word that a lexeme spells. The end of a text has no lexeme. -/
structure Word.Spelled (w : Word) : Prop extends w.Scanned where
  ne_eof : w.kind ≠ .eof

theorem Word.Spelled.of_plain {w : Word}
    (h : w.kind ∉ [.globalIdent, .localIdent, .labelIdent, .string, .eof]) : w.Spelled :=
  ⟨.of_plain (by simp_all), fun heof => h (by simp [heof])⟩

theorem ne_nul_of_literalUnescape? {e d : Char} (h : Text.literalUnescape? e = some d) :
    d ≠ '\x00' := by
  rintro rfl
  unfold Text.literalUnescape? at h
  repeat' split at h
  all_goals cases h

theorem nul_not_mem_stringBody (input : List Char) : '\x00' ∉ (stringBody input).1 := by
  fun_induction stringBody input with
  | case5 e rest d hd body closed n heq _ _ ih =>
    rw [heq] at ih
    simpa [(ne_nul_of_literalUnescape? hd).symm] using ih
  | case7 c rest _ hstop _ body closed n heq ih =>
    rw [heq] at ih
    simp only [Bool.or_eq_true, decide_eq_true_eq, not_or] at hstop
    simpa [Ne.symm hstop.1] using ih
  | _ => exact not_mem_nil

theorem TokenKind.ofWord_cases (w : String) : ofWord w = .ident ∨ ∃ k, ofWord w = .keyword k := by
  unfold ofWord
  split
  · exact .inr ⟨_, rfl⟩
  · exact .inl rfl

theorem word_spelled (c : Char) (rest : List Char) : (word c rest).toWord.Spelled := by
  apply Word.Spelled.of_plain
  simp only [word, toWord]
  repeat' split
  · simp
  · simp
  · generalize String.ofList (c :: rest.takeWhile isWordPart) = w
    rcases TokenKind.ofWord_cases w with h | ⟨k, h⟩ <;> simp [h]

theorem number_spelled (negative : Bool) (input : List Char) :
    (number negative input).toWord.Spelled := by
  apply Word.Spelled.of_plain
  simp only [number, toWord]
  repeat' split
  all_goals simp

theorem sigil_spelled {kind : TokenKind} (hkind : kind ∉ [.string, .eof]) (c : Char)
    (rest : List Char) :
    (sigil kind c rest).toWord.Spelled := by
  unfold sigil
  dsimp only
  split
  · exact .of_plain (by simp [toWord])
  · rename_i hne
    simp only [mem_cons, not_mem_nil, or_false, not_or] at hkind
    refine ⟨⟨fun _ => ⟨fun h => ?_, fun d hd => ?_⟩, fun h => absurd h hkind.1⟩, hkind.2⟩
    · rw [toWord, ← String.toList_eq_nil_iff, String.toList_ofList] at h
      exact hne (isEmpty_iff.mpr h)
    · rw [toWord, String.toList_ofList] at hd
      exact mem_takeWhile_imp hd

theorem lexeme_spelled (c : Char) (rest : List Char) : (lexeme c rest).toWord.Spelled := by
  unfold lexeme
  repeat' split
  · exact word_spelled c rest
  · exact number_spelled false _
  · unfold minus
    repeat' split
    · exact number_spelled true _
    all_goals exact .of_plain (by simp [toWord])
  · refine ⟨⟨fun h => ?_, fun _ => ?_⟩, fun h => ?_⟩
    · simp only [quoted, toWord] at h
      split at h <;> simp at h
    · simpa [quoted, toWord] using nul_not_mem_stringBody rest
    · simp only [quoted, toWord] at h
      split at h <;> cases h
  · exact sigil_spelled (by simp) c rest
  · exact sigil_spelled (by simp) c rest
  · exact sigil_spelled (by simp) c rest
  · rename_i kind hkind
    apply Word.Spelled.of_plain
    unfold punctuation? at hkind
    split at hkind <;> cases hkind <;> simp [toWord]
  · apply Word.Spelled.of_plain
    unfold pointOrOther
    split <;> simp [toWord]

theorem scanFrom_scanned (p : Position) (input : List Char) :
    ∀ t ∈ scanFrom p input, t.word.Scanned := by
  induction p, input using scan_induction with
  | eof hgap hnul hend =>
    rw [scanFrom_eof hgap hnul hend, forall_mem_singleton]
    exact .of_plain (by simp [Word.eof, Word.at, Token.word])
  | @token p gap c rest hgap hnul hblank hc ih =>
    rw [scanFrom_token hgap hnul hblank hc, forall_mem_cons]
    exact ⟨(lexeme_spelled c rest).toScanned, ih⟩

end SsaIr
