import SsaIr.Proofs.Syntax.Words

/-!
# String literals

Quoting a text and reading a string literal are inverse, whatever stands behind the closing quote
(`string_literals_read_back`). A NUL alone cannot be written in a literal, and no literal holds one.
-/

namespace SsaIr

open Lexeme

theorem literalUnescape?_literalEscape? {c e : Char} (h : Text.literalEscape? c = some e) :
    Text.literalUnescape? e = some c := by
  unfold Text.literalEscape? at h
  split_ifs at h with hc hc hc hc <;> cases h <;> cases hc <;> rfl

/-- A body is read byte by byte; the first quote that is not escaped is the closing one. -/
theorem stringBody_quoteBody {s : List Char} (hs : '\x00' ∉ s) (text : List Char) :
    stringBody (Text.quoteBody s ++ '"' :: text) = (s, true, (Text.quoteBody s).length + 1) := by
  induction s with
  | nil => simp [Text.quoteBody, stringBody.eq_def]
  | cons c s ih =>
    simp only [List.mem_cons, not_or] at hs
    cases hc : Text.literalEscape? c with
    | some e => simp [Text.quoteBody, hc, stringBody, literalUnescape?_literalEscape? hc, ih hs.2]
    | none =>
      have hplain : c ≠ '"' ∧ c ≠ '\\' ∧ c ≠ '\n' := by
        refine ⟨?_, ?_, ?_⟩ <;> rintro rfl <;> cases hc
      rw [Text.quoteBody, hc, List.cons_append, stringBody.eq_def]
      simp [hplain, Ne.symm hs.1, ih hs.2]

theorem scanFrom_quote {s : String} (hs : '\x00' ∉ s.toList) (p : Position) (text : List Char) :
    scanFrom p ((Text.quote s).toList ++ text) =
      { kind := .string, literal := s, value := .none, pos := p } ::
        scanFrom (p.advance (Text.quote s).toList) text := by
  obtain ⟨body, hbody⟩ : ∃ body, body = Text.quoteBody s.toList ++ ['"'] := ⟨_, rfl⟩
  have hlexeme :
      lexeme '"' (body ++ text) = { kind := .string, literal := s, more := body.length } := by
    show quoted _ = _
    rw [quoted, hbody, List.append_assoc, List.singleton_append, stringBody_quoteBody hs]
    simp
  have hscan : scanFrom p ('"' :: (body ++ text)) = _ :=
    scanFrom_token .done List.not_mem_nil rfl (by decide) p
  rw [hlexeme, List.take_left, List.drop_left] at hscan
  have hquote : (Text.quote s).toList = '"' :: body := by simp [Text.quote, hbody]
  rw [hquote]
  exact hscan

/-- A quoted text without NUL is read as one string token that stands for the text, and reading goes
on right behind the closing quote. What a string token of any source stands for is such a text. -/
theorem string_literals_read_back (p : Position) (text : List Char) :
    (∀ s : String, '\x00' ∉ s.toList → scanFrom p ((Text.quote s).toList ++ text) =
      { kind := .string, literal := s, value := .none, pos := p } ::
        scanFrom (p.advance (Text.quote s).toList) text) ∧
    ∀ (q : Position) (source : List Char), ∀ t ∈ scanFrom q source, t.kind = .string →
      scanFrom p ((Text.quote t.literal).toList ++ text) =
        { kind := .string, literal := t.literal, value := .none, pos := p } ::
          scanFrom (p.advance (Text.quote t.literal).toList) text :=
  ⟨fun _ hs => scanFrom_quote hs p text, fun q source t ht hkind =>
    scanFrom_quote ((scanFrom_scanned q source t ht).string hkind) p text⟩

theorem string_literals_read_back_hostile :
    Text.quote "a\"\\\n\t\x01ÿ" = "\"a\\\"\\\\\\n\\t\x01ÿ\"" ∧
      (scanFrom (.start "") ((Text.quote "a\"\\\n\t\x01ÿ").toList ++ ['"', 'x'])).head? =
        some { kind := .string, literal := "a\"\\\n\t\x01ÿ", value := .none, pos :=
          .start "" } := by
  obtain ⟨h, -⟩ := string_literals_read_back (.start "") ['"', 'x']
  rw [h _ (by decide)]
  exact ⟨by decide, rfl⟩

end SsaIr
