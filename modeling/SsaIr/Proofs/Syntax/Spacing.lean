import SsaIr.Proofs.Syntax.Positions

/-!
# Blanks between tokens

A lexeme ends where it cannot go on, so blanks and comments may be put before any token. What
decides where it ends are the next two bytes at most: read `Follows` first, then `Follows.lexeme_eq`
and `blanks_do_not_matter`.
-/

namespace SsaIr

open Lexeme Decimal List

/-- What may stand behind a lexeme in place of something else: it starts with the same byte or with
a gap, and a fraction starts only where one did. -/
structure Follows (r r' : List Char) : Prop where
  head : ∀ c ∈ r'.head?, c ∈ r.head? ∨ isBlank c = true ∨ c = ';'
  fraction : ∀ d tail, r' = '.' :: d :: tail → isDigit d = true → ∃ tail', r = '.' :: d :: tail'

theorem isDigit_le (c : Char) (hc : isDigit c = true) : isNamePart c = true := by
  simp [isNamePart, isWordPart, hc]

theorem isWordPart_le (c : Char) (hc : isWordPart c = true) : isNamePart c = true := by
  simp [isNamePart, hc]

namespace Follows

variable {x r r' : List Char}

theorem refl (r : List Char) : Follows r r := ⟨fun _ hc => .inl hc, fun _ tail heq _ => ⟨tail, heq⟩⟩

theorem head_of_isNamePart (h : Follows r r') {c : Char} (hc : c ∈ r'.head?)
    (hpart : isNamePart c = true) :
    c ∈ r.head? := by
  rcases h.head c hc with hsame | hgap
  · exact hsame
  · simp only [isBlank, Bool.or_eq_true, decide_eq_true_eq] at hgap
    rcases hgap with (((rfl | rfl) | rfl) | rfl) | rfl <;> cases hpart

theorem append (h : Follows r r') (x : List Char) : Follows (x ++ r) (x ++ r') := by
  match x with
  | [] => exact h
  | [c] =>
    refine ⟨fun _ hc => .inl hc, fun d tail heq hd => ?_⟩
    obtain ⟨rfl, rfl⟩ := List.cons.inj heq
    obtain ⟨tail', rfl⟩ := head?_eq_some_iff.mp (h.head_of_isNamePart rfl (isDigit_le d hd))
    exact ⟨tail', rfl⟩
  | c :: d :: x =>
    refine ⟨fun _ hc => .inl hc, fun e tail heq he => ?_⟩
    obtain ⟨rfl, rfl, -⟩ : c = '.' ∧ d = e ∧ _ := by simpa using heq
    exact ⟨_, rfl⟩

theorem span {p : Char → Bool} (hp : ∀ c, p c = true → isNamePart c = true) {input : List Char}
    (h : Follows (input.dropWhile p) r') :
    (input.takeWhile p ++ r').takeWhile p = input.takeWhile p ∧
      (input.takeWhile p ++ r').dropWhile p = r' := by
  have hall : ∀ c ∈ input.takeWhile p, p c = true := fun c hc => mem_takeWhile_imp hc
  rw [takeWhile_append_of_pos hall, dropWhile_append_of_pos hall]
  cases r' with
  | nil => simp
  | cons c r' =>
    have hc : ¬ p c = true := fun hc => by
      have hnot := head?_dropWhile_not p input
      rw [Option.mem_def.mp (h.head_of_isNamePart rfl (hp c hc))] at hnot
      simp [hc] at hnot
    simp [hc]

end Follows

/-! ## Numbers -/

namespace Lexeme.NumberParts

/-- The fraction that the input starts with, and what is left of the input. -/
def splitFraction (rest : List Char) : Option (List Char) × List Char :=
  match rest with
  | '.' :: d :: tail =>
    if isDigit d then (some ((d :: tail).takeWhile isDigit), (d :: tail).dropWhile isDigit)
      else (none, rest)
  | _ => (none, rest)

def exponent? (rest : List Char) : Option (Char × Option Char × List Char) :=
  match rest with
  | c :: tail =>
    if c = 'e' || c = 'E' then
      match tail with
      | s :: after =>
        if s = '+' || s = '-' then some (c, some s, after.takeWhile isDigit)
        else some (c, none, tail.takeWhile isDigit)
      | [] => some (c, none, [])
    else none
  | [] => none

def fractionBytes : Option (List Char) → List Char
  | some f => '.' :: f
  | none => []

def exponentBytes : Option (Char × Option Char × List Char) → List Char
  | some (mark, sign, digits) => mark :: (sign.toList ++ digits)
  | none => []

theorem bytes_eq (p : NumberParts) :
    p.bytes = p.digits ++ fractionBytes p.fraction ++ exponentBytes p.exponent := by
  rfl

theorem ofInput_eq (input : List Char) : ofInput input =
    { digits := input.takeWhile isDigit
      fraction := (splitFraction (input.dropWhile isDigit)).1
      exponent := exponent? (splitFraction (input.dropWhile isDigit)).2 } := rfl

theorem splitFraction_of_not {rest : List Char}
    (h : ∀ d tail, rest = '.' :: d :: tail → ¬ isDigit d = true) :
    splitFraction rest = (none, rest) := by
  unfold splitFraction
  split
  · exact if_neg (h _ _ rfl)
  · rfl

theorem splitFraction_follows (rest : List Char) : ∃ f r, splitFraction rest = (f, r) ∧
    rest = fractionBytes f ++ r ∧ ∀ r',
    Follows r r' → splitFraction (fractionBytes f ++ r') = (f, r') := by
  by_cases hf : ∃ d tail, rest = '.' :: d :: tail ∧ isDigit d = true
  · obtain ⟨d, tail, rfl, hd⟩ := hf
    refine ⟨_, _, if_pos hd, by simp [fractionBytes], fun r' h => ?_⟩
    obtain ⟨htake, hdrop⟩ := Follows.span isDigit_le h
    rw [takeWhile_cons_of_pos hd] at htake hdrop ⊢
    exact (if_pos hd).trans (Prod.ext (congrArg some htake) hdrop)
  · have hnot : ∀ d tail, rest = '.' :: d :: tail → ¬ isDigit d = true :=
      fun d tail heq hd => hf ⟨d, tail, heq, hd⟩
    refine ⟨none, rest, splitFraction_of_not hnot, rfl, fun r' h =>
      splitFraction_of_not fun d tail heq hd => ?_⟩
    obtain ⟨tail', hrest⟩ := h.fraction d tail heq hd
    exact hnot d tail' hrest hd

theorem exponent?_of_not {rest : List Char} (h : ∀ c ∈ rest.head?, ¬ (c = 'e' || c = 'E') = true) :
    exponent? rest = none := by
  cases rest with
  | nil => rfl
  | cons c tail => exact if_neg (h c rfl)

theorem exponent?_unsigned {c : Char} {tail : List Char} (hc : (c = 'e' || c = 'E') = true)
    (h : ∀ s ∈ tail.head?, ¬ (s = '+' || s = '-') = true) :
    exponent? (c :: tail) = some (c, none, tail.takeWhile isDigit) := by
  refine (if_pos hc).trans ?_
  cases tail with
  | nil => rfl
  | cons s after => exact if_neg (h s rfl)

theorem exponent?_follows (rest : List Char) :
    ∃ e r, exponent? rest = e ∧ rest = exponentBytes e ++ r ∧
    ∀ r', Follows r r' → exponent? (exponentBytes e ++ r') = e := by
  by_cases he : ∀ c ∈ rest.head?, ¬ (c = 'e' || c = 'E') = true
  · refine ⟨none, rest, exponent?_of_not he, rfl, fun r' h => exponent?_of_not fun c hc hmark => ?_⟩
    refine he c (h.head_of_isNamePart hc ?_) hmark
    simp only [Bool.or_eq_true, decide_eq_true_eq] at hmark
    rcases hmark with rfl | rfl <;> decide
  push Not at he
  obtain ⟨c, hc, hmark⟩ := he
  obtain ⟨tail, rfl⟩ := head?_eq_some_iff.mp hc
  by_cases hs : ∀ s ∈ tail.head?, ¬ (s = '+' || s = '-') = true
  · refine ⟨_, tail.dropWhile isDigit, exponent?_unsigned hmark hs, by simp [exponentBytes],
      fun r' h => ?_⟩
    have hnot : ∀ s ∈ (tail.takeWhile isDigit ++ r').head?, ¬ (s = '+' || s = '-') = true :=
      fun s hsign => by
      have htail := h.append (tail.takeWhile isDigit)
      rw [takeWhile_append_dropWhile] at htail
      rcases htail.head s hsign with hsame | hgap
      · exact hs s hsame
      · rintro hsign
        simp only [Bool.or_eq_true, decide_eq_true_eq] at hsign
        rcases hsign with rfl | rfl <;> revert hgap <;> decide
    exact (exponent?_unsigned hmark hnot).trans
      (congrArg (fun ds => some (c, none, ds)) (Follows.span isDigit_le h).1)
  · push Not at hs
    obtain ⟨s, hs, hsign⟩ := hs
    obtain ⟨after, rfl⟩ := head?_eq_some_iff.mp hs
    have hsigned : ∀ after,
      exponent? (c :: s :: after) = some (c, some s, after.takeWhile isDigit) := fun after =>
      (if_pos hmark).trans (if_pos hsign)
    refine ⟨_, after.dropWhile isDigit, hsigned after, by simp [exponentBytes], fun r' h => ?_⟩
    exact (hsigned _).trans
      (congrArg (fun ds => some (c, some s, ds)) (Follows.span isDigit_le h).1)

theorem ofInput_follows (input : List Char) : ∃ r, input = (ofInput input).bytes ++ r ∧
    ∀ r', Follows r r' → ofInput ((ofInput input).bytes ++ r') = ofInput input := by
  obtain ⟨f, r₁, hf, hrest, hkeep⟩ := splitFraction_follows (input.dropWhile isDigit)
  obtain ⟨e, r, he, hr, hkeep'⟩ := exponent?_follows r₁
  have hparts : ofInput input = ⟨input.takeWhile isDigit, f, e⟩ := by rw [ofInput_eq, hf, he]
  have hsplit : input = input.takeWhile isDigit ++ (fractionBytes f ++ (exponentBytes e ++ r)) := by
    rw [← hr, ← hrest, takeWhile_append_dropWhile]
  refine ⟨r, by rw [hparts, bytes_eq]; simpa using hsplit, fun r' h => ?_⟩
  have h₁ := h.append (exponentBytes e)
  have h₂ := h₁.append (fractionBytes f)
  rw [← hr] at h₁ h₂
  rw [← hrest] at h₂
  obtain ⟨htake, hdrop⟩ := Follows.span isDigit_le h₂
  rw [hparts, bytes_eq, append_assoc, append_assoc, ofInput_eq, htake, hdrop, hkeep _ h₁,
    hkeep' r' h]

end Lexeme.NumberParts

/-! ## Lexemes -/

/-- The lexeme takes the first bytes of the rest, and does not depend on what stands behind them. -/
def Settled (f : List Char → Lexeme) (rest : List Char) : Prop :=
  ∃ x r, rest = x ++ r ∧ (f rest).more = x.length ∧ ∀ r', Follows r r' → f (x ++ r') = f rest

section Lexemes

variable {c : Char} {rest : List Char}

theorem settled_of_span {f : List Char → Lexeme} {p : Char → Bool}
    (hp : ∀ c, p c = true → isNamePart c = true)
    (hf : ∀ rest', rest'.takeWhile p = rest.takeWhile p → f rest' = f rest)
    (hmore : (f rest).more = (rest.takeWhile p).length) : Settled f rest :=
  ⟨rest.takeWhile p, rest.dropWhile p, takeWhile_append_dropWhile.symm, hmore, fun _ h =>
    hf _ (Follows.span hp h).1⟩

theorem word_settled (c : Char) (rest : List Char) : Settled (word c) rest := by
  refine settled_of_span isWordPart_le (fun rest' h => by simp only [word, h]) ?_
  unfold word
  dsimp only
  split_ifs <;> rfl

theorem sigil_settled {kind : TokenKind} (hlegal : (sigil kind c rest).kind ≠ .illegal) :
    Settled (sigil kind c) rest := by
  have hname : ¬ (rest.takeWhile isNamePart).isEmpty = true :=
    fun hname => hlegal (by simp only [sigil, if_pos hname])
  exact settled_of_span (fun _ h => h) (fun rest' h => by simp only [sigil, h])
    (by simp only [sigil, if_neg hname])

theorem stringBody_settled {body : List Char} {n : Nat} (h : stringBody rest = (body, true, n)) :
    ∃ x r, rest = x ++ r ∧ n = x.length ∧ ∀ r', stringBody (x ++ r') = (body, true, n) := by
  fun_induction stringBody rest generalizing body n with
  | case2 rest =>
    cases h
    exact ⟨['"'], rest, rfl, rfl, fun r' => by rw [stringBody.eq_def]; rfl⟩
  | case5 e rest d hd body' closed n' heq _ _ ih =>
    cases h
    obtain ⟨x, r, rfl, rfl, hx⟩ := ih heq
    exact ⟨'\\' :: e :: x, r, rfl, rfl, fun r' => by simp [stringBody, hd, hx]⟩
  | case7 e rest hquote hstop hescape body' closed n' heq ih =>
    cases h
    obtain ⟨x, r, rfl, rfl, hx⟩ := ih heq
    refine ⟨e :: x, r, rfl, rfl, fun r' => ?_⟩
    rw [cons_append, stringBody.eq_def]
    simp only [if_neg hquote, if_neg hstop, if_neg hescape, hx]
  | _ => cases h

theorem quoted_settled (hlegal : (quoted rest).kind ≠ .illegal) : Settled quoted rest := by
  have hquoted {rest body : List Char} {closed : Bool} {n : Nat}
    (h : stringBody rest = (body, closed, n)) :
      quoted rest = ⟨if closed then .string else .illegal, String.ofList body, .none, n⟩ := by
        rw [quoted, h]
  cases hbody : stringBody rest with
  | mk body after =>
    obtain ⟨closed, n⟩ := after
    cases closed with
    | false => exact absurd (by rw [hquoted hbody]; rfl) hlegal
    | true =>
      obtain ⟨x, r, hsplit, hn, hkeep⟩ := stringBody_settled hbody
      refine ⟨x, r, hsplit, by rw [hquoted hbody, hn], fun r' _ => ?_⟩
      rw [hquoted hbody, hquoted (hkeep r')]

theorem number_settled (negative : Bool) (hc : isDigit c = true) (rest : List Char) :
    ∃ x r, rest = x ++ r ∧
    (number negative (c :: rest)).more = x.length + (if negative then 1 else 0) ∧
      ∀ r', Follows r r' → number negative (c :: x ++ r') = number negative (c :: rest) := by
  obtain ⟨r, hsplit, hkeep⟩ := NumberParts.ofInput_follows (c :: rest)
  obtain ⟨x, hx⟩ : ∃ x, (NumberParts.ofInput (c :: rest)).bytes = c :: x := by
    rw [NumberParts.bytes_eq, NumberParts.ofInput_eq, takeWhile_cons_of_pos hc]
    exact ⟨_, rfl⟩
  rw [hx] at hsplit hkeep
  refine ⟨x, r, (List.cons.inj hsplit).2, ?_, fun r' h => by simp only [number, hkeep r' h]⟩
  simp only [number, hx]
  repeat' split
  all_goals rfl

theorem minus_infinity (h : rest.takeWhile isWordPart = "inf".toList) : minus rest =
    { kind := .float, literal := "-inf", more := 3
      value := .float (FloatReading.signed true FloatFormat.binary64.infinityBits) } := by
  cases rest with
  | nil => cases h
  | cons c rest =>
    obtain rfl : c = 'i' := by
      by_cases hc : isWordPart c = true <;> simp_all
    have hnot : ¬ isDigit 'i' = true := by decide
    simp only [minus, if_neg hnot, if_pos h]

theorem minus_settled (hlegal : (minus rest).kind ≠ .illegal) : Settled minus rest := by
  by_cases hinf : rest.takeWhile isWordPart = "inf".toList
  · refine settled_of_span isWordPart_le (fun rest' h => ?_)
      (by rw [minus_infinity hinf, hinf]; rfl)
    rw [minus_infinity hinf, minus_infinity (h.trans hinf)]
  cases rest with
  | nil => exact absurd rfl hlegal
  | cons d rest =>
    by_cases hd : isDigit d = true
    · obtain ⟨x, r, rfl, hmore, hkeep⟩ := number_settled true hd rest
      have hminus : ∀ rest, minus (d :: rest) = number true (d :: rest) := fun rest => if_pos hd
      refine ⟨d :: x, r, rfl, by rw [hminus, hmore]; rfl, fun r' h => ?_⟩
      exact (hminus _).trans ((hkeep r' h).trans (hminus _).symm)
    · simp only [minus, if_neg hd, if_neg hinf] at hlegal
      exact absurd rfl hlegal

theorem lexeme_settled (hlegal : (lexeme c rest).kind ≠ .illegal) : Settled (lexeme c) rest := by
  unfold Settled
  unfold lexeme at hlegal ⊢
  split_ifs at hlegal ⊢ with _ hdigit
  · exact word_settled c rest
  · exact number_settled false hdigit rest
  · exact minus_settled hlegal
  · exact quoted_settled hlegal
  · exact sigil_settled hlegal
  · exact sigil_settled hlegal
  · exact sigil_settled hlegal
  · cases hkind : punctuation? c with
    | some kind => exact ⟨[], rest, rfl, rfl, fun _ _ => rfl⟩
    | none =>
      simp only [hkind, pointOrOther] at hlegal ⊢
      split_ifs at hlegal ⊢ with hpoints
      · simp only [Bool.and_eq_true, decide_eq_true_eq] at hpoints
        refine ⟨rest.take 2, rest.drop 2, (take_append_drop ..).symm, ?_, fun r' _ => ?_⟩
        · rw [hpoints.2]
          rfl
        · rw [hpoints.2]
          simp [hpoints.1]
      · exact absurd rfl hlegal

end Lexemes

/-! ## Texts -/

theorem Skips.of_comment {b b' : Bool} {gap : List Char} (h : Skips b gap b') :
    ∃ b'', Skips true gap b'' := by
  induction h with
  | done => exact ⟨true, .done⟩
  | @blank c gap b hc h ih =>
    obtain ⟨b'', hgap⟩ := ih
    by_cases hline : c = '\n'
    · exact ⟨b, hline ▸ .closes h⟩
    · exact ⟨b'', .inside hline hgap⟩
  | opens h => exact ⟨_, .inside (by decide) h⟩
  | inside hc h => exact ⟨_, .inside hc h⟩
  | closes h => exact ⟨_, .closes h⟩

theorem Skips.append {b b' b'' : Bool} {gap gap' : List Char} (h : Skips b gap b')
    (h' : Skips b' gap' b'') :
    Skips b (gap ++ gap') b'' := by
  induction h with
  | done => exact h'
  | blank hc _ ih => exact .blank hc (ih h')
  | opens _ ih => exact .opens (ih h')
  | inside hc _ ih => exact .inside hc (ih h')
  | closes _ ih => exact .closes (ih h')

theorem Skips.follows {w : List Char} {b : Bool} (hw : Skips false w b) (v : List Char) :
    Follows v (w ++ v) := by
  have hgap {c : Char} {gap : List Char} (hc : isBlank c = true ∨ c = ';') :
      Follows v (c :: gap ++ v) := by
    refine ⟨fun d hd => .inr (Option.some.inj hd ▸ hc), fun d tail heq _ => ?_⟩
    rw [(List.cons.inj heq).1] at hc
    exact absurd hc (by decide)
  cases hw with
  | done => exact .refl v
  | blank hc _ => exact hgap (.inl hc)
  | opens _ => exact hgap (.inr rfl)

theorem words_insert {w : List Char} (hw : Skips false w false) (hnul : '\x00' ∉ w) (p : Position)
    (input : List Char) :
    ∀ u v t, input = u ++ v → t ∈ upToEnd (scanFrom p input) → t.pos.offset = p.offset + u.length →
      words (u ++ (w ++ v)) = words (u ++ v) := by
  induction p, input using scan_induction with
  | @eof p gap rest b hgap hfree hend =>
    intro u v t heq ht hoffset
    rw [scanFrom_eof hgap hfree hend] at ht
    obtain rfl := mem_singleton.mp ht
    obtain ⟨rfl, rfl⟩ := append_inj heq (by
      have hgap_offset := p.offset_advance gap
      simp only [Word.at] at hoffset
      omega)
    obtain ⟨b', hall⟩ : ∃ b', Skips false (gap ++ w) b' := by
      cases b with
      | false => exact ⟨_, hgap.append hw⟩
      | true =>
        obtain ⟨b', hw'⟩ := hw.of_comment
        exact ⟨b', hgap.append hw'⟩
    rw [words_eof hgap hfree hend, ← append_assoc, words_eof hall (by simp [hfree, hnul]) hend]
  | @token p gap c rest hgap hfree hblank hc ih =>
    intro u v t heq ht hoffset
    have hgap_offset := p.offset_advance gap
    rw [scanFrom_token hgap hfree hblank hc, upToEnd_cons] at ht
    by_cases hfirst : t.pos.offset = p.offset + gap.length
    · obtain ⟨rfl, rfl⟩ := append_inj heq (by omega)
      rw [words_token hgap hfree hblank hc, ← append_assoc,
        words_token (hgap.append hw) (by simp [hfree, hnul]) hblank hc]
    · -- the token stands behind the first lexeme, which is legal then
      have hne : t ≠ (lexeme c rest).toWord.at (p.advance gap) :=
        fun h => hfirst (by rw [h]; exact hgap_offset)
      split at ht
      · exact absurd (mem_singleton.mp ht) hne
      next hgo =>
      have ht := (mem_cons.mp ht).resolve_left hne
      have hlegal : (lexeme c rest).kind ≠ .illegal :=
        fun h => hgo (by rw [Word.at, Lexeme.toWord, h])
      obtain ⟨x, r, rfl, hmore, hkeep⟩ := lexeme_settled hlegal
      rw [hmore, take_left, drop_left] at ht ih
      have hle := le_offset_of_mem ((upToEnd_sublist _).subset ht)
      rw [Position.offset_advance, length_cons] at hle
      obtain ⟨u', rfl⟩ : gap ++ c :: x <+: u := by
        refine prefix_of_prefix_length_le ⟨r, ?_⟩ (prefix_append u v) ?_
        · rw [← heq, append_assoc, cons_append]
        · rw [length_append, length_cons]
          omega
      simp only [append_assoc, cons_append, append_cancel_left_eq, List.cons.injEq, true_and]
        at heq ⊢
      have hfollows := (hw.follows v).append u'
      rw [← heq] at hfollows
      rw [words_token hgap hfree hblank hc, words_token hgap hfree hblank hc, ← heq,
        hkeep _ hfollows, hmore,
        drop_left, drop_left, heq, ih u' v t heq ht]
      rw [Position.offset_advance, length_cons, hoffset]
      simp only [length_append, length_cons]
      omega

theorem upToEnd_map_word {ts ts' : List Token} (h : ts.map Token.word = ts'.map Token.word) :
    (upToEnd ts).map Token.word = (upToEnd ts').map Token.word := by
  induction ts generalizing ts' with
  | nil => rw [map_eq_nil_iff.mp h.symm]
  | cons t ts ih =>
    obtain ⟨t', ts', rfl, hword, hrest⟩ := map_eq_cons_iff.mp h.symm
    have hkind : t'.kind = t.kind := congrArg Word.kind hword
    rw [upToEnd_cons, upToEnd_cons, hkind]
    split
    · rw [map_singleton, map_singleton, hword]
    · rw [map_cons, map_cons, hword, ih hrest.symm]

/-- Blanks and comments between tokens do not matter: put before a token, they leave the kinds, the
literals and the numbers of all tokens as they are. -/
theorem blanks_do_not_matter (file : String) {u v w : String} {t : Token}
    (ht : t ∈ tokenize file (u ++ v))
    (hoffset : t.pos.offset = u.length) (hw : Skips false w.toList false)
    (hnul : '\x00' ∉ w.toList) :
    (tokenize file (u ++ w ++ v)).map Token.word = (tokenize file (u ++ v)).map Token.word := by
  refine upToEnd_map_word ?_
  rw [scan, scan, map_word_scanFrom, map_word_scanFrom, String.append_assoc, String.toList_append,
    String.toList_append, String.toList_append]
  refine words_insert hw hnul (.start file) _ _ _ t String.toList_append ht ?_
  rw [hoffset, String.length_toList]
  exact (Nat.zero_add _).symm

theorem blanks_do_not_matter_points :
    (⟨.ellipsis, "...", .none, ⟨"f", 1, 2, 1⟩⟩ : Token) ∈ tokenize "f" ("1" ++ "...") ∧
    (tokenize "f" ("1" ++ "\t; .5\n " ++ "...")).map Token.word =
    (tokenize "f" ("1" ++ "...")).map Token.word := by
  have hmem : (⟨.ellipsis, "...", .none, ⟨"f", 1, 2, 1⟩⟩ : Token) ∈
      tokenize "f" ("1" ++ "...") := by decide +kernel
  refine ⟨hmem, blanks_do_not_matter "f" hmem rfl ?_ (by decide)⟩
  exact .blank rfl
    (.opens (.inside (by decide)
      (.inside (by decide) (.inside (by decide) (.closes (.blank rfl .done))))))

end SsaIr
