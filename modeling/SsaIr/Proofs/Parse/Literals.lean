import SsaIr.Proofs.Number.Exact
import SsaIr.Proofs.Parse.Totality

/-!
# Integer literals

Reading a decimal literal with its type. The digits leave a word of 64 bits, which is then negated
if a sign stands before them, and only this word is checked and converted; so what matters is which
numbers are told from their words. `operand_literal` goes from the text to the word,
`integer_literals_ranged` says which literals are read at types of integers, and
`float_literals_exact` what they are as floating-point numbers.
-/

namespace SsaIr

open Decimal List

def literal (negative : Bool) (digits : List Char) : String :=
  String.ofList (if negative then '-' :: digits else digits)

def payload (negative : Bool) (n : Nat) : Int64 :=
  if negative then -n.toUInt64.toInt64 else n.toUInt64.toInt64

/-- The lexeme of a literal: an integer, if it is small enough. -/
def literalLexeme (negative : Bool) (digits : List Char) : Lexeme :=
  let more := digits.length - 1 + if negative then 1 else 0
  if Decimal.value digits < 2 ^ 64 then
    { kind := .int, literal := literal negative digits,
      value := .int (payload negative (Decimal.value digits)), more }
  else { kind := .illegal, literal := String.ofList digits, more }

theorem startsDigit {d : Char} (h : isDigit d = true) :
    isBlank d = false ∧ d ∉ [';', '\x00'] ∧ Lexeme.isWordStart d = false := by
  simp only [isDigit, Bool.and_eq_true, decide_eq_true_eq] at h
  obtain ⟨hlow, hhigh⟩ : 48 ≤ d.toNat ∧ d.toNat ≤ 57 := h
  rw [← Char.ofNat_toNat d]
  generalize d.toNat = n at hlow hhigh
  interval_cases n <;> decide

section Reading

variable {negative : Bool} {digits : List Char} (hne : digits ≠ [])
  (hdigits : ∀ d ∈ digits, Decimal.isDigit d = true)
include hdigits

theorem number_digits (rest : List Char) :
    Lexeme.number negative (digits ++ ':' :: rest) = literalLexeme negative digits := by
  have htake : (digits ++ ':' :: rest).takeWhile isDigit = digits := by
    rw [takeWhile_append_of_pos hdigits, takeWhile_cons_of_neg (by decide), append_nil]
  have hdrop : (digits ++ ':' :: rest).dropWhile isDigit = ':' :: rest := by
    rw [dropWhile_append_of_pos hdigits, dropWhile_cons_of_neg (by decide)]
  have hparts : Lexeme.NumberParts.ofInput (digits ++ ':' :: rest) = ⟨digits, none, none⟩ := by
    simp [Lexeme.NumberParts.ofInput, htake, hdrop]
  cases negative <;> simp [Lexeme.number, literalLexeme, hparts, Lexeme.NumberParts.bytes, literal,
    payload]

include hne in
theorem words_literal (rest : List Char) : words ((literal negative digits).toList ++ ':' :: rest) =
    (literalLexeme negative digits).toWord :: words (':' :: rest) := by
  obtain ⟨d, ds, rfl⟩ := exists_cons_of_ne_nil hne
  have hd := hdigits d (.head _)
  have hnumber :
    Lexeme.number negative (d :: ds ++ ':' :: rest) = literalLexeme negative (d :: ds) :=
    number_digits hdigits rest
  have hmore : (literalLexeme negative (d :: ds)).more = ds.length + if negative then 1 else 0 := by
    unfold literalLexeme
    dsimp only
    split <;> rfl
  rw [literal, String.toList_ofList]
  cases negative with
  | true =>
    have hlexeme : lexeme '-' (d :: ds ++ ':' :: rest) = literalLexeme true (d :: ds) := by
      rw [← hnumber]
      exact if_pos hd
    have hwords : words ([] ++ '-' :: (d :: ds ++ ':' :: rest)) = _ :=
      words_token .done not_mem_nil rfl (by decide)
    rw [hlexeme, hmore] at hwords
    exact hwords.trans
      (congrArg (_ :: words ·) (drop_left : (d :: ds ++ _).drop (d :: ds).length = _))
  | false =>
    have hstart := startsDigit hd
    have hlexeme : lexeme d (ds ++ ':' :: rest) = literalLexeme false (d :: ds) := by
      rw [← hnumber, lexeme, if_neg (by simp [hstart]), if_pos hd]
      rfl
    have hwords : words ([] ++ d :: (ds ++ ':' :: rest)) = _ :=
      words_token .done not_mem_nil hstart.1 hstart.2.1
    rw [hlexeme, hmore] at hwords
    exact hwords.trans (congrArg (_ :: words ·) drop_left)

include hne in
/-- Reading a literal with its type comes down to the constant that it spells, if it is an
integer. -/
theorem operand_literal (negative : Bool) {name : String} {k : Keyword} {t : Ty}
    (hk : Parse.primitive? (.keyword k) = some t)
    (hname : words (": " ++ name).toList = [⟨.colon, ":", .none⟩, ⟨.keyword k, name, .none⟩, .eof])
    (file : String) (c : Context) (m : ModuleId) :
    let run := Parse.operand none (.start file (literal negative digits ++ ": " ++ name) c m)
    if value digits < 2 ^ 64 then
      ∃ pos s, run =
        Parse.constant
          ⟨.int, literal negative digits, .int (payload negative (value digits)), pos⟩ t s
    else ∃ e s, run = .error e s := by
  have hwords : (scan file (literal negative digits ++ ": " ++ name)).map Token.word =
      [(literalLexeme negative digits).toWord, ⟨.colon, ":", .none⟩, ⟨.keyword k, name, .none⟩,
        .eof] := by
    rw [scan, map_word_scanFrom, String.append_assoc, String.toList_append, ← hname,
      String.toList_append]
    exact words_literal hne hdigits (' ' :: name.toList)
  obtain ⟨t₀, ts, hscan, h₀, hts⟩ := map_eq_cons_iff.mp hwords
  obtain ⟨⟨_, _, _, _⟩, ts, rfl, h₁, hts⟩ := map_eq_cons_iff.mp hts
  obtain ⟨⟨_, _, _, _⟩, ts, rfl, h₂, hts⟩ := map_eq_cons_iff.mp hts
  obtain ⟨⟨_, _, _, pos⟩, ts, rfl, h₃, hts⟩ := map_eq_cons_iff.mp hts
  obtain rfl := map_eq_nil_iff.mp hts
  cases h₁
  cases h₂
  cases h₃
  unfold literalLexeme at h₀
  rw [ParseState.start, hscan]
  obtain ⟨_, _, _, pos₀⟩ := t₀
  split
  · next hsmall =>
    simp only [if_pos hsmall] at h₀
    refine ⟨pos₀,
      { stream := ⟨⟨.eof, "", .none, pos⟩, []⟩, context := c, module := m, budget := 20 }, ?_⟩
    cases h₀
    cases k <;> cases hk <;> rfl
  · next hlarge =>
    simp only [if_neg hlarge] at h₀
    cases h₀
    exact ⟨_, _, rfl⟩

include hne in
theorem startsWith_literal : (literal negative digits).startsWith "-" = negative := by
  obtain ⟨d, ds, rfl⟩ := exists_cons_of_ne_nil hne
  have hd : '-' ≠ d := fun heq => absurd (hdigits d (.head _)) (heq ▸ by decide)
  have hlist : (literal negative (d :: ds)).toList = if negative then '-' :: d :: ds else d :: ds :=
    String.toList_ofList
  rw [Bool.eq_iff_iff, String.startsWith_string_iff, hlist]
  cases negative <;> simp [hd]

end Reading

/-! ## Integers -/

def denoted (negative : Bool) (digits : List Char) : Int :=
  if negative then -(Decimal.value digits : Int) else Decimal.value digits

/-- The numbers that a type of integers has a pattern for, signed or not. -/
def InRange (w : IntWidth) (n : Int) : Prop := -2 ^ (w.bits - 1) ≤ n ∧ n ≤ 2 ^ w.bits - 1

def Wraps (n : Int) : Prop := -2 ^ 64 < n ∧ n < -2 ^ 63

theorem IntWidth.toInt_truncate {w : IntWidth} (hw : w ≠ .w1) (v : Int64) :
    (w.truncate v).toInt = v.toInt.bmod (2 ^ w.bits) := by
  cases w with
  | w1 => exact absurd rfl hw
  | w8 =>
    show v.toInt8.toInt64.toInt = v.toInt.bmod (2 ^ 8)
    rw [Int8.toInt_toInt64, Int64.toInt_toInt8]
  | w16 =>
    show v.toInt16.toInt64.toInt = v.toInt.bmod (2 ^ 16)
    rw [Int16.toInt_toInt64, Int64.toInt_toInt16]
  | w32 =>
    show v.toInt32.toInt64.toInt = v.toInt.bmod (2 ^ 32)
    rw [Int32.toInt_toInt64, Int64.toInt_toInt32]
  | w64 => exact v.toInt_bmod.symm

theorem toInt_payload (negative : Bool) (digits : List Char) :
    (payload negative (value digits)).toInt = (denoted negative digits).bmod (2 ^ 64) := by
  have hword : payload negative (value digits) = .ofInt (denoted negative digits) := by
    cases negative with
    | true =>
      show _ = Int64.ofInt (-(value digits : Int))
      rw [Int64.ofInt_neg, Int64.ofInt_eq_ofNat]
      rfl
    | false => exact Int64.ofInt_eq_ofNat.symm
  rw [hword]
  exact Int64.toInt_ofInt

theorem bmod_word {n : Int} (hlow : -2 ^ 64 < n) (hhigh : n < 2 ^ 64) :
    n.bmod (2 ^ 64) = if n < -2 ^ 63 then n + 2 ^ 64 else if n < 2 ^ 63 then n else n - 2 ^ 64 := by
  rw [Int.bmod_def]
  split_ifs <;> omega

theorem IntWidth.fits_iff (w : IntWidth) (negative : Bool) (v : Int64) : w.fits negative v = true ↔
    w = .w64 ∨ if negative then -2 ^ (w.bits - 1) ≤ v.toInt else 0 ≤ v.toInt ∧
    v.toInt ≤ 2 ^ w.bits - 1 := by
  cases w with
  | w64 => simp [fits]
  | _ =>
    cases negative <;> simp only [fits, Bool.false_eq_true, if_true, if_false, Bool.and_eq_true,
      decide_eq_true_iff, reduceCtorEq, false_or] <;> rfl

/-- The check looks at the word. Below `-2 ^ 63` the word is a positive number, which always
passes. -/
theorem fits_payload {negative : Bool} {digits : List Char} {w : IntWidth} (hw : w ≠ .w1)
    (hsmall : value digits < 2 ^ 64) :
    w.fits negative (payload negative (value digits)) = true ↔
      InRange w (denoted negative digits) ∨ Wraps (denoted negative digits) := by
  have hword := toInt_payload negative digits
  have hsign : if negative then -2 ^ 64 < denoted negative digits ∧ denoted negative digits ≤ 0
      else 0 ≤ denoted negative digits ∧ denoted negative digits < 2 ^ 64 := by
    unfold denoted
    cases negative <;> simp <;> omega
  generalize payload negative (value digits) = v, denoted negative digits = z at hword hsign ⊢
  rw [bmod_word (by cases negative <;> simp at hsign <;> omega)
    (by cases negative <;> simp at hsign <;> omega)]
    at hword
  rw [IntWidth.fits_iff]
  unfold InRange Wraps
  cases negative <;> cases w <;> simp [IntWidth.bits] at hw hsign ⊢ <;> split_ifs at hword <;> omega

theorem constant_integer {w : IntWidth} (hw : w ≠ .w1) (text : String) (v : Int64) (pos : Position)
    (s : ParseState) : Parse.constant ⟨.int, text, .int v, pos⟩ (.int w) s =
      if w.fits (text.startsWith "-") v then
        .ok (.const (.ofInt w v)) (s.within (s.context.learnConst (.ofInt w v)))
      else .error ⟨pos, .integerRange text (.int w)⟩ s := by
  cases w with
  | w1 => exact absurd rfl hw
  | _ =>
    unfold Parse.constant
    dsimp only
    split <;> rfl

/-- **Integer literals.** A literal that denotes `n` is read at a type of `k` bits if and only if
`-2 ^ (k - 1) ≤ n ≤ 2 ^ k - 1`, or the word of 64 bits that is checked in its place has lost the
sign of `n`. Whatever is read, the constant is `n` modulo `2 ^ k`, with its sign. -/
theorem integer_literals_ranged {negative : Bool} {digits : List Char} {w : IntWidth}
    (hne : digits ≠ [])
    (hdigits : ∀ d ∈ digits, Decimal.isDigit d = true) (hw : w ≠ .w1) (file : String) (c : Context)
    (m : ModuleId) :
    let run := Parse.operand none (.start file (literal negative digits ++ ": " ++ w.name) c m)
    ((∃ v s, run = .ok v s) ↔ InRange w (denoted negative digits) ∨
      Wraps (denoted negative digits)) ∧
      ∀ v s, run = .ok v s →
        ∃ n : Int64,
          v = .const (.int w n) ∧ n.toInt = (denoted negative digits).bmod (2 ^ w.bits) := by
  have hread : ∃ k, Parse.primitive? (.keyword k) = some (.int w) ∧ words (": " ++ w.name).toList =
      [⟨.colon, ":", .none⟩, ⟨.keyword k, w.name, .none⟩, .eof] := by
    cases w
    case w1 => exact absurd rfl hw
    case w8 => exact ⟨.i8, rfl, by cbv⟩
    case w16 => exact ⟨.i16, rfl, by cbv⟩
    case w32 => exact ⟨.i32, rfl, by cbv⟩
    case w64 => exact ⟨.i64, rfl, by cbv⟩
  obtain ⟨k, hk, hname⟩ := hread
  have hrun := operand_literal hne hdigits negative hk hname file c m
  have hlarge : InRange w (denoted negative digits) ∨ Wraps (denoted negative digits) →
      Decimal.value digits < 2 ^ 64 := by
    unfold InRange Wraps denoted
    cases negative <;> cases w <;> simp [IntWidth.bits] <;> omega
  intro run
  split at hrun
  · next hsmall =>
    obtain ⟨pos, s, hrun⟩ := hrun
    rw [constant_integer hw, startsWith_literal hne hdigits] at hrun
    split at hrun
    · next hfit =>
      refine ⟨iff_of_true ⟨_, _, hrun⟩ ((fits_payload hw hsmall).mp hfit), fun v s' h => ?_⟩
      cases hrun.symm.trans h
      refine ⟨_, rfl, ?_⟩
      rw [IntWidth.toInt_truncate hw, toInt_payload, Int.bmod_bmod_of_dvd (by cases w <;> decide)]
    · next hfit =>
      have hnot : ∀ v s', run ≠ .ok v s' := fun v s' h => by cases hrun.symm.trans h
      refine ⟨iff_of_false ?_ (hfit ∘ (fits_payload hw hsmall).mpr), fun v s' h =>
        absurd h (hnot v s')⟩
      rintro ⟨v, s', h⟩
      exact hnot v s' h
  · next hsmall =>
    obtain ⟨e, s, hrun⟩ := hrun
    have hnot : ∀ v s', run ≠ .ok v s' := fun v s' h => by cases hrun.symm.trans h
    refine ⟨iff_of_false ?_ (hsmall ∘ hlarge), fun v s' h => absurd h (hnot v s')⟩
    rintro ⟨v, s', h⟩
    exact hnot v s' h

theorem integer_literals_ranged_negative : ∃ v s,
    Parse.operand none
    (.start "" (literal true ['1', '2', '8'] ++ ": " ++ IntWidth.w8.name) .new ⟨0⟩) = .ok v s :=
  (integer_literals_ranged (cons_ne_nil '1' ['2', '8']) (all_eq_true.mp rfl) (by decide)
    "" .new ⟨0⟩).1.mpr (.inl ⟨by decide, by decide⟩)

/-! ## Floating-point numbers -/

theorem constant_float (text : String) (v : Int64) (pos : Position) (s : ParseState) :
    ∃ s', Parse.constant ⟨.int, text, .int v, pos⟩ (.float .f64) s =
      .ok (.const (.float .f64 (FloatFormat.binary64.ofInt v.toInt).toUInt64)) s' :=
  ⟨_, rfl⟩

theorem Short.dvd {a : Nat} (h : Short a) (hge : 2 ^ 63 ≤ a) : 2 ^ 11 ∣ a := by
  obtain ⟨q, k, rfl, hq⟩ := h
  have hlt : 2 ^ 63 < 2 ^ (53 + k) := by
    rw [Nat.pow_add]
    exact hge.trans_lt (Nat.mul_lt_mul_of_pos_right hq (Nat.two_pow_pos k))
  have hk := (Nat.pow_lt_pow_iff_right (by decide)).mp hlt
  exact (Nat.pow_dvd_pow 2 (by omega)).mul_left q

theorem short_word {n : Int} (hlow : -2 ^ 64 < n) (hhigh : n < 2 ^ 64) (h : Short n.natAbs) :
    Short (n.bmod (2 ^ 64)).natAbs := by
  by_cases hin : -2 ^ 63 ≤ n ∧ n < 2 ^ 63
  · rwa [bmod_word hlow hhigh, if_neg (by omega), if_pos hin.2]
  · have hdvd := h.dvd (by omega)
    have hword : 2 ^ 11 ∣ (n.bmod (2 ^ 64)).natAbs ∧ (n.bmod (2 ^ 64)).natAbs ≤ 2 ^ 63 := by
      rw [bmod_word hlow hhigh]
      split_ifs <;> omega
    obtain ⟨⟨q, hq⟩, hle⟩ := hword
    exact ⟨q, 11, hq.trans (Nat.mul_comm ..), by omega⟩

/-- **Integers as floating-point numbers.** A literal that is an integer `n`, which some number of
double precision denotes, is read as the number that denotes the word of `n`. This is `n` if and
only if the word has its value. -/
theorem float_literals_exact {negative : Bool} {digits : List Char} (hne : digits ≠ [])
    (hdigits : ∀ d ∈ digits, Decimal.isDigit d = true) (hint : Decimal.value digits < 2 ^ 64)
    (hfloat : ∃ bits, (FloatFormat.binary64.classify bits).Denotes (denoted negative digits))
    (file : String) (c : Context) (m : ModuleId) :
    ∃ (bits : UInt64) (s : ParseState),
      Parse.operand none (.start file (literal negative digits ++ ": " ++ "f64") c m) =
          .ok (.const (.float .f64 bits)) s ∧
        (FloatFormat.binary64.classify bits.toNat).Denotes
        ((denoted negative digits).bmod (2 ^ 64)) ∧
        ((FloatFormat.binary64.classify bits.toNat).Denotes (denoted negative digits) ↔
          -2 ^ 63 ≤ denoted negative digits ∧ denoted negative digits < 2 ^ 63) := by
  obtain ⟨bits, hbits⟩ := hfloat
  have hname : words (": " ++ "f64").toList =
      [⟨.colon, ":", .none⟩, ⟨.keyword .f64, "f64", .none⟩, .eof] := by
    cbv
  have hrun := operand_literal hne hdigits negative (t := .float .f64) rfl hname file c m
  dsimp only at hrun
  rw [if_pos hint] at hrun
  obtain ⟨pos, s, hrun⟩ := hrun
  obtain ⟨s', hconst⟩ :=
    constant_float (literal negative digits) (payload negative (Decimal.value digits)) pos s
  have hbound : -2 ^ 64 < denoted negative digits ∧ denoted negative digits < 2 ^ 64 := by
    unfold denoted
    split <;> omega
  have hshort := short_word hbound.1 hbound.2 (FloatFormat.short_of_denotes hbits)
  have hword := bmod_word hbound.1 hbound.2
  have hdenotes := FloatFormat.ofInt_denotes (by rw [hword]; split_ifs <;> omega) hshort
  refine ⟨_, s', hrun.trans hconst, ?_⟩
  rw [toInt_payload]
  refine ⟨hdenotes, fun h => ?_, fun hrange => ?_⟩
  · have heq := h.unique hdenotes
    rw [hword] at heq
    split_ifs at heq <;> omega
  · rw [hword, if_neg (by omega), if_pos hrange.2] at hdenotes ⊢
    exact hdenotes

theorem float_literals_exact_negative : ∃ bits s,
    Parse.operand none (.start "" (literal true ['4', '0'] ++ ": " ++ "f64") .new ⟨0⟩) =
      .ok (.const (.float .f64 bits)) s ∧
      (FloatFormat.binary64.classify bits.toNat).Denotes (-40) := by
  have hfloat :
    (FloatFormat.binary64.classify 0xC044000000000000).Denotes (denoted true ['4', '0']) :=
    show FloatClass.Denotes _ (-40) by decide
  obtain ⟨bits, s, hrun, -, hvalue⟩ := float_literals_exact (cons_ne_nil '4' ['0'])
    (all_eq_true.mp rfl) (by cbv) ⟨_, hfloat⟩ "" .new ⟨0⟩
  exact ⟨bits, s, hrun, hvalue.mpr (by decide)⟩

end SsaIr
