import SsaIr.Proofs.Parse.Totality
import SsaIr.Proofs.Syntax.Words

/-!
# No input is ignored

The tokens of a text without NUL, with the blanks and comments between them, make up the whole text.
A NUL is taken for the end of the text, so nothing is said of what follows one. Read `Tiles` first,
then `no_input_ignored`: the end is found behind the last byte, and a text that is read into a
module is legal to its end.
-/

namespace SsaIr

open EStateM

variable {input : List Char}

/-- The tokens make up the text from a place on: each stands behind blanks and comments, at the
place where its lexeme starts, and the next gap starts where the lexeme stops. The last one is the
end of the text. -/
inductive Tiles : Position → List Char → List Token → Prop
  | eof {p : Position} {gap : List Char} {b : Bool} {t : Token} (hgap : Skips false gap b)
    (hkind : t.kind = .eof)
      (hpos : t.pos = p.advance gap) : Tiles p gap [t]
  | token {p : Position} {gap rest : List Char} {c : Char} {t : Token} {ts : List Token}
      (hgap : Skips false gap false) (hword : t.word = (lexeme c rest).toWord)
        (hpos : t.pos = p.advance gap)
      (h : Tiles (t.pos.advance (c :: rest.take (lexeme c rest).more))
        (rest.drop (lexeme c rest).more) ts) :
      Tiles p (gap ++ c :: rest) (t :: ts)

/-! ## Scanning -/

theorem Position.offset_advance (p : Position) (bytes : List Char) :
    (p.advance bytes).offset = p.offset + bytes.length := by
  induction bytes generalizing p with
  | nil => rfl
  | cons c bytes ih =>
    have hstep : (p.step c).offset = p.offset + 1 := by
      unfold step
      split <;> rfl
    exact (ih _).trans (by rw [hstep, List.length_cons]; omega)

theorem tiles_scanFrom (p : Position) (hnul : '\x00' ∉ input) :
    Tiles p input (scanFrom p input) := by
  induction p, input using scan_induction with
  | @eof p gap rest b hgap hfree hend =>
    rw [scanFrom_eof hgap hfree hend]
    obtain rfl : rest = [] := by
      cases rest with
      | nil => rfl
      | cons c rest => exact absurd (List.mem_append_right gap (hend ▸ .head _)) hnul
    rw [List.append_nil]
    exact .eof hgap rfl rfl
  | token hgap hfree hblank hc ih =>
    rw [scanFrom_token hgap hfree hblank hc]
    exact .token hgap rfl rfl
      (ih fun h => hnul (List.mem_append_right _ (.tail _ (List.mem_of_mem_drop h))))

theorem Tiles.exists_last {p : Position} {ts : List Token} (h : Tiles p input ts) :
    ∃ t, ts.getLast? = some t ∧ t.pos.offset = p.offset + input.length := by
  induction h with
  | @eof p gap b t hgap hkind hpos => exact ⟨t, rfl, by rw [hpos, Position.offset_advance]⟩
  | token hgap hword hpos h ih =>
    obtain ⟨t, hlast, hoffset⟩ := ih
    refine ⟨t, by rw [List.getLast?_cons, hlast]; rfl, ?_⟩
    rw [hoffset, Position.offset_advance, hpos, Position.offset_advance]
    simp only [List.length_append, List.length_cons, List.length_take, List.length_drop]
    omega

/-! ## The end of the text -/

theorem upToEnd_cons (t : Token) (ts : List Token) :
    upToEnd (t :: ts) = if isEnd t.kind then [t] else t :: upToEnd ts := by
  rw [upToEnd]
  cases t.kind <;> rfl

theorem getLast?_upToEnd {ts : List Token} {stop : TokenKind} (h : firstEnd ts = some stop) :
    (upToEnd ts).getLast?.map Token.kind = some stop := by
  induction ts with
  | nil => cases h
  | cons t ts ih =>
    rw [firstEnd_cons] at h
    rw [upToEnd_cons]
    split at h
    · next hend => rwa [if_pos hend]
    · next hgo =>
        have hlast := ih h
        rw [if_neg hgo, List.getLast?_cons]
        cases hts : (upToEnd ts).getLast? <;> simp_all

theorem upToEnd_scanFrom {p : Position} (h : firstEnd (scanFrom p input) = some .eof) :
    upToEnd (scanFrom p input) = scanFrom p input := by
  fun_induction scanFrom p input with
  | case1 => rfl
  | case2 => rfl
  | case3 p input start c rest _ _ l ih =>
    rw [firstEnd_cons] at h
    rw [upToEnd_cons]
    split at h
    · exact absurd (Option.some.inj h) (lexeme_spelled c rest).ne_eof
    · next hgo => rw [if_neg hgo, ih h]

namespace Parse

variable {s t : ParseState} {u : Unit}

theorem definitions_at_end {n : Nat} (h : definitions n s = .ok u t) :
    t.stream.current.kind = .eof := by
  induction n generalizing s with
  | zero => simp [definitions] at h
  | succ n ih =>
    rw [definitions, current_bind] at h
    generalize hkind : s.stream.current.kind = kind at h
    split at h
    · obtain ⟨-, rfl⟩ := pure_eq_ok_iff.mp h
      exact hkind
    all_goals
      obtain ⟨_, _, -, h⟩ := bind_eq_ok_iff.mp h
      exact ih h

theorem source_at_end (h : source s = .ok u t) : t.stream.current.kind = .eof := by
  rw [source, budget_bind] at h
  obtain ⟨_, s', hdefs, h⟩ := bind_eq_ok_iff.mp h
  rw [get_bind_apply] at h
  cases hmissing : s'.forward.toList.find? fun p => !(s'.context.func p.2).linked with
  | some p => simp [hmissing] at h
  | none =>
    rw [hmissing] at h
    obtain ⟨-, rfl⟩ := pure_eq_ok_iff.mp h
    exact definitions_at_end hdefs

end Parse

theorem firstEnd_of_parseModule {file text : String} {c d : Context} {m : ModuleId}
    (h : parseModule file text c = (.ok m, d)) : firstEnd (scan file text) = some .eof := by
  obtain ⟨stop, hstop⟩ := exists_firstEnd_scanFrom (.start file) text.toList
  have hread := (inferInstance : Parse.Within _ Parse.source).run
    (ParseState.underway_start hstop (c.pushModule file) ⟨c.modules.size⟩) (Nat.lt_succ_self _)
  rw [parseModule_eq] at h
  cases hrun : Parse.source (.start file text (c.pushModule file) ⟨c.modules.size⟩) with
  | error e s =>
    rw [hrun] at h
    cases h
  | ok u s =>
    rw [hrun] at hread
    cases hread with
    | ok hs _ =>
      have hends := hs.ends
      rw [firstEnd_cons, Parse.source_at_end hrun] at hends
      exact hstop.trans hends.symm

/-- The end of a text without NUL is found behind its last byte. So all bytes of a text that is read
into a module belong to a token, to blanks or to a comment. -/
theorem no_input_ignored (file source : String) (hnul : '\x00' ∉ source.toList) :
    (∀ t, (tokenize file source).getLast? = some t → t.kind = .eof → t.pos.offset = source.length) ∧
    ∀ c m d, parseModule file source c = (.ok m, d) →
    Tiles (.start file) source.toList (tokenize file source) := by
  have hall (hlegal : firstEnd (scan file source) = some .eof) :
      Tiles (.start file) source.toList (tokenize file source) := by
    rw [tokenize, scan, upToEnd_scanFrom hlegal]
    exact tiles_scanFrom _ hnul
  refine ⟨fun t hlast hkind => ?_, fun c m d h => hall (firstEnd_of_parseModule h)⟩
  obtain ⟨stop, hstop⟩ : ∃ stop, firstEnd (scan file source) = some stop :=
    exists_firstEnd_scanFrom _ _
  have hend := getLast?_upToEnd hstop
  rw [← tokenize, hlast, Option.map_some, hkind] at hend
  obtain ⟨t', hlast', hoffset⟩ := (hall (hstop.trans hend.symm)).exists_last
  cases hlast.symm.trans hlast'
  rw [hoffset, String.length_toList]
  exact Nat.zero_add _

/-- A header with a comment behind it. -/
theorem no_input_ignored_commented :
    '\x00' ∉ "module = \"m\" ; all".toList ∧
    (parseModule "f" "module = \"m\" ; all" .new).1 = .ok ⟨0⟩ ∧
    Tiles (.start "f") "module = \"m\" ; all".toList (tokenize "f" "module = \"m\" ; all") := by
  have hnul : '\x00' ∉ "module = \"m\" ; all".toList := by decide
  have hparse : (parseModule "f" "module = \"m\" ; all" .new).1 = .ok ⟨0⟩ := by cbv
  exact ⟨hnul, hparse, (no_input_ignored "f" _ hnul).2 _ _ _ (Prod.ext hparse rfl)⟩

end SsaIr
