import SsaIr.Proofs.Syntax.Coverage

/-!
# Where tokens stand

The place of a token is where its first byte stands in the text. Read `Position.Marks` first, then
`token_positions_exact`.
-/

namespace SsaIr

/-- The place is that of an offset of a text: its line is one more than the number of newlines
before it, and its column counts from the last of them. -/
structure Position.Marks (p : Position) (text : List Char) : Prop where
  offset_le : p.offset ≤ text.length
  line_eq : p.line = 1 + (text.take p.offset).count '\n'
  column_eq : (∃ i < p.offset,
    text[i]? = some '\n' ∧ (∀ j, i < j → j < p.offset → text[j]? ≠ some '\n') ∧
      p.column = p.offset - i) ∨
    (∀ j < p.offset, text[j]? ≠ some '\n') ∧ p.column = p.offset + 1

theorem Position.marks_advance (file : String) (bytes rest : List Char) :
    ((start file).advance bytes).Marks (bytes ++ rest) := by
  induction bytes using List.reverseRecOn generalizing rest with
  | nil => exact ⟨Nat.zero_le _, rfl, .inr ⟨fun j hj => absurd hj (Nat.not_lt_zero j), rfl⟩⟩
  | append_singleton bytes c ih =>
    obtain ⟨-, hline, hcolumn⟩ := ih (c :: rest)
    have hoffset : ((start file).advance bytes).offset = bytes.length := by
      rw [offset_advance]
      exact Nat.zero_add _
    have hlast : (bytes ++ c :: rest)[bytes.length]? = some c := by simp
    have hadvance : (start file).advance (bytes ++ [c]) = ((start file).advance bytes).step c := by
      simp [advance]
    rw [hoffset] at hline hcolumn
    rw [List.take_left] at hline
    rw [hadvance, List.append_assoc, List.singleton_append]
    unfold step
    split
    · next hc =>
      subst hc
      refine ⟨by simp [hoffset], ?_,
        .inl ⟨bytes.length, by simp [hoffset], hlast, fun j hj hj' => ?_, ?_⟩⟩
      · simp only [hoffset, hline]
        rw [List.append_cons, List.take_left' (by simp), List.count_append]
        simp [Nat.add_assoc]
      · simp only [hoffset] at hj'
        omega
      · simp only [hoffset]
        omega
    · next hc =>
      refine ⟨by simp [hoffset], ?_, ?_⟩
      · simp only [hoffset, hline]
        rw [List.append_cons, List.take_left' (by simp), List.count_append]
        simp [hc]
      · have hnot : ∀ j, (j < bytes.length → (bytes ++ c :: rest)[j]? ≠ some '\n') →
          j < bytes.length + 1 →
            (bytes ++ c :: rest)[j]? ≠ some '\n' := fun j hj hlt => by
          rcases Nat.lt_succ_iff_lt_or_eq.mp hlt with hlt | rfl
          · exact hj hlt
          · rw [hlast]
            simpa using hc
        simp only [hoffset]
        rcases hcolumn with ⟨i, hi, hat, hnone, heq⟩ | ⟨hnone, heq⟩
        · exact .inl ⟨i, by omega, hat, fun j hj => hnot j (hnone j hj), by omega⟩
        · exact .inr ⟨fun j => hnot j (hnone j), by omega⟩

/-! ## Tokens -/

theorem exists_advance (p : Position) (input : List Char) :
    ∀ t ∈ scanFrom p input, ∃ bytes rest, input = bytes ++ rest ∧ t.pos = p.advance bytes := by
  induction p, input using scan_induction with
  | @eof p gap rest b hgap hnul hend =>
    rw [scanFrom_eof hgap hnul hend, List.forall_mem_singleton]
    exact ⟨gap, rest, rfl, rfl⟩
  | @token p gap c rest hgap hnul hblank hc ih =>
    rw [scanFrom_token hgap hnul hblank hc, List.forall_mem_cons]
    refine ⟨⟨gap, c :: rest, rfl, rfl⟩, fun t ht => ?_⟩
    obtain ⟨bytes, after, hsplit, hpos⟩ := ih t ht
    refine ⟨gap ++ (c :: rest.take (lexeme c rest).more ++ bytes), after, ?_, ?_⟩
    · simp [← hsplit]
    · simp [hpos, Position.advance]

theorem le_offset_of_mem {p : Position} {input : List Char} {t : Token} (h : t ∈ scanFrom p input) :
    p.offset ≤ t.pos.offset := by
  obtain ⟨bytes, rest, -, hpos⟩ := exists_advance p input t h
  rw [hpos, Position.offset_advance]
  exact Nat.le_add_right ..

theorem scanFrom_pairwise (p : Position) (input : List Char) :
    (scanFrom p input).Pairwise fun t t' => t.pos.offset < t'.pos.offset := by
  induction p, input using scan_induction with
  | eof hgap hnul hend =>
    rw [scanFrom_eof hgap hnul hend]
    exact List.pairwise_singleton ..
  | @token p gap c rest hgap hnul hblank hc ih =>
    rw [scanFrom_token hgap hnul hblank hc]
    refine List.pairwise_cons.mpr ⟨fun t ht => ?_, ih⟩
    have hle := le_offset_of_mem ht
    rw [Position.offset_advance, List.length_cons] at hle
    show (p.advance gap).offset < _
    omega

theorem upToEnd_sublist (ts : List Token) : (upToEnd ts).Sublist ts := by
  induction ts with
  | nil => exact .slnil
  | cons t ts ih =>
    rw [upToEnd]
    split
    · exact .cons_cons t ts.nil_sublist
    · exact ih.cons_cons t

/-- Every token is at its place, which is behind that of the token before it. -/
theorem token_positions_exact (file source : String) :
    (∀ t ∈ tokenize file source, t.pos.Marks source.toList) ∧
    (tokenize file source).Pairwise fun t t' => t.pos.offset < t'.pos.offset := by
  have hsub : (tokenize file source).Sublist (scan file source) := upToEnd_sublist _
  refine ⟨fun t ht => ?_, (scanFrom_pairwise _ _).sublist hsub⟩
  obtain ⟨bytes, rest, hsplit, hpos⟩ := exists_advance _ _ t (hsub.subset ht)
  rw [hsplit, hpos]
  exact Position.marks_advance file bytes rest

/-- A string over which a tab and two comments stand, one of them with a NUL behind it. -/
theorem token_positions_exact_commented :
    ∃ t ∈ tokenize "f" "; c\n\t;\n \"a\" ;\x00", t.kind = .string ∧ t.pos = ⟨"f", 3, 2, 8⟩ ∧
      t.pos.Marks "; c\n\t;\n \"a\" ;\x00".toList := by
  have hmem : (⟨.string, "a", .none, ⟨"f", 3, 2, 8⟩⟩ : Token) ∈
      tokenize "f" "; c\n\t;\n \"a\" ;\x00" := by
    decide +kernel
  exact ⟨_, hmem, rfl, rfl, (token_positions_exact "f" _).1 _ hmem⟩

end SsaIr
