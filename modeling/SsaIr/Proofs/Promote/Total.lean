import SsaIr.Proofs.Parse.Resolved
import SsaIr.Proofs.Promote.Preserved
import SsaIr.Proofs.Promote.Success
import SsaIr.Proofs.Verify.Module

/-!
# Promotion of verified modules

Promotion of a function of a verified module is never refused, provided that dead code does not
store what it loads from a cell later. It gives a verified function, or leaves the program as it
was. What is read from a source needs no further condition; `promoteFunction_of_early_store` shows
that the one on dead code is needed.
-/

namespace SsaIr

namespace Promote

/-- Promotion of a function of a verified module succeeds if its dead code loads first: the program
stays as it is, or the function is verified afterwards and what promotion retired is gone. -/
theorem promoteFunction_total {c : Context} {m : ModuleId} {f : FuncId} (hs : c.Sound)
    (he : Enclosed c f) (hv : (verifyModule c m).1 = .ok ()) (hf : f ∈ (c.module m).functions)
    (hloads : ∀ {a}, FlowAnalysis.ofFunction c f = .ok a → LoadsFirst c a) :
    promoteFunction c f = (.ok false, c) ∨
      ∃ a d, promoteFunction c f = (.ok true, d) ∧ Promoted c a d ∧
        (verifyFunction d f).1 = .ok () := by
  have hw := ((verifyModule_iff.mp hv).functions f hf).2
  rcases promoteFunction_cases hs hw with hsame | ⟨a, h, _⟩
  · exact .inl hsame
  · rcases h.promoteFunction_succeeds he (hloads h.analysis) with hsame | ⟨d, hd, hpromoted⟩
    · exact .inl hsame
    · exact .inr ⟨a, d, hd, hpromoted, verifyFunction_iff.mpr (hpromoted.wellFormed h hw)⟩

end Promote

theorem Context.Orderly.enclosed {c : Context} (h : c.Orderly) (f : FuncId) :
    Promote.Enclosed c f where
  readers {i j b} hread hi hb := by
    obtain ⟨b', hj⟩ := h.toPlaced.exists_parent hread
    obtain ⟨-, b₀, hparent, -, hsame⟩ := h.owned hj hread
    cases (h.mem_parent hi).symm.trans hparent
    refine ⟨b', ?_, h.inst_mem hj⟩
    have hmem := h.block_mem_of_inst hj
    rwa [← hsame, (h.mem_block hb).1] at hmem
  results {i j} hread := by
    obtain ⟨b, hj⟩ := h.toPlaced.exists_parent hread
    exact (h.owned hj hread).1

/-- Promotion of a function that was read from an accepted source and whose module is verified is
not refused, if its dead code loads first: it leaves the program as it is, or everything that it
retires is gone and the function is verified. -/
theorem promoteFunction_not_refused {file text : String} {c d : Context} {m : ModuleId} {f : FuncId}
    (hc : c.Orderly) (h : parseModule file text c = (.ok m, d)) (hv : (verifyModule d m).1 = .ok ())
    (hf : f ∈ (d.module m).functions)
    (hloads : ∀ {a}, FlowAnalysis.ofFunction d f = .ok a → Promote.LoadsFirst d a) :
    promoteFunction d f = (.ok false, d) ∨
      ∃ a e, promoteFunction d f = (.ok true, e) ∧ Promote.Promoted d a e ∧
        (verifyFunction e f).1 = .ok () := by
  have horderly := (resolved_of_parseModule hc h).orderly
  exact Promote.promoteFunction_total horderly.sound (horderly.enclosed f) hv hf hloads

/-- The context after a source is read in which control does not reach a block with the given
instructions. -/
def deadBlockRead (body : String) : Except ParseError ModuleId × Context :=
  parseModule "dead" ("define i32 @f() \x7b\n" ++
    "$entry:\n  %p: <i32> = alloca i32\n  store 1: i32, %p: <i32>\n  ret 0: i32\n" ++
    "$dead:\n" ++ body ++ "  ret %l: i32\n" ++
    "\x7d\n") Context.new

/-- Dead code that stores what it loaded is promoted. -/
theorem promoteFunction_not_refused_late_store : ∃ d e,
    deadBlockRead "  %l: i32 = load %p: <i32>\n  store %l: i32, %p: <i32>\n" = (.ok ⟨0⟩, d) ∧
      promoteFunction d ⟨0⟩ = (.ok true, e) ∧ (verifyFunction e ⟨0⟩).1 = .ok () := by
  generalize hr : deadBlockRead "  %l: i32 = load %p: <i32>\n  store %l: i32, %p: <i32>\n" = r
  have hfacts : r.1.toOption = some ⟨0⟩ ∧ (verifyModule r.2 ⟨0⟩).1.toOption = some () ∧
      ⟨0⟩ ∈ (r.2.module ⟨0⟩).functions ∧ (promoteFunction r.2 ⟨0⟩).1.toOption = some true ∧
      (∀ a ∈ (FlowAnalysis.ofFunction r.2 ⟨0⟩).toOption,
        (Promote.deadCode r.2 a).Pairwise fun i l => ¬ Promote.StoresLoad r.2 a i l) := by
    subst hr
    decide +kernel
  obtain ⟨hread, hv, hf, hp, hpairs⟩ := hfacts
  have hok : r = (.ok ⟨0⟩, r.2) := Prod.ext (Except.eq_ok_of_toOption hread) rfl
  rcases promoteFunction_not_refused Context.orderly_new (hr.trans hok)
    (Except.eq_ok_of_toOption hv) hf
    (fun ha => Promote.loadsFirst_of_pairwise (hpairs _ (by rw [ha]; rfl)))
      with hsame | ⟨_, e, he, -, hve⟩
  · rw [hsame] at hp
    cases hp
  · exact ⟨r.2, e, hok, he, hve⟩

theorem promoteFunction_of_early_store : ∃ d,
    deadBlockRead "  store %l: i32, %p: <i32>\n  %l: i32 = load %p: <i32>\n" = (.ok ⟨0⟩, d) ∧
      (verifyModule d ⟨0⟩).1 = .ok () ∧ (promoteFunction d ⟨0⟩).1.toOption = none := by
  generalize hr : deadBlockRead "  store %l: i32, %p: <i32>\n  %l: i32 = load %p: <i32>\n" = r
  have hfacts : r.1.toOption = some ⟨0⟩ ∧ (verifyModule r.2 ⟨0⟩).1.toOption = some () ∧
      (promoteFunction r.2 ⟨0⟩).1.toOption = none := by
    subst hr
    decide +kernel
  obtain ⟨hread, hv, hp⟩ := hfacts
  exact ⟨r.2, Prod.ext (Except.eq_ok_of_toOption hread) rfl, Except.eq_ok_of_toOption hv, hp⟩

end SsaIr
