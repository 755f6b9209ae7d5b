import SsaIr.Proofs.Promote.Preserved

/-!
# The verdict on definitions and uses is exact

Of what the verifier checks, everything but definitions before uses is the shape of a function:
`Context.WellShaped`. For functions of that shape the verifier accepts exactly those in which every
path from the entry executes a definition before its uses, `Context.DefinedOnPaths`. Read these two
first, then `verifyFunction_exact_on_paths`.
-/

namespace SsaIr

open FlowAnalysis List

/-! ## The shape of a function -/

namespace Site

variable (s : Site)

/-- Incoming pairs are values of the type of the phi from distinct blocks. -/
structure PhiShaped (x : Instruction) : Prop where
  even : x.operands.size % 2 = 0
  nonempty : x.incoming ≠ []
  types : ∀ p ∈ x.incoming, s.context.typeOf? p.1 = some x.type
  sources : ∃ bs : List BlockId, x.incoming.map Prod.snd = (bs.map fun b => some (.block b)) ∧
    bs.Nodup

/-- What an operation asks of its operands and result, apart from where they are defined. -/
def OperationShaped (x : Instruction) : Prop :=
  if x.op = .phi then s.PhiShaped x else s.OperationWell x

end Site

namespace Verify

/-- The instruction at a place of its block has live operands of the right types and stands where
instructions of its kind may. -/
structure InstructionShaped (s : Site) (l : List InstId) (k : Nat) (i : InstId) : Prop where
  parent : (s.context.inst i).parent = some s.block
  leading : (s.context.inst i).isPhi = true → ∀ j ∈ l.take k, (s.context.inst j).isPhi = true
  last : (s.context.inst i).isTerminator = true → k + 1 = l.length
  live : ∀ v ∈ (s.context.inst i).operands, ∃ w, v = some w ∧ s.Live w
  operation : s.OperationShaped (s.context.inst i)

/-- A block belongs to the function, ends with its only terminator, and its instructions have their
shape; the entry block has no predecessors. -/
structure BlockShaped (s : Site) : Prop where
  parent : (s.context.block s.block).parent = s.func
  linked : (s.context.block s.block).linked = true
  nonempty : (s.context.block s.block).insts.isEmpty = false
  terminated : (s.context.terminator s.block).isSome = true
  entry : s.context.entry s.func = some s.block → s.analysis.predecessors (some s.block) = []
  instructions : ∀ k i, (s.context.block s.block).insts.toList[k]? = some i →
    InstructionShaped s (s.context.block s.block).insts.toList k i

end Verify

namespace Context

open Verify

/-- The function passes all checks of the verifier but those on definitions and uses. -/
structure WellShaped (c : Context) (f : FuncId) : Prop where
  head : ∃ sig, c.HeadWell f sig
  body : (c.func f).blocks.isEmpty = false → ∃ a, FlowAnalysis.ofFunction c f = .ok a ∧
    ∀ b ∈ (c.func f).blocks, BlockShaped ⟨c, f, a, b⟩

/-! ## Paths that execute instructions -/

/-- The instructions of the blocks of a path, in the order in which they are executed. -/
def executed (c : Context) (p : List BlockId) : List InstId :=
  p.flatMap fun b => (c.block b).insts.toList

/-- Definitions are executed before their uses. A path to an instruction executes the blocks it
passes and then the instructions before this one in its block. -/
structure DefinedOnPaths (c : Context) (f : FuncId) : Prop where
  uses : ∀ {entry b u d pre post}, c.entry f = some entry → b ∈ (c.func f).blocks →
    (c.block b).insts.toList = pre ++ u :: post → (c.inst u).op ≠ .phi →
    some (.inst d) ∈ (c.inst u).operands →
      ∀ p, FlowPath (c.Passes f) entry b p → d ∈ c.executed p.dropLast ++ pre
  incoming : ∀ {entry b i d t}, c.entry f = some entry → b ∈ (c.func f).blocks →
    i ∈ (c.block b).insts → (c.inst i).op = .phi →
    (some (.inst d), some (.block t)) ∈ (c.inst i).incoming →
      ∀ p, FlowPath (c.Passes f) entry t p → d ∈ c.executed p
  sources : ∀ {b i}, b ∈ (c.func f).blocks → i ∈ (c.block b).insts → (c.inst i).op = .phi →
    ∀ t, (∃ v, (v, some (.block t)) ∈ (c.inst i).incoming) ↔ c.Passes f t b

theorem mem_executed {c : Context} {p : List BlockId} {d : InstId} :
    d ∈ c.executed p ↔ ∃ b ∈ p, d ∈ (c.block b).insts := by
  simp [executed]

end Context

section Paths

variable {α : Type} {edge : α → α → Prop} {u w x : α} {p : List α}

theorem FlowPath.dropLast_append (h : FlowPath edge u w p) : p.dropLast ++ [w] = p := by
  induction h with
  | refl v => rfl
  | @step u v w p _ hp ih =>
    have hne : p ≠ [] := ne_nil_of_mem hp.target_mem
    rw [dropLast_cons_of_ne_nil hne, cons_append, ih]

theorem FlowPath.mem_dropLast (h : FlowPath edge u w p) (hx : x ∈ p) (hne : x ≠ w) :
    x ∈ p.dropLast := by
  rw [← h.dropLast_append] at hx
  rcases mem_append.mp hx with hx | hx
  · exact hx
  · exact absurd (mem_singleton.mp hx) hne

theorem FlowPath.first (h : FlowPath edge u w p) : ∃ q, FlowPath edge u w q ∧ w ∉ q.dropLast := by
  induction h with
  | refl v => exact ⟨[v], .refl v, by simp⟩
  | @step u v w p he hp ih =>
    by_cases huw : u = w
    · subst huw
      exact ⟨[u], .refl u, by simp⟩
    · obtain ⟨q, hq, hnot⟩ := ih
      refine ⟨u :: q, .step he hq, ?_⟩
      rw [dropLast_cons_of_ne_nil (ne_nil_of_mem hq.target_mem)]
      exact fun hmem => (mem_cons.mp hmem).elim (fun h => huw h.symm) hnot

end Paths

/-! ## From the verdict to paths and back -/

namespace Verify

variable {c : Context} {f : FuncId} {a : FlowAnalysis} {b : BlockId}

theorem BlockWell.shaped {s : Site} (h : BlockWell s) : BlockShaped s where
  parent := h.parent
  linked := h.linked
  nonempty := h.nonempty
  terminated := h.terminated
  entry := h.entry
  instructions k i hk := by
    have hi := h.instructions k i hk
    refine ⟨hi.parent, fun hphi => (hi.leading hphi).2, hi.last, hi.well.live, ?_⟩
    have hop := hi.well.operation
    unfold Site.OperationShaped
    split
    · rename_i hphi
      rw [Site.OperationWell, hphi] at hop
      obtain ⟨bs, hin, _⟩ := hop.incoming
      exact ⟨hop.even, hop.nonempty, hin.types, bs, hin.sources, hin.nodup⟩
    · exact hop

end Verify

theorem Context.WellFormed.shaped {c : Context} {f : FuncId} (h : c.WellFormed f) :
    c.WellShaped f where
  head := h.head
  body hblocks := by
    obtain ⟨a, ha, hwell⟩ := h.body hblocks
    exact ⟨a, ha, fun b hb => (hwell b hb).shaped⟩

theorem Context.Checked.definedOnPaths {c : Context} {f : FuncId} {a : FlowAnalysis}
    (h : c.Checked f a) : c.DefinedOnPaths f where
  uses {entry b u d pre post} hentry hb hsplit hop hd p hp := by
    rcases h.ssa.uses hentry ⟨p, hp⟩ hsplit hop hd with hpre | ⟨t, hne, ht, hdom⟩
    · exact mem_append_right _ hpre
    · exact mem_append_left _ (mem_executed.mpr ⟨t, hp.mem_dropLast (hdom p hp) hne, ht⟩)
  incoming {entry b i d t} hentry hb hi hop hin p hp := by
    obtain ⟨home, hhome, hdom⟩ := h.ssa.incoming hentry hb hi hop hin ⟨p, hp⟩
    exact mem_executed.mpr ⟨home, hdom p hp, hhome⟩
  sources {b i} hb hi hop t := by
    obtain ⟨sources, hmap, _, hmem⟩ := h.filledFrom hb hi hop
    rw [← hmem t]
    have hiff : some (.block t) ∈ (c.inst i).incoming.map Prod.snd ↔ t ∈ sources := by
      rw [hmap]
      simp
    rw [← hiff]
    constructor
    · rintro ⟨v, hv⟩
      exact mem_map.mpr ⟨_, hv, rfl⟩
    · intro ht
      obtain ⟨⟨v, _⟩, hv, rfl⟩ := mem_map.mp ht
      exact ⟨v, hv⟩

theorem Context.Placed.mem_of_linked {c : Context} {f : FuncId} {b : BlockId} (h : c.Placed)
    (hfunc : (c.block b).parent = f) (hlinked : (c.block b).linked = true) :
    b ∈ (c.func f).blocks :=
  hfunc ▸ h.block_mem hlinked

namespace Context.DefinedOnPaths

variable {c : Context} {f : FuncId} {a : FlowAnalysis} {entry b t : BlockId} {d i u : InstId}

variable (h : c.DefinedOnPaths f)
include h

section

variable (hplaced : c.Placed) (ha : ofFunction c f = .ok a) (hentry : c.entry f = some entry)
  (hb : b ∈ (c.func f).blocks)
include hplaced ha hentry hb

/-- An operand that every path executes before its use stands before the use in its block, or in
another block that dominates this one. -/
theorem defined (ht : t ∈ (c.func f).blocks) (hd : (c.inst d).parent = some t)
    (hr : Reached (c.Passes f) entry b) {pre post : List InstId}
    (hsplit : (c.block b).insts.toList = pre ++ u :: post) (hop : (c.inst u).op ≠ .phi)
    (hmem : some (.inst d) ∈ (c.inst u).operands) : Site.Defined ⟨c, f, a, b⟩ pre.length d := by
  rw [Site.defined_iff hplaced.toStanding hd]
  have huses := h.uses hentry hb hsplit hop hmem
  -- Outside of its own block the operand is not executed.
  have hhome : ∀ {p}, d ∈ c.executed p → t ∈ p := by
    intro p hp
    obtain ⟨t', ht', hd'⟩ := mem_executed.mp hp
    cases hd.symm.trans (hplaced.mem_parent hd')
    exact ht'
  by_cases htb : t = b
  · subst htb
    obtain ⟨p, hp⟩ := hr
    obtain ⟨q, hq, hfirst⟩ := hp.first
    refine .inl ⟨rfl, ?_⟩
    have hpre : d ∈ pre := (mem_append.mp (huses q hq)).resolve_left fun hex => hfirst (hhome hex)
    show d ∈ (c.block t).insts.toList.take pre.length
    rwa [hsplit, take_left]
  · refine .inr ⟨htb, ?_⟩
    have hdom : Dominance (c.Passes f) entry t b := by
      intro p hp
      rcases mem_append.mp (huses p hp) with hex | hpre
      · exact mem_of_mem_dropLast (hhome hex)
      · have hin : d ∈ (c.block b).insts := by
          rw [← Array.mem_toList_iff, hsplit]
          exact mem_append_left _ hpre
        exact absurd (Option.some.inj (hd.symm.trans (hplaced.mem_parent hin))) htb
    exact (dominatesBlock_iff ha hentry ht hb).mpr (.inr ⟨hr, hdom⟩)

theorem available (hi : i ∈ (c.block b).insts) (hop : (c.inst i).op = .phi)
    (hlive : ∀ v ∈ (c.inst i).operands, ∃ w, v = some w ∧ Site.Live ⟨c, f, a, b⟩ w) :
    ∀ p ∈ (c.inst i).incoming, ∀ t, p.2 = some (.block t) → Site.Available ⟨c, f, a, b⟩ p.1 t := by
  rintro ⟨_, _⟩ hp t rfl d rfl home hd hreach
  obtain ⟨hvalue, hsource⟩ := Site.mem_of_mem_pairs hp
  obtain ⟨_, hw, hlived⟩ := hlive _ ⟨hvalue⟩
  obtain ⟨_, hw', hlivet⟩ := hlive _ ⟨hsource⟩
  cases hw
  cases hw'
  obtain ⟨_, hd', hfunc, hlinked⟩ := hlived
  cases hd.symm.trans hd'
  have hhome : home ∈ (c.func f).blocks := hplaced.mem_of_linked hfunc hlinked
  have ht : t ∈ (c.func f).blocks := hplaced.mem_of_linked hlivet.1 hlivet.2
  have hr : Reached (c.Passes f) entry t := (reachable_iff ha hentry ht).mp hreach
  refine (dominatesBlock_iff ha hentry hhome ht).mpr (.inr ⟨hr, fun p hpath => ?_⟩)
  obtain ⟨home', hmem, hin⟩ := mem_executed.mp (h.incoming hentry hb hi hop hp p hpath)
  cases hd.symm.trans (hplaced.mem_parent hin)
  exact hmem

theorem phiWell (hi : i ∈ (c.block b).insts) (hop : (c.inst i).op = .phi)
    (hlive : ∀ v ∈ (c.inst i).operands, ∃ w, v = some w ∧ Site.Live ⟨c, f, a, b⟩ w)
    (hshape : Site.PhiShaped ⟨c, f, a, b⟩ (c.inst i)) : Site.PhiWell ⟨c, f, a, b⟩ (c.inst i) := by
  obtain ⟨bs, hsources, hnodup⟩ := hshape.sources
  refine ⟨hshape.even, hshape.nonempty, bs, ⟨hsources, hnodup, hshape.types,
    h.available hplaced ha hentry hb hi hop hlive⟩, fun t => ?_⟩
  have hmem : t ∈ bs ↔ ∃ v, (v, some (.block t)) ∈ (c.inst i).incoming := by
    have hmap : some (.block t) ∈ (c.inst i).incoming.map Prod.snd ↔ t ∈ bs := by simp [hsources]
    rw [← hmap]
    simp
  rw [hmem, h.sources hb hi hop t]
  exact (mem_predecessors_iff ha hb).symm

theorem blockWell (hshape : Verify.BlockShaped ⟨c, f, a, b⟩) :
    Verify.BlockWell ⟨c, f, a, b⟩ := by
  refine ⟨hshape.parent, hshape.linked, hshape.nonempty, hshape.terminated, hshape.entry, ?_⟩
  intro k u hk
  have hu := hshape.instructions k u hk
  have hmem : u ∈ (c.block b).insts := Array.mem_toList_iff.mp (mem_of_getElem? hk)
  refine ⟨hu.parent, fun hphi => ⟨rfl, hu.leading hphi⟩, hu.last, hu.live, ?_, ?_⟩
  · intro hphi hreach d hd
    have hop : (c.inst u).op ≠ .phi := by
      rwa [Ne, ← Instruction.isPhi_iff, Bool.not_eq_true]
    obtain ⟨_, hw, hlive⟩ := hu.live _ hd
    cases hw
    obtain ⟨t, hparent, hfunc, hlinked⟩ := hlive
    obtain ⟨hlt, hget⟩ := List.getElem?_eq_some_iff.mp hk
    have hsplit : (c.block b).insts.toList = (c.block b).insts.toList.take k ++
        u :: (c.block b).insts.toList.drop (k + 1) := by
      conv_lhs => rw [← take_append_drop k (c.block b).insts.toList,
        drop_eq_getElem_cons hlt, hget]
    have hdefined := h.defined hplaced ha hentry hb (hplaced.mem_of_linked hfunc hlinked) hparent
      ((reachable_iff ha hentry hb).mp hreach) hsplit hop hd
    rwa [length_take_of_le hlt.le, ← Nat.zero_add k] at hdefined
  · have hop := hu.operation
    unfold Site.OperationShaped at hop
    split at hop
    · rename_i hphi
      rw [Site.OperationWell, hphi]
      exact h.phiWell hplaced ha hentry hb hmem hphi hu.live hop
    · exact hop

end

end Context.DefinedOnPaths

/-- The verifier accepts exactly the functions that have their shape and in which every path
executes definitions before their uses. -/
theorem verifyFunction_exact_on_paths {c : Context} {f : FuncId} (hs : c.Sound) :
    (verifyFunction c f).1 = .ok () ↔ c.WellShaped f ∧ c.DefinedOnPaths f := by
  rw [verifyFunction_iff]
  constructor
  · intro hwell
    refine ⟨hwell.shaped, ?_⟩
    cases hblocks : (c.func f).blocks.isEmpty with
    | true =>
      have hnone : ∀ b, b ∉ (c.func f).blocks := fun b hb =>
        Array.ne_empty_of_mem hb (Array.isEmpty_iff.mp hblocks)
      exact ⟨fun _ hb => absurd hb (hnone _), fun _ hb => absurd hb (hnone _),
        fun hb => absurd hb (hnone _)⟩
    | false =>
      obtain ⟨a, ha, hbody⟩ := hwell.body hblocks
      exact (hs.checked ha hbody).definedOnPaths
  · rintro ⟨hshape, hpaths⟩
    refine ⟨hshape.head, fun hblocks => ?_⟩
    obtain ⟨a, ha, hbody⟩ := hshape.body hblocks
    obtain ⟨entry, hentry⟩ := (FlowAnalysis.ofFunction_spec ha).1.entry_exists
    exact ⟨a, ha, fun b hb => hpaths.blockWell hs.toPlaced ha hentry hb (hbody b hb)⟩

def counting : Context :=
  (Workshop.run ([.newModule "m", .newFunction ⟨0⟩ "f" (some (.int .w32)) true,
      .addArgument ⟨0⟩ (some (.int .w32)) "n", .finalizeSignature ⟨0⟩ false,
      .constInt (some (.int .w32)) 0, .constInt (some (.int .w32)) 1] ++
    ["entry", "loop", "exit"].map (.newBlock ⟨0⟩ · true) ++ Edit.fill ⟨0⟩ [.br (some ⟨1⟩)] ++
    Edit.fill ⟨1⟩ [.phi (some (.int .w32)) "i",
      .binary (.int .add) (some (.inst ⟨1⟩)) (some (.const (.ofInt .w32 1))) "next",
      .icmp (.int .slt) (some (.inst ⟨2⟩)) (some (.arg ⟨0⟩)) "more",
      .condBr (some (.inst ⟨3⟩)) (some ⟨1⟩) (some ⟨2⟩)] ++
    Edit.fill ⟨2⟩ [.ret (some (.inst ⟨2⟩))] ++
    [.addIncoming ⟨1⟩ (some (.const (.ofInt .w32 0))) (some ⟨0⟩),
      .addIncoming ⟨1⟩ (some (.inst ⟨2⟩)) (some ⟨1⟩)])).context

/-- The loop is accepted, though its phi takes what the loop computes later. -/
theorem verifyFunction_exact_on_paths_counting : counting.Sound ∧
    counting.WellShaped ⟨0⟩ ∧ counting.DefinedOnPaths ⟨0⟩ := by
  have hs : counting.Sound := Workshop.sound_run (by decide +kernel)
  have hv : (verifyFunction counting ⟨0⟩).1.toOption = some () := by decide +kernel
  exact ⟨hs, (verifyFunction_exact_on_paths hs).mp (Except.eq_ok_of_toOption hv)⟩

end SsaIr
