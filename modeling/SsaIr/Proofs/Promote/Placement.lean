import SsaIr.Promote
import SsaIr.Proofs.Graph.Placed

/-!
# Placing phis

Placement adds empty phis one after the other. `Promote.addPhis` is the program after some were
added, and `placePhis_eq` says that placement succeeds and adds the phis of `Promote.phisOf`. The
rest reads off that program: instructions, blocks and names.
-/

namespace SsaIr

open EStateM List

namespace Promote

variable {c : Context}

structure NewPhi where
  cell : Nat
  block : BlockId
  name : String
  type : Ty

def addPhi (c : Context) (p : NewPhi) : Context := c.emitted p.block .phi p.name p.type []

def addPhis (c : Context) (ps : List NewPhi) : Context := ps.foldl addPhi c

/-- The identities of new phis, counted from the first one, with their cells. -/
def phiIds (start : Nat) : List NewPhi → List (InstId × Nat)
  | [] => []
  | p :: ps => (⟨start⟩, p.cell) :: phiIds (start + 1) ps

def phisIn (c : Context) (index : Nat) (t : Ty) (base : String) :
    List String → List BlockId → List NewPhi
  | _, [] => []
  | names, b :: rest =>
    let name := freshName names s!"{base}.{(c.block b).name}" (names.length + 1) 0
    { cell := index, block := b, name, type := t } :: phisIn c index t base (name :: names) rest

def namesWith (names : List String) (ps : List NewPhi) : List String :=
  (ps.map (·.name)).reverse ++ names

def frontierOf (a : FlowAnalysis) (x : Cell) : List BlockId :=
  a.flow.blocksAt (a.iteratedFrontier (x.stores.map some)).toList

/-- The phis that cells get, the first of which has the given number. -/
def phisOf (c : Context) (a : FlowAnalysis) (index : Nat) (names : List String) :
    List Cell → List NewPhi
  | [] => []
  | x :: rest =>
    let ps := phisIn c index x.type (c.inst x.alloca).name names (frontierOf a x)
    ps ++ phisOf c a (index + 1) (namesWith names ps) rest

theorem build_of_ok {α : Type} {x : Build α} {s : PromoteState} {a : α}
    (h : x s.context = .ok a c) : build x s = .ok a { s with context := c } := by
  simp only [build, h]

theorem build_of_error {α : Type} {x : Build α} {s : PromoteState} {e : ContractError}
    (h : x s.context = .error e c) : build x s = .error (.contract e) { s with context := c } := by
  simp only [build, h]

def candidate (base : String) (i : Nat) : String := if i = 0 then base else s!"{base}.{i}"

theorem freshName_succ (names : List String) (base : String) (n i : Nat) :
    freshName names base (n + 1) i =
      if names.contains (candidate base i) then freshName names base n (i + 1)
      else candidate base i :=
  rfl

theorem dotted_ne_empty (base label : String) : s!"{base}.{label}" ≠ "" := by
  intro hempty
  have hlen := congrArg String.length hempty
  simp [String.length_append, toString] at hlen

theorem candidate_ne_empty {base : String} (hbase : base ≠ "") (i : Nat) :
    candidate base i ≠ "" := by
  unfold candidate
  split
  · exact hbase
  · exact dotted_ne_empty base (toString i)

theorem freshName_ne_empty (names : List String) {base : String} (hbase : base ≠ "") (n i : Nat) :
    freshName names base n i ≠ "" := by
  induction n generalizing i with
  | zero => exact hbase
  | succ n ih =>
    rw [freshName_succ]
    split
    · exact ih (i + 1)
    · exact candidate_ne_empty hbase i

theorem candidate_injective (base : String) : Function.Injective (candidate base) := by
  intro i j h
  have hlen := congrArg String.length h
  have hdot : ".".length = 1 := by decide
  unfold candidate at h hlen
  split at h <;> split at h <;> rename_i hi hj
  · omega
  · simp [hi, hj, String.length_append, toString, hdot] at hlen
    omega
  · simp [hi, hj, String.length_append, toString, hdot] at hlen
    omega
  · simp only [toString, String.append_right_inj] at h
    exact Nat.repr_injective h

theorem freshName_cases (names : List String) (base : String) (n i : Nat) (hn : 0 < n) :
    freshName names base n i ∉ names ∨ ∀ k < n, candidate base (i + k) ∈ names := by
  induction n generalizing i with
  | zero => omega
  | succ n ih =>
    rw [freshName_succ]
    by_cases htaken : candidate base i ∈ names
    · rw [if_pos (by rwa [contains_iff_mem])]
      by_cases hn0 : n = 0
      · refine .inr fun k hk => ?_
        obtain rfl : k = 0 := by omega
        exact htaken
      · rcases ih (i + 1) (by omega) with hfresh | hall
        · exact .inl hfresh
        · refine .inr fun k hk => ?_
          cases k with
          | zero => exact htaken
          | succ k =>
            have hk' := hall k (by omega)
            rwa [Nat.add_assoc, Nat.add_comm 1 k] at hk'
    · rw [if_neg (by rwa [contains_iff_mem])]
      exact .inl htaken

theorem freshName_not_mem (names : List String) (base : String) :
    freshName names base (names.length + 1) 0 ∉ names := by
  rcases freshName_cases names base (names.length + 1) 0 (by omega) with hfresh | hall
  · exact hfresh
  · have hnodup : ((List.range (names.length + 1)).map (candidate base)).Nodup :=
      nodup_range.map (candidate_injective base)
    have hsub : ∀ x ∈ (List.range (names.length + 1)).map (candidate base), x ∈ names := by
      intro x hx
      obtain ⟨k, hk, rfl⟩ := mem_map.mp hx
      have hmem := hall k (mem_range.mp hk)
      rwa [Nat.zero_add] at hmem
    have hle := (subperm_of_subset hnodup hsub).length_le
    rw [length_map, length_range] at hle
    omega

theorem addPhi_size (c : Context) (p : NewPhi) : (addPhi c p).insts.size = c.insts.size + 1 :=
  Array.size_push _

theorem addPhi_block (c : Context) (p : NewPhi) (b : BlockId) :
    ∃ insts, (addPhi c p).block b = { c.block b with insts } := by
  let x : Instruction := { op := .phi, name := p.name, type := p.type, parent := some p.block }
  have hblock := Context.block_modifyBlock (c.withInst x) p.block b fun x =>
    { x with insts := x.insts.insertIdxIfInBounds (c.newPosition p.block .phi) ⟨c.insts.size⟩ }
  by_cases hp : p.block = b ∧ p.block.index < (c.withInst x).blocks.size
  · rw [if_pos hp] at hblock
    exact ⟨_, hblock⟩
  · rw [if_neg hp] at hblock
    exact ⟨(c.block b).insts, hblock⟩

theorem addPhis_block (c : Context) (ps : List NewPhi) (b : BlockId) :
    ∃ insts, (addPhis c ps).block b = { c.block b with insts } := by
  induction ps generalizing c with
  | nil => exact ⟨(c.block b).insts, rfl⟩
  | cons p ps ih =>
    obtain ⟨insts, hinsts⟩ := ih (addPhi c p)
    obtain ⟨insts', hinsts'⟩ := addPhi_block c p b
    rw [hinsts'] at hinsts
    exact ⟨insts, hinsts⟩

theorem addPhis_block_name (c : Context) (ps : List NewPhi) (b : BlockId) :
    ((addPhis c ps).block b).name = (c.block b).name := by
  obtain ⟨insts, hinsts⟩ := addPhis_block c ps b
  rw [hinsts]

theorem phisIn_congr {d : Context} (h : ∀ b, (d.block b).name = (c.block b).name) (index : Nat)
    (t : Ty) (base : String) (names : List String) (bs : List BlockId) :
    phisIn d index t base names bs = phisIn c index t base names bs := by
  induction bs generalizing names with
  | nil => rfl
  | cons b rest ih => simp only [phisIn, h, ih]

theorem phi_eq {b : BlockId} {t : Ty} {name : String} (ht : t.isSized = true)
    (hname : name ≠ "") : (Builder.phi (some t) name).withBuilder { block := some b } c =
      .ok ⟨c.insts.size⟩ (c.emitted b .phi name t []) := by
  have hvoid : t.isVoid = false := by
    cases t <;> first | rfl | cases ht
  have hemit := Builder.emit_eq (s := ⟨c, { block := some b }⟩) rfl .phi t name []
  have hresult : Builder.resultName { block := some b } t name = name := by
    simp only [Builder.resultName, hvoid, hname, Bool.false_eq_true, if_false]
  rw [hresult] at hemit
  unfold Building.withBuilder Builder.phi
  dsimp only
  rw [bind_of_ok (Build.require_of_true ht), hemit]

theorem placeIn_eq (index : Nat) {t : Ty} (ht : t.isSized = true) (base : String)
    (names : List String) (bs : List BlockId) (s : PromoteState) :
    placeIn index t base names bs s =
      .ok (namesWith names (phisIn s.context index t base names bs))
        { s with
          context := addPhis s.context (phisIn s.context index t base names bs)
          phis := (phiIds s.context.insts.size (phisIn s.context index t base names bs)).reverse
            ++ s.phis } := by
  induction bs generalizing names s with
  | nil => rfl
  | cons b rest ih =>
    let name := freshName names s!"{base}.{(s.context.block b).name}" (names.length + 1) 0
    let p : NewPhi := { cell := index, block := b, name, type := t }
    have hname : name ≠ "" := freshName_ne_empty names (dotted_ne_empty _ _) _ _
    have hphi := phi_eq (c := s.context) (b := b) ht hname
    have hrest := ih (name :: names)
      { s with context := addPhi s.context p, phis := (⟨s.context.insts.size⟩, index) :: s.phis }
    rw [phisIn_congr (d := addPhi s.context p) (addPhis_block_name s.context [p])] at hrest
    rw [addPhi_size] at hrest
    unfold placeIn
    rw [bind_of_ok (get_apply s), bind_of_ok (build_of_ok hphi)]
    refine hrest.trans ?_
    simp only [phisIn, namesWith, phiIds, map_cons, reverse_cons, append_assoc,
      singleton_append]
    rfl

/-! ## The program with phis -/

section Readings

variable {ps : List NewPhi} {i : InstId} {start : Nat}

theorem addPhis_append (c : Context) (ps qs : List NewPhi) :
    addPhis c (ps ++ qs) = addPhis (addPhis c ps) qs :=
  foldl_append

theorem addPhis_size (c : Context) (ps : List NewPhi) :
    (addPhis c ps).insts.size = c.insts.size + ps.length := by
  induction ps generalizing c with
  | nil => rfl
  | cons p ps ih =>
    refine (ih (addPhi c p)).trans ?_
    rw [addPhi_size, length_cons]
    omega

theorem phiIds_append (start : Nat) (ps qs : List NewPhi) :
    phiIds start (ps ++ qs) = phiIds start ps ++ phiIds (start + ps.length) qs := by
  induction ps generalizing start with
  | nil => rfl
  | cons p ps ih =>
    rw [cons_append, phiIds, phiIds, ih, cons_append, length_cons,
      Nat.add_assoc, Nat.add_comm 1]

theorem inst_addPhi (c : Context) (p : NewPhi) (i : InstId) : (addPhi c p).inst i =
    if i.index = c.insts.size then
      { op := .phi, name := p.name, type := p.type, parent := some p.block }
    else c.inst i :=
  Context.inst_emitted_nil c p.block .phi p.name p.type i

theorem inst_addPhis_old (hi : i.index < c.insts.size) : (addPhis c ps).inst i = c.inst i := by
  induction ps generalizing c with
  | nil => rfl
  | cons p ps ih =>
    refine (ih (c := addPhi c p) (by rw [addPhi_size]; omega)).trans ?_
    rw [inst_addPhi, if_neg (by omega)]

theorem inst_addPhis_new {k : Nat} {p : NewPhi} (hk : ps[k]? = some p) :
    (addPhis c ps).inst ⟨c.insts.size + k⟩ =
      { op := .phi, name := p.name, type := p.type, parent := some p.block } := by
  induction ps generalizing c k with
  | nil => cases hk
  | cons q ps ih =>
    have hsize := addPhi_size c q
    cases k with
    | zero =>
      obtain rfl : q = p := Option.some.inj hk
      have hlt : c.insts.size + 0 < (addPhi c q).insts.size := by omega
      refine (inst_addPhis_old (c := addPhi c q) (i := ⟨c.insts.size + 0⟩) hlt).trans ?_
      rw [inst_addPhi, if_pos (Nat.add_zero _)]
    | succ k =>
      have hrest := ih (c := addPhi c q) hk
      rwa [hsize, Nat.add_assoc, Nat.add_comm 1 k] at hrest

theorem inst_addPhis_cases (c : Context) (ps : List NewPhi) (i : InstId) :
    i.index < c.insts.size ∨ (∃ k p, ps[k]? = some p ∧ i = ⟨c.insts.size + k⟩) ∨
      (addPhis c ps).insts.size ≤ i.index := by
  rw [addPhis_size]
  by_cases hold : i.index < c.insts.size
  · exact .inl hold
  · by_cases hnew : i.index - c.insts.size < ps.length
    · refine .inr (.inl ⟨i.index - c.insts.size, ps[i.index - c.insts.size],
        List.getElem?_eq_getElem hnew, ?_⟩)
      rw [Nat.add_sub_cancel' (by omega)]
    · exact .inr (.inr (by omega))

theorem exists_index_cons {P : NewPhi → Prop} {q : NewPhi} :
    (∃ k p, (q :: ps)[k]? = some p ∧ i = ⟨start + k⟩ ∧ P p) ↔
      i = ⟨start⟩ ∧ P q ∨ ∃ k p, ps[k]? = some p ∧ i = ⟨start + 1 + k⟩ ∧ P p := by
  constructor
  · rintro ⟨k, p, hk, rfl, hp⟩
    cases k with
    | zero =>
      cases hk
      exact .inl ⟨rfl, hp⟩
    | succ k => exact .inr ⟨k, p, hk, by rw [Nat.add_assoc, Nat.add_comm 1], hp⟩
  · rintro (⟨rfl, hp⟩ | ⟨k, p, hk, rfl, hp⟩)
    · exact ⟨0, q, rfl, rfl, hp⟩
    · exact ⟨k + 1, p, hk, by rw [Nat.add_assoc, Nat.add_comm 1], hp⟩

theorem mem_phiIds {n : Nat} :
    (i, n) ∈ phiIds start ps ↔ ∃ k p, ps[k]? = some p ∧ i = ⟨start + k⟩ ∧ p.cell = n := by
  induction ps generalizing start with
  | nil => simp [phiIds]
  | cons q ps ih =>
    rw [phiIds, mem_cons, ih]
    refine (or_congr ?_ Iff.rfl).trans (exists_index_cons (P := fun p => p.cell = n)).symm
    rw [Prod.mk.injEq, eq_comm (a := n)]

theorem index_eq_of_key {α β : Type} {l : List α} {key : α → β} (h : (l.map key).Nodup) {i j : Nat}
    {x y : α} (hi : l[i]? = some x) (hj : l[j]? = some y) (hkey : key x = key y) : i = j := by
  have hlt := (List.getElem?_eq_some_iff.mp hi).1
  refine (getElem?_inj (by rwa [length_map]) h).mp ?_
  rw [getElem?_map, getElem?_map, hi, hj, Option.map_some, Option.map_some, hkey]

theorem lookup_eq_some_iff_mem {α β : Type} [BEq α] [LawfulBEq α] {l : List (α × β)} {x : α} {y : β}
    (hl : ∀ y', (x, y) ∈ l → (x, y') ∈ l → y = y') : l.lookup x = some y ↔ (x, y) ∈ l := by
  have hmem : ∀ {z}, l.lookup x = some z → (x, z) ∈ l := by
    intro z hz
    obtain ⟨l₁, l₂, rfl, _⟩ := lookup_eq_some_iff.mp hz
    exact mem_append_right _ (.head _)
  refine ⟨hmem, fun hxy => ?_⟩
  have hsome : (l.lookup x).isSome = true := lookup_isSome_iff.mpr ⟨_, hxy, beq_self_eq_true x⟩
  obtain ⟨z, hz⟩ := Option.isSome_iff_exists.mp hsome
  rw [hz, hl z hxy (hmem hz)]

theorem lookup_phiIds {n : Nat} : (phiIds start ps).reverse.lookup i = some n ↔
      ∃ k p, ps[k]? = some p ∧ i = ⟨start + k⟩ ∧ p.cell = n := by
  rw [lookup_eq_some_iff_mem, mem_reverse, mem_phiIds]
  intro n' hn hn'
  rw [mem_reverse, mem_phiIds] at hn hn'
  obtain ⟨k, p, hk, rfl, rfl⟩ := hn
  obtain ⟨k', p', hk', heq, rfl⟩ := hn'
  obtain rfl : k = k' := by
    have hindex := InstId.mk.inj heq
    omega
  rw [Option.some.inj (hk.symm.trans hk')]

def newIn (b : BlockId) : Nat → List NewPhi → List InstId
  | _, [] => []
  | start, p :: ps => (if p.block = b then [⟨start⟩] else []) ++ newIn b (start + 1) ps

theorem mem_newIn {b : BlockId} :
    i ∈ newIn b start ps ↔ ∃ k p, ps[k]? = some p ∧ i = ⟨start + k⟩ ∧ p.block = b := by
  induction ps generalizing start with
  | nil => simp [newIn]
  | cons q ps ih =>
    rw [newIn, mem_append, ih]
    refine (or_congr ?_ Iff.rfl).trans (exists_index_cons (P := fun p => p.block = b)).symm
    split
    · next hq => rw [mem_singleton, and_iff_left hq]
    · next hq => simp [hq]

/-- Adding phis keeps a context sound, adds them after the leading phis of their blocks, and keeps
the bodies. -/
theorem addPhis_spec (h : c.Sound) (hps : ∀ p ∈ ps, p.block.index < c.blocks.size) :
    (addPhis c ps).Sound ∧ ∀ b,
      (addPhis c ps).phis b = c.phis b ++ newIn b c.insts.size ps ∧
        (addPhis c ps).body b = c.body b := by
  induction ps generalizing c with
  | nil =>
    refine ⟨h, fun b => ⟨?_, rfl⟩⟩
    rw [newIn, append_nil]
    rfl
  | cons p ps ih =>
    have hp := hps p (.head _)
    have hsound : (addPhi c p).Sound :=
      h.emitted hp .phi p.name p.type [] fun v hv => by cases hv
    have hblocks : (addPhi c p).blocks.size = c.blocks.size := Array.size_modify
    obtain ⟨hsound', hblock⟩ := ih hsound fun q hq => by
      rw [hblocks]
      exact hps q (.tail _ hq)
    refine ⟨hsound', fun b => ?_⟩
    obtain ⟨hphis, hbody⟩ := hblock b
    obtain ⟨hphis', hbody'⟩ := h.phis_emitted hp p.name p.type b
    rw [addPhi_size] at hphis
    refine ⟨hphis.trans ?_, hbody.trans hbody'⟩
    rw [newIn, ← append_assoc]
    exact congrArg (· ++ newIn b (c.insts.size + 1) ps) hphis'

end Readings

section

variable (a : FlowAnalysis) (index : Nat) (names : List String) (xs : List Cell)

theorem phisOf_congr {d : Context} (hblock : ∀ b, (d.block b).name = (c.block b).name)
    (hinst : ∀ x ∈ xs, (d.inst x.alloca).name = (c.inst x.alloca).name) :
    phisOf d a index names xs = phisOf c a index names xs := by
  induction xs generalizing index names with
  | nil => rfl
  | cons x rest ih =>
    simp only [phisOf, phisIn_congr hblock, hinst x (.head _),
      ih _ _ fun y hy => hinst y (.tail _ hy)]

theorem placePhis_eq (s : PromoteState) (hsized : ∀ x ∈ xs, x.type.isSized = true)
    (hold : ∀ x ∈ xs, x.alloca.index < s.context.insts.size) :
    placePhis a index names xs s =
      .ok () { s with
        context := addPhis s.context (phisOf s.context a index names xs)
        phis := (phiIds s.context.insts.size (phisOf s.context a index names xs)).reverse
          ++ s.phis } := by
  induction xs generalizing index names s with
  | nil => rfl
  | cons x rest ih =>
    let ps := phisIn s.context index x.type (s.context.inst x.alloca).name names (frontierOf a x)
    have hplace := placeIn_eq index (hsized x (.head _))
      (s.context.inst x.alloca).name names (frontierOf a x) s
    have hrest := ih (index + 1) (namesWith names ps)
      { s with
        context := addPhis s.context ps
        phis := (phiIds s.context.insts.size ps).reverse ++ s.phis }
      (fun y hy => hsized y (.tail _ hy)) fun y hy => by
        rw [addPhis_size]
        exact (hold y (.tail _ hy)).trans_le (Nat.le_add_right _ _)
    rw [phisOf_congr a _ _ rest (addPhis_block_name s.context ps) fun y hy =>
      congrArg Instruction.name (inst_addPhis_old (hold y (.tail _ hy))),
      addPhis_size] at hrest
    unfold placePhis
    rw [bind_of_ok (get_apply s)]
    refine (bind_of_ok hplace).trans (hrest.trans ?_)
    rw [phisOf, addPhis_append, phiIds_append, reverse_append, append_assoc]

end

/-! ## Which phis there are -/

/-- The names of phis are not empty, differ, and are not taken. -/
structure FreshNames (names : List String) (ps : List NewPhi) : Prop where
  nonempty : ∀ p ∈ ps, p.name ≠ ""
  nodup : (ps.map (·.name)).Nodup
  fresh : ∀ p ∈ ps, p.name ∉ names

theorem freshNames_nil (names : List String) : FreshNames names [] :=
  ⟨fun _ hp => absurd hp not_mem_nil, nodup_nil, fun _ hp => absurd hp not_mem_nil⟩

theorem phisIn_spec (c : Context) (index : Nat) (t : Ty) (base : String) (names : List String)
    (bs : List BlockId) :
    (phisIn c index t base names bs).map (·.block) = bs ∧
      (∀ p ∈ phisIn c index t base names bs, p.cell = index ∧ p.type = t) ∧
      FreshNames names (phisIn c index t base names bs) := by
  induction bs generalizing names with
  | nil =>
    exact ⟨rfl, fun p hp => absurd hp not_mem_nil, freshNames_nil names⟩
  | cons b rest ih =>
    let name := freshName names s!"{base}.{(c.block b).name}" (names.length + 1) 0
    obtain ⟨hblocks, hall, hfresh⟩ := ih (name :: names)
    refine ⟨?_, fun p hp => ?_, fun p hp => ?_, ?_, fun p hp => ?_⟩
    · rw [phisIn, map_cons, hblocks]
    · rcases mem_cons.mp hp with rfl | hp
      · exact ⟨rfl, rfl⟩
      · exact hall p hp
    · rcases mem_cons.mp hp with rfl | hp
      · exact freshName_ne_empty names (dotted_ne_empty _ _) _ _
      · exact hfresh.nonempty p hp
    · rw [phisIn, map_cons, nodup_cons]
      refine ⟨fun hmem => ?_, hfresh.nodup⟩
      obtain ⟨p, hp, hname⟩ := mem_map.mp hmem
      refine hfresh.fresh p hp ?_
      rw [hname]
      exact .head _
    · rcases mem_cons.mp hp with rfl | hp
      · exact freshName_not_mem names _
      · exact fun hmem => hfresh.fresh p hp (.tail _ hmem)

theorem phisOf_spec (c : Context) (a : FlowAnalysis) (index : Nat) (names : List String)
    (xs : List Cell) :
    (∀ p ∈ phisOf c a index names xs, ∃ k x, xs[k]? = some x ∧ p.cell = index + k ∧
      p.type = x.type ∧ p.block ∈ frontierOf a x) ∧
    (∀ k x b, xs[k]? = some x → b ∈ frontierOf a x →
      ∃ p ∈ phisOf c a index names xs, p.cell = index + k ∧ p.block = b) ∧
    FreshNames names (phisOf c a index names xs) := by
  induction xs generalizing index names with
  | nil =>
    refine ⟨fun p hp => absurd hp not_mem_nil, fun k x b hx => ?_, freshNames_nil names⟩
    cases hx
  | cons x rest ih =>
    let ps := phisIn c index x.type (c.inst x.alloca).name names (frontierOf a x)
    obtain ⟨hblocks, hall, hfresh⟩ :=
      phisIn_spec c index x.type (c.inst x.alloca).name names (frontierOf a x)
    obtain ⟨hrest, hcover, hfresh'⟩ := ih (index + 1) (namesWith names ps)
    refine ⟨fun p hp => ?_, fun k y b hy hb => ?_, fun p hp => ?_, ?_, fun p hp => ?_⟩
    · rcases mem_append.mp hp with hp | hp
      · obtain ⟨hcell, htype⟩ := hall p hp
        refine ⟨0, x, rfl, hcell, htype, ?_⟩
        have hmem := mem_map_of_mem (f := NewPhi.block) hp
        rwa [hblocks] at hmem
      · obtain ⟨k, y, hy, hcell, htype, hblock⟩ := hrest p hp
        exact ⟨k + 1, y, hy, by omega, htype, hblock⟩
    · cases k with
      | zero =>
        cases hy
        have hmem : b ∈ ps.map (·.block) := hblocks.symm ▸ hb
        obtain ⟨p, hp, hpb⟩ := mem_map.mp hmem
        exact ⟨p, mem_append_left _ hp, (hall p hp).1, hpb⟩
      | succ k =>
        obtain ⟨p, hp, hcell, hpb⟩ := hcover k y b hy hb
        exact ⟨p, mem_append_right _ hp, by omega, hpb⟩
    · rcases mem_append.mp hp with hp | hp
      · exact hfresh.nonempty p hp
      · exact hfresh'.nonempty p hp
    · rw [phisOf, map_append]
      refine hfresh.nodup.append hfresh'.nodup fun name hname hname' => ?_
      obtain ⟨p, hp, rfl⟩ := mem_map.mp hname'
      refine hfresh'.fresh p hp (mem_append_left _ ?_)
      exact mem_reverse.mpr hname
    · rcases mem_append.mp hp with hp | hp
      · exact hfresh.fresh p hp
      · exact fun hmem => hfresh'.fresh p hp (mem_append_right _ hmem)

end Promote

end SsaIr
