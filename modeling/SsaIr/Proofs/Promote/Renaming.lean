import SsaIr.Promote
import SsaIr.Proofs.Graph.Edits

/-!
# Renaming without a program

The walk of the dominator tree on paper: it reads the program with its phis, which stays as it is,
and notes the replacements, the incoming pairs and the instructions to erase. `Plan.walk` is the
whole walk, and `Renaming.operands` gives the operands that every instruction has after it. Read
`Plan.visitInst` first.
-/

namespace SsaIr

open List

namespace Promote

/-- What renaming reads: the program with its phis, the cells, and the cells of the phis. -/
structure Plan where
  program : Context
  cells : List Cell
  phis : List (InstId × Nat)

abbrev Env := Nat → Value

/-- What renaming does to a function, as data. -/
structure Renaming where
  subst : List (InstId × Value) := []
  /-- The incoming pairs of phis, in the order in which they were added. -/
  fills : List (InstId × Value × BlockId) := []
  dead : List InstId := []

def substValue (i : InstId) (w v : Value) : Value := if v = .inst i then w else v

/-- What replacements, made one after the other, make of a value. -/
def resolve : List (InstId × Value) → Value → Value
  | [], v => v
  | (i, w) :: rest, v => substValue i w (resolve rest v)

def Plan.cellOf (p : Plan) : Option Value → Option Nat
  | some (.inst i) => p.cells.findIdx? fun x => x.alloca = i
  | _ => none

def Plan.phiOf (p : Plan) (i : InstId) : Option Nat := p.phis.lookup i

def Plan.typeAt (p : Plan) (n : Nat) : Ty := ((p.cells[n]?).map (·.type)).getD .void

def Plan.undefs (p : Plan) : Env := fun n => .const (.undef (p.typeAt n))

namespace Renaming

/-- Replace an instruction, and note that it is to be erased. -/
def replace (r : Renaming) (i : InstId) (w : Value) : Renaming where
  subst := (i, w) :: r.subst
  fills := r.fills.map fun x => (x.1, substValue i w x.2.1, x.2.2)
  dead := i :: r.dead

def retire (r : Renaming) (i : InstId) : Renaming := { r with dead := i :: r.dead }

def fill (r : Renaming) (phi : InstId) (v : Value) (b : BlockId) : Renaming :=
  { r with fills := r.fills ++ [(phi, v, b)] }

def filled (r : Renaming) (i : InstId) : List (Option Value) :=
  (r.fills.filter fun x => x.1 = i).flatMap fun x => [some x.2.1, some (.block x.2.2)]

/-- The operands of an instruction: those of the program, renamed, and the incoming pairs. -/
def operands (r : Renaming) (p : Plan) (i : InstId) : Array (Option Value) :=
  (p.program.inst i).operands.map (Option.map (resolve r.subst)) ++ (r.filled i).toArray

end Renaming

namespace Plan

def visitInst (p : Plan) (s : Renaming × Env) (i : InstId) : Renaming × Env :=
  let x := p.program.inst i
  match x.op with
  | .phi =>
    match p.phiOf i with
    | some n => (s.1, Function.update s.2 n (.inst i))
    | none => s
  | .load =>
    match p.cellOf (x.operand 0) with
    | some n => (s.1.replace i (s.2 n), s.2)
    | none => s
  | .store =>
    match p.cellOf (x.operand 1), x.operand 0 with
    | some n, some v => (s.1.retire i, Function.update s.2 n (resolve s.1.subst v))
    | _, _ => s
  | _ => s

/-- Give a phi the current value for control that comes from a block. -/
def fillPhi (p : Plan) (env : Env) (b : BlockId) (r : Renaming) (phi : InstId) : Renaming :=
  match p.phiOf phi with
  | some n => r.fill phi (env n) b
  | none => r

/-- Visit a block with some targets, when values are current: its instructions, and then the phis of
its targets. -/
def visitBlock (p : Plan) (targets : List BlockId) (b : BlockId) (s : Renaming × Env) :
    Renaming × Env :=
  let s := (p.program.block b).insts.toList.foldl p.visitInst s
  ((targets.flatMap p.program.phis).foldl (p.fillPhi s.2 b) s.1, s.2)

/-- The values that are current at the start of a node: those at the end of its parent. -/
def startOf (p : Plan) (a : FlowAnalysis) (out : Nat → Env) (v : Nat) : Env :=
  match a.tree.idomOf v with
  | some d => out d
  | none => p.undefs

/-- Visit a node, when the values at the ends of the nodes before it are known. -/
def visitNode (p : Plan) (a : FlowAnalysis) (s : Renaming × (Nat → Env)) (v : Nat) :
    Renaming × (Nat → Env) :=
  let b := a.flow.blockAt v
  let s' := p.visitBlock (a.successors (some b)) b (s.1, p.startOf a s.2 v)
  (s'.1, Function.update s.2 v s'.2)

def visitNodes (p : Plan) (a : FlowAnalysis) (s : Renaming × (Nat → Env)) (vs : List Nat) :
    Renaming × (Nat → Env) :=
  vs.foldl (p.visitNode a) s

/-- The nodes in the order in which they are visited: those of the tree, and then those that are not
reachable. -/
def order (a : FlowAnalysis) : List Nat :=
  a.tree.preorder ++ (List.range a.flow.size).filter fun v => !a.tree.reachable v

def walk (p : Plan) (a : FlowAnalysis) : Renaming × (Nat → Env) :=
  p.visitNodes a ({}, fun _ => p.undefs) (order a)

end Plan

/-! ## Values under replacements -/

section Resolve

variable {σ : List (InstId × Value)}

theorem resolve_append (σ τ : List (InstId × Value)) (v : Value) :
    resolve (σ ++ τ) v = resolve σ (resolve τ v) := by
  induction σ with
  | nil => rfl
  | cons x σ ih => rw [cons_append, resolve, ih, resolve]

theorem resolve_of_not_mem {v : Value} (h : ∀ x ∈ σ, v ≠ .inst x.1) : resolve σ v = v := by
  induction σ with
  | nil => rfl
  | cons x σ ih =>
    rw [resolve, ih fun y hy => h y (.tail _ hy), substValue,
      if_neg (h x (.head _))]

theorem resolve_induction {P : Value → Prop} {v : Value} (hv : P v) (hσ : ∀ x ∈ σ, P x.2) :
    P (resolve σ v) := by
  induction σ with
  | nil => exact hv
  | cons x σ ih =>
    rw [resolve, substValue]
    split
    · exact hσ x (.head _)
    · exact ih fun y hy => hσ y (.tail _ hy)

theorem resolve_cases (σ : List (InstId × Value)) (v : Value) :
    resolve σ v = v ∨ ∃ x ∈ σ, resolve σ v = x.2 := by
  refine resolve_induction (P := fun w => w = v ∨ ∃ x ∈ σ, w = x.2) (.inl rfl) ?_
  exact fun x hx => .inr ⟨x, hx, rfl⟩

theorem substOperand_map_resolve (i : InstId) (w : Value) (v : Option Value) :
    Context.substOperand (.inst i) w (v.map (resolve σ)) = v.map (resolve ((i, w) :: σ)) := by
  cases v with
  | none => rfl
  | some v =>
    simp only [Option.map_some, Context.substOperand, Option.some.injEq, resolve, substValue]
    split <;> rfl

end Resolve

/-! ## Retired instructions -/

namespace Plan

variable {p : Plan}

/-- The instruction is a load from a cell or a store to one. -/
def retires (p : Plan) (i : InstId) : Bool :=
  let x := p.program.inst i
  match x.op with
  | .load => (p.cellOf (x.operand 0)).isSome
  | .store => (p.cellOf (x.operand 1)).isSome && (x.operand 0).isSome
  | _ => false

def instsOf (p : Plan) (a : FlowAnalysis) (vs : List Nat) : List InstId :=
  vs.flatMap fun v => (p.program.block (a.flow.blockAt v)).insts.toList

/-- What visiting an instruction does. -/
inductive Visit (p : Plan) (s : Renaming × Env) (i : InstId) : Renaming × Env → Prop where
  | phi {n : Nat} : (p.program.inst i).op = .phi → p.phiOf i = some n → p.retires i = false →
      Visit p s i (s.1, Function.update s.2 n (.inst i))
  | load {n : Nat} : (p.program.inst i).op = .load →
      p.cellOf ((p.program.inst i).operand 0) = some n → p.retires i = true →
      Visit p s i (s.1.replace i (s.2 n), s.2)
  | store {n : Nat} {v : Value} : (p.program.inst i).op = .store →
      p.cellOf ((p.program.inst i).operand 1) = some n → (p.program.inst i).operand 0 = some v →
      p.retires i = true →
      Visit p s i (s.1.retire i, Function.update s.2 n (resolve s.1.subst v))
  | other : p.retires i = false → ((p.program.inst i).op = .phi → p.phiOf i = none) → Visit p s i s

theorem visitInst_visit (p : Plan) (s : Renaming × Env) (i : InstId) :
    p.Visit s i (p.visitInst s i) := by
  unfold visitInst
  dsimp only
  split
  · rename_i hop
    have hretires : p.retires i = false := by simp [retires, hop]
    split
    · rename_i n hn
      exact .phi hop hn hretires
    · rename_i hn
      exact .other hretires fun _ => hn
  · rename_i hop
    split
    · rename_i n hn
      exact .load hop hn (by simp [retires, hop, hn])
    · rename_i hn
      exact .other (by simp [retires, hop, hn]) fun hphi => by
        rw [hop] at hphi
        cases hphi
  · rename_i hop
    split
    · rename_i n v hn hv
      exact .store hop hn hv (by simp [retires, hop, hn, hv])
    · rename_i hnone
      refine .other ?_ fun hphi => by
        rw [hop] at hphi
        cases hphi
      simp only [retires, hop]
      cases hn : p.cellOf ((p.program.inst i).operand 1) with
      | none => rfl
      | some n =>
        cases hv : (p.program.inst i).operand 0 with
        | none => rfl
        | some v => exact absurd hv (hnone n v hn)
  · rename_i hphi hload hstore
    refine .other ?_ fun hop => absurd hop hphi
    unfold retires
    dsimp only
    split
    · rename_i hop
      exact absurd hop hload
    · rename_i hop
      exact absurd hop hstore
    · rfl

theorem visitInst_dead (s : Renaming × Env) (i : InstId) :
    (p.visitInst s i).1.dead = if p.retires i then i :: s.1.dead else s.1.dead := by
  have hvisit := visitInst_visit p s i
  generalize p.visitInst s i = t at hvisit ⊢
  cases hvisit with rw [hretires]
  | phi _ _ hretires => rfl
  | load _ _ hretires => rfl
  | store _ _ _ hretires => rfl
  | other hretires _ => rfl

end Plan

/-! ## Where values come from -/

/-- A property holds of all values that were put anywhere. -/
structure Renaming.All (P : Value → Prop) (r : Renaming) : Prop where
  subst : ∀ x ∈ r.subst, P x.2
  fills : ∀ x ∈ r.fills, P x.2.1

namespace Plan

/-- The instruction stores a value to a cell. -/
structure Stores (p : Plan) (i : InstId) (n : Nat) (x : Value) : Prop where
  op : (p.program.inst i).op = .store
  cell : p.cellOf ((p.program.inst i).operand 1) = some n
  value : (p.program.inst i).operand 0 = some x

section Everywhere

variable {p : Plan} {a : FlowAnalysis} {P : Value → Prop} {I : List InstId → Renaming → Prop}

section

variable (hinst : ∀ {vs ws v pre post i r env}, order a = vs ++ v :: ws →
  (p.program.block (a.flow.blockAt v)).insts.toList = pre ++ i :: post →
    I (p.instsOf a vs ++ pre) r → (∀ n, P (env n)) →
      I (p.instsOf a vs ++ pre ++ [i]) (p.visitInst (r, env) i).1 ∧
        ∀ n, P ((p.visitInst (r, env) i).2 n))
include hinst

theorem visitInsts_induction {vs ws : List Nat} {v : Nat} {pre l : List InstId} {s : Renaming × Env}
    (horder : order a = vs ++ v :: ws)
    (hblock : (p.program.block (a.flow.blockAt v)).insts.toList = pre ++ l)
    (h : I (p.instsOf a vs ++ pre) s.1) (henv : ∀ n, P (s.2 n)) :
    I (p.instsOf a vs ++ (pre ++ l)) (l.foldl p.visitInst s).1 ∧
      ∀ n, P ((l.foldl p.visitInst s).2 n) := by
  induction l generalizing pre s with
  | nil =>
    rw [append_nil]
    exact ⟨h, henv⟩
  | cons i l ih =>
    obtain ⟨hstep, hstepEnv⟩ := hinst horder hblock h henv
    rw [append_assoc] at hstep
    have hrest := ih (by rw [hblock, append_assoc]; rfl) hstep hstepEnv
    rwa [append_assoc] at hrest

/-- An invariant of what is noted, and a property of the current values: if they hold at the start,
and visiting an instruction and filling a phi keep them, the invariant holds after the walk. -/
theorem walk_induction (hstart : I [] {}) (hundef : ∀ n, P (p.undefs n))
    (hfill : ∀ {done r env b j}, I done r → (∀ n, P (env n)) → I done (p.fillPhi env b r j)) :
    I (p.instsOf a (order a)) (p.walk a).1 := by
  have hfills : ∀ {done env b} (l : List InstId) {r : Renaming}, (∀ n, P (env n)) → I done r →
      I done (l.foldl (p.fillPhi env b) r) := by
    intro done env b l
    induction l with
    | nil => exact fun _ h => h
    | cons j l ih => exact fun henv h => ih henv (hfill h henv)
  have hsteps : ∀ (ws vs : List Nat) (s : Renaming × (Nat → Env)), order a = vs ++ ws →
      I (p.instsOf a vs) s.1 → (∀ v n, P (s.2 v n)) →
        I (p.instsOf a (vs ++ ws)) (p.visitNodes a s ws).1 := by
    intro ws
    induction ws with
    | nil =>
      intro vs s _ h _
      rwa [append_nil]
    | cons v ws ih =>
      intro vs s horder h hout
      have hfirst : ∀ n, P (p.startOf a s.2 v n) := by
        intro n
        unfold startOf
        cases a.tree.idomOf v with
        | none => exact hundef n
        | some d => exact hout d n
      obtain ⟨hend, hendEnv⟩ := visitInsts_induction hinst horder (nil_append _).symm
        (s := (s.1, p.startOf a s.2 v)) (by rwa [append_nil]) hfirst
      have hdone : p.instsOf a vs ++ ([] ++ (p.program.block (a.flow.blockAt v)).insts.toList) =
          p.instsOf a (vs ++ [v]) := by
        simp [instsOf]
      rw [hdone] at hend
      have hrest := ih (vs ++ [v]) (p.visitNode a s v) (by rw [horder, append_assoc]; rfl)
        (hfills _ hendEnv hend) ((Function.forall_update_iff s.2 fun _ env => ∀ n, P (env n)).mpr
          ⟨hendEnv, fun w _ => hout w⟩)
      rwa [append_assoc] at hrest
  exact hsteps (order a) [] _ rfl hstart fun _ => hundef

end

theorem walk_dead (p : Plan) (a : FlowAnalysis) :
    (p.walk a).1.dead.reverse = (p.instsOf a (order a)).filter p.retires := by
  refine walk_induction (P := fun _ => True)
    (I := fun done r => r.dead.reverse = done.filter p.retires)
    (fun {vs ws v pre post i r env} _ _ h henv => ⟨?_, henv⟩) rfl (fun _ => trivial) fun h _ => ?_
  · rw [visitInst_dead, filter_append, ← h]
    cases hi : p.retires i with
    | true => simp [hi]
    | false => simp [hi]
  · unfold fillPhi
    split <;> exact h

/-- Visiting an instruction puts current values, phis and stored values somewhere, and no others. -/
theorem visitInst_all {s : Renaming × Env} {i : InstId}
    (hphi : ∀ {n}, (p.program.inst i).op = .phi → p.phiOf i = some n → P (.inst i))
    (hstored : ∀ {n x}, p.Stores i n x → P (resolve s.1.subst x))
    (hr : s.1.All P) (henv : ∀ n, P (s.2 n)) :
    (p.visitInst s i).1.All P ∧ ∀ n, P ((p.visitInst s i).2 n) := by
  have hupdate : ∀ {m : Nat} {w : Value}, P w → ∀ n, P (Function.update s.2 m w n) := fun hw =>
    (Function.forall_update_iff _ fun _ => P).mpr ⟨hw, fun n _ => henv n⟩
  have hvisit := visitInst_visit p s i
  generalize p.visitInst s i = t at hvisit ⊢
  cases hvisit with
  | phi hop hn _ => exact ⟨hr, hupdate (hphi hop hn)⟩
  | @load m _ _ _ =>
    refine ⟨⟨forall_mem_cons.mpr ⟨henv m, hr.subst⟩, fun x hx => ?_⟩, henv⟩
    obtain ⟨y, hy, rfl⟩ := mem_map.mp hx
    unfold substValue
    split
    · exact henv m
    · exact hr.fills y hy
  | store hop hn hx _ => exact ⟨⟨hr.subst, hr.fills⟩, hupdate (hstored ⟨hop, hn, hx⟩)⟩
  | other _ _ => exact ⟨hr, henv⟩

theorem fillPhi_all {env : Env} {b : BlockId} {i : InstId} {r : Renaming} (hr : r.All P)
    (henv : ∀ n, P (env n)) : (p.fillPhi env b r i).All P := by
  unfold fillPhi
  split
  · rename_i n _
    exact ⟨hr.subst, forall_mem_append.mpr ⟨hr.fills, forall_mem_singleton.mpr (henv n)⟩⟩
  · exact hr

theorem all_empty : ({} : Renaming).All P :=
  ⟨fun _ h => absurd h not_mem_nil, fun _ h => absurd h not_mem_nil⟩

/-- What holds of undefined values, of inserted phis and of stored values holds of all values that
the walk puts anywhere. -/
theorem walk_all (hundef : ∀ n, P (p.undefs n)) (hphi : ∀ {i n}, p.phiOf i = some n → P (.inst i))
    (hstored : ∀ i ∈ p.instsOf a (order a), ∀ {n x}, p.Stores i n x → P x) :
    (p.walk a).1.All P := by
  refine walk_induction (I := fun _ r => r.All P)
    (fun {vs ws v pre post i r env} horder hblock hr henv => ?_)
    all_empty hundef fillPhi_all
  refine visitInst_all (fun _ => hphi)
    (fun hx => resolve_induction (hstored i ?_ hx) hr.subst) hr henv
  rw [horder, instsOf, mem_flatMap]
  exact ⟨v, mem_append_right _ (.head _), hblock ▸ mem_append_right _ (.head _)⟩

end Everywhere

end Plan

/-! ## Plans that fit -/

namespace Plan

/-- A cell may hold a value: it has the type of the cell, and is not the address of a cell. -/
structure Holds (p : Plan) (n : Nat) (v : Value) : Prop where
  type : p.program.typeOf v = some (p.typeAt n)
  tracks : v.IsLocal → p.program.Tracks v
  plain : p.cellOf (some v) = none

/-- The cells are allocations, loads from them and stores to them in the function have their types,
and so have their phis. -/
structure Fits (p : Plan) (f : FuncId) : Prop where
  linked : p.program.Linked Value.IsLocal
  alloca : ∀ {x}, x ∈ p.cells → (p.program.inst x.alloca).op = .alloca x.type
  load : ∀ {b i n}, b ∈ (p.program.func f).blocks → i ∈ (p.program.block b).insts →
    (p.program.inst i).op = .load → p.cellOf ((p.program.inst i).operand 0) = some n →
      (p.program.inst i).type = p.typeAt n
  store : ∀ {b i n}, b ∈ (p.program.func f).blocks → i ∈ (p.program.block b).insts →
    (p.program.inst i).op = .store → p.cellOf ((p.program.inst i).operand 1) = some n →
      ∃ v, (p.program.inst i).operand 0 = some v ∧ p.Holds n v
  phi : ∀ {i n}, p.phiOf i = some n → n < p.cells.length ∧ (p.program.inst i).op = .phi ∧
    (p.program.inst i).type = p.typeAt n ∧ p.program.Tracks (.inst i)

/-- Replacements put values in the place of loads of their types. -/
structure Sane (p : Plan) (σ : List (InstId × Value)) : Prop where
  load : ∀ {x}, x ∈ σ → (p.program.inst x.1).op = .load
  type : ∀ {x}, x ∈ σ → p.program.typeOf x.2 = some (p.program.inst x.1).type
  tracks : ∀ {x}, x ∈ σ → x.2.IsLocal → p.program.Tracks x.2
  plain : ∀ {x}, x ∈ σ → p.cellOf (some x.2) = none

variable {p : Plan} {f : FuncId} {σ : List (InstId × Value)} {r : Renaming} {env : Env} {n : Nat}
  {i : InstId}

theorem cellOf_eq_some {v : Option Value} (h : p.cellOf v = some n) :
    ∃ x, p.cells[n]? = some x ∧ v = some (.inst x.alloca) := by
  unfold cellOf at h
  split at h
  · obtain ⟨hlt, hx, _⟩ := findIdx?_eq_some_iff_getElem.mp h
    refine ⟨p.cells[n], List.getElem?_eq_getElem hlt, ?_⟩
    rw [of_decide_eq_true hx]
  · cases h

theorem cellOf_lt {v : Option Value} (h : p.cellOf v = some n) : n < p.cells.length := by
  obtain ⟨x, hx, _⟩ := cellOf_eq_some h
  exact (List.getElem?_eq_some_iff.mp hx).1

theorem Fits.cellOf_eq_none (hp : p.Fits f)
    (hi : ∀ t, (p.program.inst i).op ≠ .alloca t) : p.cellOf (some (.inst i)) = none := by
  cases hcell : p.cellOf (some (.inst i)) with
  | none => rfl
  | some n =>
    obtain ⟨x, hx, heq⟩ := cellOf_eq_some hcell
    cases heq
    exact absurd (hp.alloca (mem_of_getElem? hx)) (hi x.type)

theorem Sane.tail {x : InstId × Value} (hσ : p.Sane (x :: σ)) : p.Sane σ :=
  ⟨fun h => hσ.load (.tail _ h), fun h => hσ.type (.tail _ h),
    fun h => hσ.tracks (.tail _ h), fun h => hσ.plain (.tail _ h)⟩

theorem Sane.typeOf_resolve (hσ : p.Sane σ) (v : Value) :
    p.program.typeOf (resolve σ v) = p.program.typeOf v := by
  induction σ with
  | nil => rfl
  | cons x σ ih =>
    rw [resolve, substValue]
    split
    · rename_i heq
      rw [hσ.type (.head _), ← ih hσ.tail, heq]
      rfl
    · exact ih hσ.tail

theorem Sane.cellOf_resolve (hp : p.Fits f) (hσ : p.Sane σ) (v : Option Value) :
    p.cellOf (v.map (resolve σ)) = p.cellOf v := by
  cases v with
  | none => rfl
  | some v =>
    rw [Option.map_some]
    induction σ with
    | nil => rfl
    | cons x σ ih =>
      rw [resolve, substValue]
      split
      · rename_i heq
        rw [hσ.plain (.head _), ← ih hσ.tail, heq]
        refine (hp.cellOf_eq_none fun t ht => ?_).symm
        rw [hσ.load mem_cons_self] at ht
        cases ht
      · exact ih hσ.tail

theorem Holds.resolve (hp : p.Fits f) (hσ : p.Sane σ) {v : Value} (hv : p.Holds n v) :
    p.Holds n (resolve σ v) :=
  ⟨(hσ.typeOf_resolve v).trans hv.type,
    resolve_induction (P := fun w => w.IsLocal → p.program.Tracks w) hv.tracks fun _ hx =>
      hσ.tracks hx,
    (hσ.cellOf_resolve hp (some v)).trans hv.plain⟩

theorem holds_undef (p : Plan) (n : Nat) : p.Holds n (p.undefs n) :=
  ⟨rfl, fun h => h.elim, rfl⟩

theorem Fits.holds_phi (hp : p.Fits f) (h : p.phiOf i = some n) : p.Holds n (.inst i) := by
  obtain ⟨_, hop, htype, htracks⟩ := hp.phi h
  refine ⟨congrArg some htype, fun _ => htracks, hp.cellOf_eq_none fun t ht => ?_⟩
  rw [hop] at ht
  cases ht

theorem visitInst_sane (hp : p.Fits f) {b : BlockId}
    (hb : b ∈ (p.program.func f).blocks) (hi : i ∈ (p.program.block b).insts) (hσ : p.Sane r.subst)
    (henv : ∀ n < p.cells.length, p.Holds n (env n)) : p.Sane (p.visitInst (r, env) i).1.subst ∧
      ∀ n < p.cells.length, p.Holds n ((p.visitInst (r, env) i).2 n) := by
  have hupdate : ∀ {m : Nat} {v : Value}, p.Holds m v →
      ∀ n < p.cells.length, p.Holds n (Function.update env m v n) := fun hv =>
    (Function.forall_update_iff _ fun n w => n < p.cells.length → p.Holds n w).mpr
      ⟨fun _ => hv, fun n _ => henv n⟩
  have hvisit := visitInst_visit p (r, env) i
  generalize p.visitInst (r, env) i = t at hvisit ⊢
  cases hvisit with
  | phi _ hn _ => exact ⟨hσ, hupdate (hp.holds_phi hn)⟩
  | @load n hop hn _ =>
    have hheld := henv n (cellOf_lt hn)
    refine ⟨⟨?_, ?_, ?_, ?_⟩, henv⟩ <;> refine @(forall_mem_cons.mpr ⟨?_, ?_⟩)
    · exact hop
    · exact fun _ => hσ.load
    · rw [hheld.type, hp.load hb hi hop hn]
    · exact fun _ => hσ.type
    · exact hheld.tracks
    · exact fun _ => hσ.tracks
    · exact hheld.plain
    · exact fun _ => hσ.plain
  | store hop hn hv _ =>
    obtain ⟨w, hw, hheld⟩ := hp.store hb hi hop hn
    cases hv.symm.trans hw
    exact ⟨hσ, hupdate (hheld.resolve hp hσ)⟩
  | other _ _ => exact ⟨hσ, henv⟩

end Plan

end Promote

end SsaIr
