import SsaIr.Proofs.Graph.Creation
import SsaIr.Proofs.Graph.Threads

/-!
# Users along every sequence of edits

A program is put together by edits: entities are made, builders create instructions, and operands
are added, set, replaced and dropped. Each edit changes the threads of uses along with the operands
(`Edit.thread`). The main result is `Workshop.threads_mirror_operands`: after any edits, also
refused ones, the uses of each value are a doubly linked list of exactly the slots that refer to it.
-/

namespace SsaIr

open EStateM Context Build List

/-- An edit of a program: the constructors of entities and constants, the calls of a builder, and
the changes of operands. -/
inductive Edit where
  | newModule (name : String)
  | newFunction (m : ModuleId) (name : String) (ret : Option Ty) (linked : Bool)
  | linkFunction (m : ModuleId) (f : FuncId)
  | addArgument (f : FuncId) (t : Option Ty) (name : String)
  | finalizeSignature (f : FuncId) (variadic : Bool)
  | newPlaceholder (f : FuncId) (t : Option Ty) (name : String)
  | newBlock (f : FuncId) (name : String) (linked : Bool)
  | appendBlock (f : FuncId) (b : BlockId)
  | newGlobal (m : ModuleId) (name : String) (t : Option Ty) (init : Option Value)
  | setInitializer (g : GlobalId) (init : Option Value)
  | constInt (t : Option Ty) (v : Int64)
  | constFloat (t : Option Ty) (bits : UInt64)
  | undef (t : Option Ty)
  | null (t : Option Ty)
  | insertAt (b : Option BlockId)
  | create (i : Creation)
  | addIncoming (i : InstId) (v : Option Value) (b : Option BlockId)
  | addCase (i : InstId) (k : Option Const) (b : Option BlockId)
  | setOperand (i : InstId) (n : Nat) (v : Option Value)
  | replaceUses (old new : Value)
  | erase (i : InstId)

namespace Edit

/-- Carry an edit out. -/
def run : Edit → Building Unit
  | newModule name => .ofBuild (discard (Build.newModule name))
  | newFunction m name ret linked =>
    .ofBuild (discard
      (if linked then Build.newFunction m name ret else Build.newDetachedFunction m name ret))
  | linkFunction m f => .ofBuild (Build.linkFunction m f)
  | addArgument f t name => .ofBuild (discard (Build.addArgument f t name))
  | finalizeSignature f variadic => .ofBuild (Build.finalizeSignature f variadic)
  | newPlaceholder f t name => .ofBuild (discard (Build.newPlaceholder f t name))
  | newBlock f name linked =>
    .ofBuild (discard (if linked then Build.newBlock f name else Build.newDetachedBlock f name))
  | appendBlock f block => .ofBuild (Build.appendBlock f block)
  | newGlobal m name t init => .ofBuild (discard (Build.newGlobal m name t init))
  | setInitializer g init => .ofBuild (Build.setInitializer g init)
  | constInt t v => .ofBuild (discard (Build.constInt t v))
  | constFloat t bits => .ofBuild (discard (Build.constFloat t bits))
  | undef t => .ofBuild (discard (Build.undef t))
  | null t => .ofBuild (discard (Build.null t))
  | insertAt block => modify fun s => { s with builder := s.builder.insertAt block }
  | create i => discard i.build
  | addIncoming i v block => .ofBuild (Build.addIncoming i v block)
  | addCase i k block => .ofBuild (Build.addCase i k block)
  | setOperand i n v => .ofBuild (Build.setOperand i n v)
  | replaceUses old new => .ofBuild (Build.replaceUses old new)
  | erase i => .ofBuild (Build.erase i)

def values : Edit → List Value
  | linkFunction _ f | addArgument f _ _ | finalizeSignature f _ | newPlaceholder f _ _
  | newBlock f _ _ =>
    [.func f]
  | appendBlock f b => [.func f, .block b]
  | newGlobal _ _ _ init => init.toList
  | setInitializer g init => .global g :: init.toList
  | insertAt b => b.toList.map .block
  | create i => i.operands.filterMap id
  | addIncoming i v b => .inst i :: v.toList ++ b.toList.map .block
  | addCase i k b => .inst i :: k.toList.map .const ++ b.toList.map .block
  | setOperand i _ v => .inst i :: v.toList
  | replaceUses old new => [old, new]
  | erase i => [.inst i]
  | _ => []

/-- An edit is given values of the context, and sets slots that are there. -/
def Applies (c : Context) (e : Edit) : Prop :=
  (∀ v ∈ e.values, c.Tracks v) ∧
    match e with
    | setOperand i n _ => c.HasSlot ⟨i, n⟩
    | _ => True

/-- What an edit does to the threads of uses, from the context before and the context after it. -/
def thread (c d : Context) (t : Threads) : Edit → Threads
  | create _ => t.setFrom ⟨c.insts.size⟩ 0 (d.inst ⟨c.insts.size⟩).operands.toList
  | addIncoming i _ _ | addCase i _ _ =>
    t.setFrom i (c.inst i).operands.size ((d.inst i).operands.toList.drop (c.inst i).operands.size)
  | setOperand i n v => t.set ⟨i, n⟩ v
  | replaceUses old new => if old ≠ new ∧ c.typeOf old = c.typeOf new then t.replace old new else t
  | erase i =>
    if (c.inst i).users = [] ∧ (c.inst i).parent ≠ none then
      t.setFrom i 0 ((c.inst i).operands.toList.map fun _ => none)
    else t
  | _ => t

instance (c : Context) : DecidablePred c.Tracks
  | .const k => inferInstanceAs (Decidable ((c.constIndex? k).isSome = true))
  | .arg a => inferInstanceAs (Decidable (a.index < c.args.size))
  | .inst i => inferInstanceAs (Decidable (i.index < c.insts.size))
  | .block b => inferInstanceAs (Decidable (b.index < c.blocks.size))
  | .func f => inferInstanceAs (Decidable (f.index < c.functions.size))
  | .global g => inferInstanceAs (Decidable (g.index < c.globals.size))

instance (c : Context) (u : Use) : Decidable (c.HasSlot u) :=
  inferInstanceAs (Decidable (u.index < (c.inst u.user).operands.size))

instance (c : Context) (e : Edit) : Decidable (e.Applies c) :=
  match e with
  | setOperand i n v =>
    inferInstanceAs (Decidable ((∀ w ∈ (setOperand i n v).values, c.Tracks w) ∧ c.HasSlot ⟨i, n⟩))
  | newModule .. | newFunction .. | linkFunction .. | addArgument .. | finalizeSignature ..
  | newPlaceholder .. | newBlock .. | appendBlock .. | newGlobal .. | setInitializer ..
  | constInt .. | constFloat .. | undef _ | null _ | insertAt _ | create _ | addIncoming ..
  | addCase .. | replaceUses .. | erase _ =>
    inferInstanceAs (Decidable (_ ∧ True))

end Edit

/-- The state that a computation leaves, whether it is refused or not. -/
def Build.reached {σ α : Type} (x : EStateM ContractError σ α) (s : σ) : σ :=
  match x s with
  | .ok _ t => t
  | .error _ t => t

/-- A program under construction: its context, a builder, and the threads of uses. -/
structure Workshop extends Bench where
  threads : Threads

namespace Workshop

/-- One more edit. Where it is refused, the context stays as far as it came; an edit that does not
apply does nothing. -/
def serve (s : Workshop) (e : Edit) : Workshop :=
  if e.Applies s.context then
    { reached e.run s.toBench with
      threads := e.thread s.context (reached e.run s.toBench).context s.threads }
  else s

def run (es : List Edit) : Workshop := es.foldl serve ⟨⟨.new, {}⟩, .empty⟩

end Workshop

/-! ## What one edit does -/

namespace Threads.Mirrors

variable {t : Threads} {c d : Context}

theorem sameUses (h : t.Mirrors c) (hd : c.SameUses d) : t.Mirrors d := h.congr hd.users hd.slot

theorem emitted (h : t.Mirrors c) (b : BlockId) (op : Operation) (name : String) (type : Ty)
    {operands : List (Option Value)} (hops : ∀ v, some v ∈ operands → c.Tracks v) :
    (t.setFrom ⟨c.insts.size⟩ 0 operands).Mirrors (c.emitted b op name type operands) ∧
      ((c.emitted b op name type operands).inst ⟨c.insts.size⟩).operands.toList = operands := by
  let x : Instruction := { op, name, type, parent := some b }
  have hnew : t.Mirrors (c.withInst x) := h.congr (c.users_withInst rfl) (c.slot_withInst rfl)
  have hlt := c.lt_withInst x
  have hempty : ((c.withInst x).inst ⟨c.insts.size⟩).operands = #[] := by
    rw [inst_withInst, if_pos rfl]
  have hvs : ∀ v, some v ∈ operands → (c.withInst x).Tracks v := fun v hv =>
    tracks_withInst (hops v hv)
  have hadd := hnew.addOperands (i := ⟨c.insts.size⟩) hlt hvs
  rw [hempty] at hadd
  obtain ⟨-, -, -, hoperands⟩ := addOperands_spec hnew.linked (i := ⟨c.insts.size⟩) hlt operands
    fun v hv _ => hvs v hv
  have hkeeps : Context.Keeps SameUses (·.enterInst b (c.newPosition b op) ⟨c.insts.size⟩) := by
    unfold enterInst; infer_instance
  refine ⟨hadd.sameUses (hkeeps.run _), ?_⟩
  show (((c.withInst x).addOperands ⟨c.insts.size⟩ operands).inst ⟨c.insts.size⟩).operands.toList =
    operands
  rw [hoperands, if_pos rfl, hempty, Array.empty_append]

theorem addOperands_drop (h : t.Mirrors c) {i : InstId} (hi : i.index < c.insts.size)
    {vs : List (Option Value)} (hvs : ∀ v, some v ∈ vs → c.Tracks v) :
    (t.setFrom i (c.inst i).operands.size
      (((c.addOperands i vs).inst i).operands.toList.drop (c.inst i).operands.size)).Mirrors
        (c.addOperands i vs) := by
  obtain ⟨-, -, -, hoperands⟩ := addOperands_spec h.linked hi vs fun v hv _ => hvs v hv
  have hdrop :
      ((c.addOperands i vs).inst i).operands.toList.drop (c.inst i).operands.size = vs := by
    rw [hoperands, if_pos rfl, Array.toList_append, ← Array.length_toList, drop_left]
  rw [hdrop]
  exact h.addOperands hi hvs

end Threads.Mirrors

namespace Build

/-- The computation ends with a context, or the refusal leaves everything as it was. -/
def Attempts (x : Build Unit) (c d : Context) : Prop := x c = .ok () d ∨ ∃ e, x c = .error e c

theorem Attempts.require {x : Unit → Build Unit} {c d : Context} (hx : Attempts (x ()) c d)
    (b : Bool)
    (e : ContractError) : Attempts (Build.require b e >>= x) c d := by
  cases b with
  | false => exact .inr ⟨e, rfl⟩
  | true => exact hx

theorem attempts_addIncoming (c : Context) (i : InstId) (v : Option Value) (b : Option BlockId) :
    Attempts (addIncoming i v b) c (c.addOperands i [v, b.map .block]) := by
  refine Attempts.require (x := fun _ => _) ?_ _ _
  cases v with
  | none => exact .inr ⟨_, rfl⟩
  | some v =>
    cases b with
    | none => exact .inr ⟨_, rfl⟩
    | some b =>
      dsimp only
      refine .require ?_ _ _
      exact .inl rfl

theorem attempts_addCase (c : Context) (i : InstId) (k : Option Const) (b : Option BlockId) :
    Attempts (addCase i k b) c (c.addOperands i [k.map .const, b.map .block]) := by
  refine Attempts.require (x := fun _ => _) ?_ _ _
  cases k with
  | none => exact .inr ⟨_, rfl⟩
  | some k =>
    cases b with
    | none => exact .inr ⟨_, rfl⟩
    | some b =>
      dsimp only
      refine .require (.require ?_ _ _) _ _
      exact .inl rfl

end Build

theorem Threads.Mirrors.withoutInst {t : Threads} {c : Context} (h : t.Mirrors c) (i : InstId)
    (b : BlockId) :
    (t.setFrom i 0 ((c.inst i).operands.toList.map fun _ => none)).Mirrors
    (Build.withoutInst c i b) := by
  have hkeeps :
    Context.Keeps SameUses (·.modifyBlock b fun x => { x with insts := x.insts.erase i }) :=
    inferInstance
  have hblock := h.sameUses (hkeeps.run c)
  refine (hblock.dropOperands i).congr (fun v => ?_) fun u => ?_
  · rw [Build.withoutInst, Context.users_modifyInst]
    exact fun _ => rfl
  · rw [Build.withoutInst, Context.slot_modifyInst]
    exact fun _ => rfl

namespace Edit

variable {t : Threads} {c : Context} {s : Bench}

theorem reached_ofBuild {α : Type} {x : Build α} :
    (reached (Building.ofBuild x) s).context = reached x s.context := by
  rw [reached, reached, Building.ofBuild]
  cases x s.context <;> rfl

theorem mirrors_of_keeps {α : Type} {x : Build α} [hx : Build.Keeps SameUses x] (h : t.Mirrors c) :
    t.Mirrors (reached x c) := by
  have hsame := hx.run c
  unfold reached
  cases hrun : x c <;> rw [hrun] at hsame <;> exact h.sameUses hsame

theorem mirrors_create (h : t.Mirrors s.context) {i : Creation}
    (hi : ∀ v ∈ (create i).values, s.context.Tracks v) :
    ((create i).thread s.context (reached (create i).run s).context t).Mirrors
      (reached (create i).run s).context := by
  have hops : ∀ v, some v ∈ i.operands → s.context.Tracks v := fun v hv =>
    hi v (mem_filterMap.mpr ⟨some v, hv, rfl⟩)
  have hmakes := i.makes_build.run s
  rw [thread]
  cases hrun : i.build s with rw [hrun] at hmakes
  | ok j u =>
    obtain ⟨e, block, op, name, type, hlearned, hu⟩ := hmakes
    have hsame := hlearned.calm.toSameUses
    have hafter : (reached (create i).run s).context = e.emitted block op name type i.operands := by
      rw [reached, run, discard_of_ok hrun]
      exact hu
    obtain ⟨hmirrors, hoperands⟩ := (h.sameUses hsame).emitted block op name type
      fun v hv => hsame.tracks (hops v hv)
    rwa [hafter, ← hsame.insts, hoperands]
  | error e u =>
    have hafter : reached (create i).run s = u := by
      rw [reached, run, discard_of_error hrun]
    have hcalm := hmakes.1.calm
    have hempty : (u.context.inst ⟨s.context.insts.size⟩).operands = #[] := by
      rw [inst, Array.getD_of_not_lt _ hcalm.insts.le.not_gt]
      rfl
    rw [hafter, hempty]
    exact h.sameUses hcalm.toSameUses

theorem mirrors_addOperands (h : t.Mirrors c) {i : InstId} {vs : List (Option Value)}
    {x : Build Unit}
    (hi : c.Tracks (.inst i)) (hvs : ∀ v, some v ∈ vs → c.Tracks v)
    (hx : Attempts x c (c.addOperands i vs)) :
    (t.setFrom i (c.inst i).operands.size (((reached x c).inst i).operands.toList.drop
      (c.inst i).operands.size)).Mirrors (reached x c) := by
  rcases hx with hrun | ⟨e, hrun⟩
  · rw [reached, hrun]
    exact h.addOperands_drop hi hvs
  · rw [reached, hrun]
    rwa [← Array.length_toList, drop_length]

theorem mirrors_run (h : t.Mirrors s.context) {e : Edit} (he : e.Applies s.context) :
    (e.thread s.context (reached e.run s).context t).Mirrors (reached e.run s).context := by
  cases e with
  | newModule | newFunction | linkFunction | addArgument | finalizeSignature | newPlaceholder
  | newBlock | appendBlock | newGlobal | setInitializer | constInt | constFloat | undef | null =>
    dsimp only [run, thread]
    rw [reached_ofBuild]
    exact mirrors_of_keeps h
  | insertAt block => exact h
  | create i => exact mirrors_create h he.1
  | addIncoming i v block =>
    rw [run, reached_ofBuild]
    refine mirrors_addOperands h (he.1 _ (.head _)) (fun w hw => ?_)
      (attempts_addIncoming s.context i v block)
    refine he.1 w (.tail _ (mem_append.mpr ?_))
    rcases mem_pair.mp hw with rfl | hw
    · exact .inl (mem_singleton_self w)
    · obtain ⟨block, rfl, rfl⟩ := Option.map_eq_some_iff.mp hw.symm
      exact .inr (mem_singleton_self _)
  | addCase i k block =>
    rw [run, reached_ofBuild]
    refine mirrors_addOperands h (he.1 _ (.head _)) (fun w hw => ?_)
      (attempts_addCase s.context i k block)
    refine he.1 w (.tail _ (mem_append.mpr ?_))
    rcases mem_pair.mp hw with hw | hw
    · obtain ⟨k, rfl, rfl⟩ := Option.map_eq_some_iff.mp hw.symm
      exact .inl (mem_singleton_self _)
    · obtain ⟨block, rfl, rfl⟩ := Option.map_eq_some_iff.mp hw.symm
      exact .inr (mem_singleton_self _)
  | setOperand i n v =>
    refine h.setUse he.2 fun w hw => he.1 w (.tail _ ?_)
    rw [hw]
    exact mem_singleton_self w
  | replaceUses old new =>
    have hnew : s.context.Tracks new := he.1 _ (.tail _ (.head _))
    have hrun := replaceUses_eq s.context old new
    rw [thread, run, reached_ofBuild, reached]
    by_cases heq : old = new
    · rw [if_pos heq] at hrun
      rwa [if_neg fun hand => hand.1 heq, hrun]
    · by_cases htype : s.context.typeOf old = s.context.typeOf new
      · rw [if_neg heq, if_pos htype] at hrun
        rw [if_pos ⟨heq, htype⟩, hrun]
        exact h.replace heq hnew
      · rw [if_neg heq, if_neg htype] at hrun
        rwa [if_neg fun hand => htype hand.2, hrun]
  | erase i =>
    have hrun := erase_eq s.context i
    rw [thread, run, reached_ofBuild, reached]
    by_cases husers : (s.context.inst i).users = []
    · rw [if_pos husers] at hrun
      cases hparent : (s.context.inst i).parent with rw [hparent] at hrun
      | none =>
        rwa [if_neg fun hand => hand.2 rfl, hrun]
      | some block =>
        rw [if_pos ⟨husers, Option.some_ne_none block⟩, hrun]
        exact h.withoutInst i block
    · rw [if_neg husers] at hrun
      rwa [if_neg fun hand => husers hand.1, hrun]

end Edit

namespace Workshop

theorem mirrors_serve {s : Workshop} (h : s.threads.Mirrors s.context) (e : Edit) :
    (s.serve e).threads.Mirrors (s.serve e).context := by
  unfold serve
  split
  · next he => exact Edit.mirrors_run h he
  · exact h

theorem mirrors_run (es : List Edit) : (run es).threads.Mirrors (run es).context := by
  induction es using List.reverseRecOn with
  | nil =>
    show Threads.empty.Mirrors new
    refine ⟨?_, fun u => rfl⟩
    rw [show new.users = fun _ => [] from funext users_new]
    exact Threads.lists_empty
  | append_singleton es e ih =>
    rw [run, foldl_append]
    exact mirrors_serve ih e

/-- After any edits, also refused ones, the uses of each value are a doubly linked list without
repetitions whose length is the recorded number, and they are exactly the slots that refer to the
value. Replacing a value by another one of its type leaves no use of it, puts the other one into
each of its slots, and leaves all other slots alone. -/
theorem threads_mirror_operands (es : List Edit) :
    (∀ v, (run es).threads.Chain v ((run es).context.users v) ∧ ((run es).context.users v).Nodup ∧
      ∀ u, u ∈ (run es).context.users v ↔
        (run es).context.HasSlot u ∧ (run es).context.slot u = some v) ∧
    ∀ old new : Value, (run es).context.Tracks old → (run es).context.Tracks new → old ≠ new →
      (run es).context.typeOf old = (run es).context.typeOf new →
        (run (es ++ [.replaceUses old new])).context.users old = [] ∧
        (run (es ++ [.replaceUses old new])).threads.head old = none ∧
        (run (es ++ [.replaceUses old new])).threads.count old = 0 ∧
        ∀ u, ((run (es ++ [.replaceUses old new])).context.HasSlot u ↔ (run es).context.HasSlot u) ∧
          (run (es ++ [.replaceUses old new])).context.slot u =
            if (run es).context.slot u = some old then some new else (run es).context.slot u := by
  have h := mirrors_run es
  refine ⟨fun v => ⟨h.lists.chain v, h.lists.nodup v, fun u => ?_⟩, ?_⟩
  · rw [h.lists.mem, h.value]
    exact ⟨fun hu => ⟨Context.hasSlot_of_slot hu, hu⟩, And.right⟩
  · intro old new hold hnew hne htype
    have hserve : (run (es ++ [.replaceUses old new])).context =
        (run es).context.moveUses ((run es).context.users old) new := by
      have happlies : (Edit.replaceUses old new).Applies (run es).context := by
        refine ⟨fun v hv => ?_, trivial⟩
        rcases mem_pair.mp hv with rfl | rfl
        · exact hold
        · exact hnew
      have hreplace := Build.replaceUses_eq (run es).context old new
      rw [if_neg hne, if_pos htype] at hreplace
      rw [run, foldl_append]
      show ((run es).serve (.replaceUses old new)).context = _
      rw [serve, if_pos happlies, Edit.run, Edit.reached_ofBuild, reached, hreplace]
    have hafter := mirrors_run (es ++ [.replaceUses old new])
    obtain ⟨hwire, hlinked, hslots⟩ := Context.moveUses_spec h.linked ((run es).context.users old)
      (fun u hu => Context.hasSlot_of_slot ((h.linked.mem_users trivial u).mp hu)) (v := new)
        fun _ => hnew
    have hslot : ∀ u, (run (es ++ [.replaceUses old new])).context.slot u =
        if (run es).context.slot u = some old then some new else (run es).context.slot u := by
      intro u
      rw [hserve, hslots]
      simp only [h.linked.mem_users trivial]
    have husers : (run (es ++ [.replaceUses old new])).context.users old = [] := by
      refine eq_nil_iff_forall_not_mem.mpr fun u hu => ?_
      rw [hafter.linked.mem_users trivial, hslot] at hu
      split at hu
      · exact hne (Option.some.inj hu).symm
      · next hother => exact hother hu
    have hchain := hafter.lists.chain old
    rw [husers] at hchain
    refine ⟨husers, hchain.head, hchain.count, fun u => ⟨?_, hslot u⟩⟩
    rw [hserve]
    exact hwire.hasSlot_iff u

/-- A function that adds a number to itself, multiplies the sum by itself and returns the
product. -/
def doubling : List Edit :=
  [.newModule "m", .newFunction ⟨0⟩ "f" (some (.int .w32)) true,
    .addArgument ⟨0⟩ (some (.int .w32)) "x",
    .finalizeSignature ⟨0⟩ false, .newBlock ⟨0⟩ "entry" true, .insertAt (some ⟨0⟩),
    .create (.binary (.int .add) (some (.arg ⟨0⟩)) (some (.arg ⟨0⟩)) "sum"),
    .create (.binary (.int .mul) (some (.inst ⟨0⟩)) (some (.inst ⟨0⟩)) "product"),
    .create (.ret (some (.inst ⟨1⟩)))]

theorem threads_mirror_operands_doubling :
    (run doubling).context.users (.inst ⟨0⟩) = [⟨⟨1⟩, 1⟩, ⟨⟨1⟩, 0⟩] ∧
      (run (doubling ++ [.replaceUses (.inst ⟨0⟩) (.arg ⟨0⟩)])).context.users (.inst ⟨0⟩) = [] ∧
      (run (doubling ++ [.replaceUses (.inst ⟨0⟩) (.arg ⟨0⟩)])).context.slot ⟨⟨1⟩, 1⟩ =
      some (.arg ⟨0⟩) ∧
      (run (doubling ++ [.replaceUses (.inst ⟨0⟩) (.arg ⟨0⟩)])).context.slot ⟨⟨2⟩, 0⟩ =
      some (.inst ⟨1⟩) := by
  have hbefore :
    (run doubling).context.Tracks (.inst ⟨0⟩) ∧ (run doubling).context.Tracks (.arg ⟨0⟩) ∧
      (run doubling).context.typeOf (.inst ⟨0⟩) = (run doubling).context.typeOf (.arg ⟨0⟩) ∧
      (run doubling).context.users (.inst ⟨0⟩) = [⟨⟨1⟩, 1⟩, ⟨⟨1⟩, 0⟩] ∧
      (run doubling).context.slot ⟨⟨1⟩, 1⟩ = some (.inst ⟨0⟩) ∧
      (run doubling).context.slot ⟨⟨2⟩, 0⟩ = some (.inst ⟨1⟩) := by decide +kernel
  obtain ⟨hold, hnew, htype, huses, hslot, hslot'⟩ := hbefore
  obtain ⟨husers, -, -, hslots⟩ :=
    (threads_mirror_operands doubling).2 (.inst ⟨0⟩) (.arg ⟨0⟩) hold hnew (by decide) htype
  refine ⟨huses, husers, ?_, ?_⟩
  · rw [(hslots _).2, if_pos hslot]
  · rw [(hslots _).2, if_neg (by rw [hslot']; decide), hslot']

/-! ## Forgetting programs -/

/-- What happens to a context: an edit, or all programs are forgotten. -/
inductive Event where
  | edit (e : Edit)
  | reset

def meet (s : Workshop) : Event → Workshop
  | .edit e => s.serve e
  | .reset => { s with context := reached Build.reset s.context }

def history (es : List Event) : Workshop := es.foldl meet ⟨⟨.new, {}⟩, .empty⟩

theorem mirrors_history (es : List Event) : (history es).threads.Mirrors (history es).context := by
  induction es using List.reverseRecOn with
  | nil => exact mirrors_run []
  | append_singleton es e ih =>
    rw [history, foldl_append]
    cases e with
    | edit e => exact mirrors_serve ih e
    | reset => exact ih.congr (fun v => by cases v <;> rfl) fun u => rfl

/-- Forgetting all programs leaves no module, yet every value keeps its uses: a constant, which
lives on, has none afterwards only if no forgotten instruction refers to it. Later, too, the uses of
a value are exactly the slots that refer to it, those of forgotten instructions among them. -/
theorem reset_keeps_users (es fs : List Event) (v : Value) :
    (history (es ++ [.reset])).context.live = [] ∧
    (history (es ++ [.reset])).context.users v = (history es).context.users v ∧
    ((history (es ++ [.reset])).context.users v = [] ↔ ∀ u, (history es).context.slot u ≠ some v) ∧
    ((history (es ++ .reset :: fs)).context.users v).Nodup ∧
    ∀ u, u ∈ (history (es ++ .reset :: fs)).context.users v ↔
      (history (es ++ .reset :: fs)).context.slot u = some v := by
  have hreset : history (es ++ [.reset]) = (history es).meet .reset := foldl_append
  have husers : (history (es ++ [.reset])).context.users v = (history es).context.users v := by
    rw [hreset]
    cases v <;> rfl
  have hbefore := (mirrors_history es).linked
  have hlater := (mirrors_history (es ++ .reset :: fs)).linked
  refine ⟨by rw [hreset]; rfl, husers, ?_, hlater.nodup trivial, hlater.mem_users trivial⟩
  rw [husers, eq_nil_iff_forall_not_mem]
  exact forall_congr' fun u => not_congr (hbefore.mem_users trivial u)

end Workshop

end SsaIr
