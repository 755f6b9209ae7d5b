import SsaIr.Proofs.Graph.Edits

/-!
# Instructions stand where they say

An instruction with a parent stands in that block's list, once, and a linked block in its
function's, once. Together with users that mirror operands this is what the constructors of a
context keep up. Read `Context.Standing` and `Context.Sound` first.
-/

namespace SsaIr

open List

variable {i : InstId}

theorem Instruction.isPhi_iff {x : Instruction} : x.isPhi = true ↔ x.op = .phi := by
  unfold Instruction.isPhi
  cases x.op <;> simp [Operation.isPhi]

namespace Context

/-- Instructions and blocks stand where they say, once. -/
structure Standing (c : Context) : Prop where
  inst_mem : ∀ {i b}, (c.inst i).parent = some b → i ∈ (c.block b).insts
  mem_parent : ∀ {i b}, i ∈ (c.block b).insts → (c.inst i).parent = some b
  insts_nodup : ∀ b, (c.block b).insts.toList.Nodup
  block_mem : ∀ {b}, (c.block b).linked = true → b ∈ (c.func (c.block b).parent).blocks
  mem_block : ∀ {b f}, b ∈ (c.func f).blocks → (c.block b).parent = f ∧ (c.block b).linked = true
  blocks_nodup : ∀ f, (c.func f).blocks.toList.Nodup

/-- Besides, only instructions that stand in a block have operands. -/
structure Placed (c : Context) : Prop extends Standing c where
  operands_parent : ∀ {i}, (c.inst i).operands.size ≠ 0 → (c.inst i).parent.isSome = true

/-- Parents and lists agree, and users mirror operands. -/
structure Sound (c : Context) : Prop extends Placed c where
  linked : c.Linked Value.IsLocal

/-- The names of the arguments of a function and of the results of its instructions. -/
def resultNames (c : Context) (f : FuncId) : List String :=
  (c.func f).args.toList.map (fun x => (c.arg x).name) ++
    (((c.func f).blocks.toList.flatMap fun b => (c.block b).insts.toList).filter
      fun i => !(c.inst i).type.isVoid).map fun i => (c.inst i).name

theorem Placed.flatMap_insts_nodup {c : Context} (h : c.Placed) (f : FuncId) :
    ((c.func f).blocks.toList.flatMap fun b => (c.block b).insts.toList).Nodup := by
  refine nodup_flatMap.mpr ⟨fun b _ => h.insts_nodup b, ?_⟩
  refine (h.blocks_nodup f).imp fun {b b'} hne i hi hi' => hne ?_
  have hparent := h.mem_parent ⟨hi⟩
  rw [h.mem_parent (Array.mem_toList_iff.mp hi')] at hparent
  exact (Option.some.inj hparent).symm

theorem mem_results_iff {c : Context} {f : FuncId} :
    i ∈ (((c.func f).blocks.toList.flatMap fun b => (c.block b).insts.toList).filter
        fun i => !(c.inst i).type.isVoid) ↔
      (∃ b ∈ (c.func f).blocks, i ∈ (c.block b).insts) ∧ (c.inst i).type.isVoid = false := by
  simp only [mem_filter, mem_flatMap, Array.mem_toList_iff, Bool.not_eq_true']

theorem Standing.congr {c d : Context} (h : c.Standing)
    (hinst : ∀ i, (d.inst i).parent = (c.inst i).parent)
    (hinsts : ∀ b, (d.block b).insts = (c.block b).insts)
    (hlinked : ∀ b, (d.block b).linked = (c.block b).linked)
    (hparent : ∀ b, (c.block b).linked = true → (d.block b).parent = (c.block b).parent)
    (hblocks : ∀ f, (d.func f).blocks = (c.func f).blocks) : d.Standing where
  inst_mem hi := by
    rw [hinsts]
    exact h.inst_mem (hinst _ ▸ hi)
  mem_parent hi := by
    rw [hinst]
    exact h.mem_parent (hinsts _ ▸ hi)
  insts_nodup b := by
    rw [hinsts]
    exact h.insts_nodup b
  block_mem hb := by
    rw [hlinked] at hb
    rw [hblocks, hparent _ hb]
    exact h.block_mem hb
  mem_block hb := by
    rw [hblocks] at hb
    rw [hparent _ (h.mem_block hb).2, hlinked]
    exact h.mem_block hb
  blocks_nodup f := by
    rw [hblocks]
    exact h.blocks_nodup f

section Frames

variable {c d : Context}

theorem Placed.exists_parent (h : c.Placed) {v : Option Value}
    (hv : v ∈ (c.inst i).operands) : ∃ b, (c.inst i).parent = some b := by
  have hne : (c.inst i).operands.size ≠ 0 := fun h0 => by
    rw [Array.eq_empty_of_size_eq_zero h0] at hv
    cases Array.not_mem_empty _ hv
  exact Option.isSome_iff_exists.mp (h.operands_parent hne)

section

variable (h : d.frame = c.frame)
include h

theorem inst_of_frame (i : InstId) :
    (d.inst i).op = (c.inst i).op ∧ (d.inst i).name = (c.inst i).name ∧
      (d.inst i).type = (c.inst i).type ∧ (d.inst i).parent = (c.inst i).parent := by
  have hi : (d.inst i).frame = (c.inst i).frame := by
    rw [← frame_inst, h, frame_inst]
  simp only [Instruction.frame, Instruction.mk.injEq] at hi
  exact ⟨hi.1, hi.2.1, hi.2.2.1, hi.2.2.2.1⟩

theorem block_of_frame (b : BlockId) :
    (d.block b).name = (c.block b).name ∧ (d.block b).parent = (c.block b).parent ∧
      (d.block b).linked = (c.block b).linked ∧ (d.block b).insts = (c.block b).insts := by
  have hb : (d.block b).code = (c.block b).code := by
    rw [← frame_block, h, frame_block]
  simp only [Block.code, Block.mk.injEq] at hb
  exact ⟨hb.1, hb.2.1, hb.2.2.1, hb.2.2.2.1⟩

theorem func_of_frame (f : FuncId) : (d.func f).code = (c.func f).code := by
  rw [← frame_func, h, frame_func]

theorem arg_of_frame (a : ArgId) : (d.arg a).code = (c.arg a).code := by
  rw [← frame_arg, h, frame_arg]

theorem global_of_frame (g : GlobalId) : (d.global g).code = (c.global g).code := by
  rw [← frame_global, h, frame_global]

theorem typeOf_of_frame (v : Value) : d.typeOf v = c.typeOf v := by
  rw [← frame_typeOf, h, frame_typeOf]

theorem phis_of_frame (b : BlockId) : d.phis b = c.phis b := by
  rw [← frame_phis, h, frame_phis]

theorem insts_size_of_frame : d.insts.size = c.insts.size := by
  have hsize : ∀ e : Context, e.frame.insts.size = e.insts.size := fun e => Array.size_map
  rw [← hsize, h, hsize]

theorem blocks_size_of_frame : d.blocks.size = c.blocks.size := by
  have hsize : ∀ e : Context, e.frame.blocks.size = e.blocks.size := fun e => Array.size_map
  rw [← hsize, h, hsize]

end

theorem Standing.of_frame (h : c.Standing) (hframe : d.frame = c.frame) : d.Standing := by
  have hinst := fun i => (inst_of_frame hframe i).2.2.2
  have hblock := block_of_frame hframe
  exact h.congr hinst (fun b => (hblock b).2.2.2) (fun b => (hblock b).2.2.1)
    (fun b _ => (hblock b).2.1) fun f => (Function.of_code (func_of_frame hframe f)).1

theorem Placed.of_frame (h : c.Placed) (hframe : d.frame = c.frame)
    (hops : ∀ i, (d.inst i).operands.size ≠ 0 → (c.inst i).parent.isSome = true) : d.Placed where
  toStanding := h.toStanding.of_frame hframe
  operands_parent {i} hi := by
    rw [(inst_of_frame hframe i).2.2.2]
    exact hops i hi

theorem Standing.inst_lt (h : c.Standing) {b : BlockId} (hi : i ∈ (c.block b).insts) :
    i.index < c.insts.size :=
  inst_lt_of_parent (h.mem_parent hi)

theorem Standing.block_lt (h : c.Standing) {b : BlockId} {f : FuncId} (hb : b ∈ (c.func f).blocks) :
    b.index < c.blocks.size :=
  block_lt_of_linked (h.mem_block hb).2

end Frames

/-! ## The head of a block -/

section Body

variable {c : Context} {b : BlockId}

def body (c : Context) (b : BlockId) : List InstId :=
  (c.block b).insts.toList.dropWhile fun i => (c.inst i).isPhi

theorem phis_append_body (c : Context) (b : BlockId) :
    c.phis b ++ c.body b = (c.block b).insts.toList :=
  takeWhile_append_dropWhile

theorem isPhi_of_mem_phis (hi : i ∈ c.phis b) : (c.inst i).isPhi = true :=
  mem_takeWhile_imp (p := fun i => (c.inst i).isPhi) hi

theorem body_head (hi : (c.body b).head? = some i) : (c.inst i).isPhi = false := by
  have hnot := head?_dropWhile_not (fun i => (c.inst i).isPhi) (c.block b).insts.toList
  have hsame : ((c.block b).insts.toList.dropWhile fun i => (c.inst i).isPhi).head? = some i := hi
  rw [hsame] at hnot
  simpa using hnot

/-- Where a block splits into phis and what does not start with one, these are its leading phis and
its body. -/
theorem phis_eq_of_split {l r : List InstId} (h : (c.block b).insts.toList = l ++ r)
    (hl : ∀ i ∈ l, (c.inst i).isPhi = true)
    (hr : ∀ i, r.head? = some i → (c.inst i).isPhi = false) : c.phis b = l ∧ c.body b = r := by
  unfold phis body
  rw [h, takeWhile_append_of_pos hl, dropWhile_append_of_pos hl]
  cases r with
  | nil => exact ⟨append_nil _, rfl⟩
  | cons i r =>
    have hi := hr i rfl
    rw [takeWhile_cons_of_neg (by simp [hi]), dropWhile_cons_of_neg (by simp [hi])]
    exact ⟨append_nil _, rfl⟩

theorem insertIdx_length_append {α : Type} (l r : List α) (x : α) :
    (l ++ r).insertIdx l.length x = l ++ x :: r := by
  induction l with
  | nil => rfl
  | cons y l ih => rw [cons_append, length_cons, insertIdx_succ_cons, ih,
      cons_append]

end Body

/-! ## Making instructions -/

section Emitted

variable {c : Context} {b : BlockId}

theorem toList_insertIdxIfInBounds {α : Type} (xs : Array α) (n : Nat) (x : α) :
    (xs.insertIdxIfInBounds n x).toList = xs.toList.insertIdx n x := by
  obtain ⟨l⟩ := xs
  rw [insertIdxIfInBounds_toArray]

theorem newPosition_le (c : Context) (b : BlockId) (op : Operation) :
    c.newPosition b op ≤ (c.block b).insts.toList.length := by
  unfold newPosition
  split
  · exact (takeWhile_sublist _).length_le
  · exact Array.length_toList.symm.le

theorem inst_emitted_nil (c : Context) (b : BlockId) (op : Operation) (name : String) (type : Ty)
    (j : InstId) : (c.emitted b op name type []).inst j =
      if j.index = c.insts.size then { op, name, type, parent := some b } else c.inst j :=
  inst_withInst c _ j

section

variable (hb : b.index < c.blocks.size) (op : Operation) (name : String) (type : Ty)
include hb

theorem block_emitted_nil (b' : BlockId) : (c.emitted b op name type []).block b' =
      if b = b' then
        { c.block b' with
          insts := (c.block b').insts.insertIdxIfInBounds (c.newPosition b op) ⟨c.insts.size⟩ }
      else c.block b' := by
  have hblock := block_modifyBlock (c.withInst { op, name, type, parent := some b }) b b'
    fun x => { x with insts := x.insts.insertIdxIfInBounds (c.newPosition b op) ⟨c.insts.size⟩ }
  have hsize : b.index < (c.withInst { op, name, type, parent := some b }).blocks.size := hb
  simp only [hsize, and_true] at hblock
  exact hblock

theorem mem_emitted_nil {b' : BlockId} : i ∈ ((c.emitted b op name type []).block b').insts ↔
      i = ⟨c.insts.size⟩ ∧ b = b' ∨ i ∈ (c.block b').insts := by
  rw [block_emitted_nil hb]
  by_cases hbb : b = b'
  · subst hbb
    rw [if_pos rfl, ← Array.mem_toList_iff, toList_insertIdxIfInBounds,
      mem_insertIdx (newPosition_le c b op), Array.mem_toList_iff]
    simp
  · rw [if_neg hbb]
    simp [hbb]

end

theorem Standing.emitted_nil (h : c.Standing) (hb : b.index < c.blocks.size) (op : Operation)
    (name : String) (type : Ty) : (c.emitted b op name type []).Standing := by
  have hnew : ∀ {i : InstId} {b' : BlockId}, i ∈ (c.block b').insts → i.index ≠ c.insts.size :=
    fun hi => (h.inst_lt hi).ne
  have hblock := block_emitted_nil hb op name type
  have hparent : ∀ b', ((c.emitted b op name type []).block b').parent = (c.block b').parent ∧
      ((c.emitted b op name type []).block b').linked = (c.block b').linked := by
    intro b'
    rw [hblock]
    split
    · rename_i hbb
      subst hbb
      exact ⟨rfl, rfl⟩
    · exact ⟨rfl, rfl⟩
  refine ⟨?_, ?_, ?_, ?_, ?_, fun f => h.blocks_nodup f⟩
  · intro i b' hi
    rw [inst_emitted_nil] at hi
    rw [mem_emitted_nil hb]
    split at hi
    · rename_i hsize
      cases hi
      exact .inl ⟨congrArg InstId.mk hsize, rfl⟩
    · exact .inr (h.inst_mem hi)
  · intro i b' hi
    rw [inst_emitted_nil]
    rcases (mem_emitted_nil hb op name type).mp hi with ⟨rfl, rfl⟩ | hi
    · rw [if_pos rfl]
    · rw [if_neg (hnew hi)]
      exact h.mem_parent hi
  · intro b'
    rw [hblock]
    split
    · rename_i hbb
      subst hbb
      rw [toList_insertIdxIfInBounds]
      have hperm := perm_insertIdx (⟨c.insts.size⟩ : InstId) (c.block b).insts.toList
        (newPosition_le c b op)
      rw [hperm.nodup_iff, nodup_cons]
      refine ⟨fun hmem => ?_, h.insts_nodup b⟩
      exact hnew ⟨hmem⟩ rfl
    · exact h.insts_nodup b'
  · intro b' hlinked
    rw [(hparent b').2] at hlinked
    rw [(hparent b').1]
    exact h.block_mem hlinked
  · intro b' f hb'
    rw [(hparent b').1, (hparent b').2]
    exact h.mem_block hb'

theorem Placed.emitted_nil (h : c.Placed) (hb : b.index < c.blocks.size) (op : Operation)
    (name : String) (type : Ty) : (c.emitted b op name type []).Placed where
  toStanding := h.toStanding.emitted_nil hb op name type
  operands_parent {i} hi := by
    rw [inst_emitted_nil] at hi ⊢
    split
    · rfl
    · rename_i hne
      rw [if_neg hne] at hi
      exact h.operands_parent hi

theorem Placed.phis_emitted (h : c.Placed) (hb : b.index < c.blocks.size) (name : String)
    (type : Ty) (b' : BlockId) :
    (c.emitted b .phi name type []).phis b' =
        c.phis b' ++ (if b = b' then [⟨c.insts.size⟩] else []) ∧
      (c.emitted b .phi name type []).body b' = c.body b' := by
  have hold : ∀ i ∈ (c.block b').insts.toList,
      (c.emitted b .phi name type []).inst i = c.inst i := by
    intro i hi
    rw [inst_emitted_nil, if_neg ((h.inst_lt ⟨hi⟩).ne)]
  have hmem := phis_append_body c b'
  refine phis_eq_of_split ?_ ?_ ?_
  · rw [block_emitted_nil hb]
    split
    · rename_i hbb
      subst hbb
      rw [toList_insertIdxIfInBounds, ← hmem]
      have hposition : c.newPosition b .phi = (c.phis b).length := rfl
      rw [hposition, insertIdx_length_append, append_assoc, singleton_append]
    · rw [append_nil, hmem]
  · intro i hi
    rcases mem_append.mp hi with hi | hi
    · rw [hold i (hmem ▸ mem_append_left _ hi)]
      exact isPhi_of_mem_phis hi
    · split at hi
      · rw [mem_singleton.mp hi, inst_emitted_nil, if_pos rfl]
        rfl
      · exact absurd hi not_mem_nil
  · intro i hi
    rw [hold i (hmem ▸ mem_append_right _ (mem_of_mem_head? hi))]
    exact body_head hi

theorem Sound.emitted (h : c.Sound) (hb : b.index < c.blocks.size) (op : Operation) (name : String)
    (type : Ty) (operands : List (Option Value))
    (hops : ∀ v, some v ∈ operands → v.IsLocal → c.Tracks v) :
    (c.emitted b op name type operands).Sound := by
  have hspec := (emitted_spec h.linked b op name type operands hops).1
  have hnil := (emitted_spec h.linked b op name type [] fun v hv => by cases hv).1
  refine ⟨(h.toPlaced.emitted_nil hb op name type).of_frame (hspec.frame_eq.trans
    hnil.frame_eq.symm) fun i hi => ?_, hspec.linked⟩
  rw [hspec.operands_eq] at hi
  rw [inst_emitted_nil]
  split
  · rfl
  · rename_i hne
    rw [if_neg hne] at hi
    exact h.operands_parent hi

end Emitted

end Context

end SsaIr
