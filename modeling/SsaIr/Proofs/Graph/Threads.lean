import SsaIr.Proofs.Graph.Edits

/-!
# Users as doubly linked lists

The uses of a value can be threaded together: each use knows the use before and after it, and each
value its first use and their number. `Threads.link` puts a use at the front and `Threads.unlink`
takes one out, both by changing neighbours alone; `Threads.set` lets a use refer to another value,
and `Threads.replace` walks along the uses of a value while it moves them to another.

Read `Threads.Lists` first: the threads spell lists out. `Threads.Lists.set` says what setting a use
does to the lists, and `Threads.Mirrors` that these are the users of a context, which
`Mirrors.setUse`, `Mirrors.addOperands`, `Mirrors.dropOperands` and `Mirrors.replace` carry along
with its operands.
-/

namespace SsaIr

open Context List

/-- The links between uses of one value, and for each value where they start. -/
structure Threads where
  value : Use → Option Value
  next : Use → Option Use
  prev : Use → Option Use
  head : Value → Option Use
  count : Value → Nat

namespace Threads

def empty : Threads := ⟨fun _ => none, fun _ => none, fun _ => none, fun _ => none, fun _ => 0⟩

def link (t : Threads) (v : Value) (u : Use) : Threads :=
  let t := { t with
    prev := Function.update t.prev u none
    next := Function.update t.next u (t.head v) }
  let t :=
    match t.head v with
    | some w => { t with prev := Function.update t.prev w (some u) }
    | none => t
  { t with
    head := Function.update t.head v (some u)
    count := Function.update t.count v (t.count v + 1) }

def unlink (t : Threads) (v : Value) (u : Use) : Threads :=
  let t :=
    match t.prev u with
    | some p => { t with next := Function.update t.next p (t.next u) }
    | none => { t with head := Function.update t.head v (t.next u) }
  let t :=
    match t.next u with
    | some n => { t with prev := Function.update t.prev n (t.prev u) }
    | none => t
  { t with
    prev := Function.update t.prev u none
    next := Function.update t.next u none
    count := Function.update t.count v (t.count v - 1) }

def set (t : Threads) (u : Use) (v : Option Value) : Threads :=
  let t :=
    match t.value u with
    | some w => t.unlink w u
    | none => t
  let t := { t with value := Function.update t.value u v }
  match v with
  | some w => t.link w u
  | none => t

/-- Let slots of an instruction, from one on, refer to values. -/
def setFrom (t : Threads) (i : InstId) : Nat → List (Option Value) → Threads
  | _, [] => t
  | n, v :: vs => (t.set ⟨i, n⟩ v).setFrom i (n + 1) vs

/-- Let uses refer to a value, from a use on along the thread it is in, for a number of steps. The
next use is looked up before the thread is left. -/
def walk (t : Threads) (v : Value) : Nat → Option Use → Threads × Option Use
  | 0, u => (t, u)
  | _, none => (t, none)
  | n + 1, some u => (t.set u (some v)).walk v n (t.next u)

def replace (t : Threads) (old new : Value) : Threads := (t.walk new (t.count old) (t.head old)).1

/-! ## Lists on a thread -/

/-- The uses follow each other, after one use and before another. -/
def Run (t : Threads) : Option Use → List Use → Option Use → Prop
  | _, [], _ => True
  | p, u :: us, n => t.prev u = p ∧ t.next u = us.head?.or n ∧ t.Run (some u) us n

/-- The uses of a value follow each other from the first to the last, and their number is known. -/
structure Chain (t : Threads) (v : Value) (us : List Use) : Prop where
  head : t.head v = us.head?
  count : t.count v = us.length
  run : t.Run none us none

section Runs

variable {t t' : Threads} {p p' n n' : Option Use} {l r us : List Use}

theorem run_append :
    t.Run p (l ++ r) n ↔ t.Run p l (r.head?.or n) ∧ t.Run (l.getLast?.or p) r n := by
  induction l generalizing p with
  | nil => simp [Run]
  | cons u l ih =>
    have hlast : (u :: l).getLast?.or p = l.getLast?.or (some u) := by
      cases l with
      | nil => rfl
      | cons w l => simp [getLast?_cons]
    rw [cons_append, Run, Run, ih, hlast, head?_append, Option.or_assoc, and_assoc, and_assoc]

theorem Run.congr (h : t.Run p us n) (hprev : ∀ u ∈ us, t'.prev u = t.prev u)
    (hnext : ∀ u ∈ us, t'.next u = t.next u) : t'.Run p us n := by
  induction us generalizing p with
  | nil => trivial
  | cons u us ih =>
    obtain ⟨hp, hn, hrest⟩ := h
    refine ⟨?_, ?_, ?_⟩
    · rw [hprev u (.head _), hp]
    · rw [hnext u (.head _), hn]
    · exact ih hrest (fun w hw => hprev w (.tail _ hw))
        fun w hw => hnext w (.tail _ hw)

theorem Run.retarget_last (h : t.Run p us n) (hnodup : us.Nodup)
    (hprev : ∀ u ∈ us, t'.prev u = t.prev u)
    (hnext : ∀ u ∈ us, t'.next u = if us.getLast? = some u then n' else t.next u) :
    t'.Run p us n' := by
  induction us generalizing p with
  | nil => trivial
  | cons u us ih =>
    obtain ⟨hp, hn, hrest⟩ := h
    obtain ⟨hu, hnodup⟩ := nodup_cons.mp hnodup
    have hfirst := hnext u (.head _)
    refine ⟨by rw [hprev u (.head _), hp], ?_, ?_⟩
    · cases us with
      | nil =>
        rw [hfirst, if_pos getLast?_singleton]
        rfl
      | cons w us =>
        have hne : (u :: w :: us).getLast? ≠ some u := by
          intro hlast
          exact hu (mem_of_getLast? hlast)
        rw [hfirst, if_neg hne, hn]
        rfl
    · refine ih hrest hnodup (fun w hw => hprev w (.tail _ hw)) fun w hw => ?_
      rw [hnext w (.tail _ hw)]
      cases us with
      | nil => cases hw
      | cons x us => rw [getLast?_cons_cons]

theorem Run.retarget_first (h : t.Run p us n) (hnodup : us.Nodup)
    (hnext : ∀ u ∈ us, t'.next u = t.next u)
    (hprev : ∀ u ∈ us, t'.prev u = if us.head? = some u then p' else t.prev u) :
    t'.Run p' us n := by
  cases us with
  | nil => trivial
  | cons u us =>
    obtain ⟨hp, hn, hrest⟩ := h
    obtain ⟨hu, hnodup⟩ := nodup_cons.mp hnodup
    refine ⟨?_, by rw [hnext u (.head _), hn], ?_⟩
    · rw [hprev u (.head _), if_pos head?_cons]
    · refine hrest.congr (fun w hw => ?_) fun w hw => hnext w (.tail _ hw)
      have hne : (u :: us).head? ≠ some w := by
        intro heq
        cases heq
        exact hu hw
      rw [hprev w (.tail _ hw), if_neg hne]

end Runs

/-! ## Linking and unlinking -/

section Neighbours

variable {t : Threads} {v : Value} {u : Use}

section

variable (t : Threads)

theorem link_next (v : Value) (u w : Use) :
    (t.link v u).next w = if w = u then t.head v else t.next w := by
  unfold link
  dsimp only
  split <;> simp only [Function.update_apply]

theorem link_prev (v : Value) (u w : Use) :
    (t.link v u).prev w = if t.head v = some w then some u else if w = u then none
    else t.prev w := by
  unfold link
  dsimp only
  cases hhead : t.head v with
  | none => simp [Function.update_apply]
  | some x => simp [Function.update_apply, eq_comm]

theorem link_head (v w : Value) (u : Use) :
    (t.link v u).head w = if w = v then some u else t.head w := by
  unfold link
  dsimp only
  split <;> simp only [Function.update_apply]

theorem link_count (v w : Value) (u : Use) :
    (t.link v u).count w = if w = v then t.count v + 1 else t.count w := by
  unfold link
  dsimp only
  split <;> simp only [Function.update_apply]

theorem link_value (v : Value) (u : Use) : (t.link v u).value = t.value := by
  unfold link
  dsimp only
  split <;> rfl

theorem unlink_next (v : Value) (u w : Use) : (t.unlink v u).next w =
      if w = u then none else if t.prev u = some w then t.next u else t.next w := by
  unfold unlink
  dsimp only
  cases hp : t.prev u with
  | none =>
    split <;> simp [Function.update_apply]
  | some p =>
    split <;> simp [Function.update_apply, eq_comm]

end

theorem unlink_prev (hprev : t.prev u ≠ some u) (w : Use) : (t.unlink v u).prev w =
      if w = u then none else if t.next u = some w then t.prev u else t.prev w := by
  unfold unlink
  dsimp only
  cases hp : t.prev u with
  | none =>
    cases hn : t.next u with
    | none => simp [Function.update_apply]
    | some n => simp [Function.update_apply, eq_comm, hp]
  | some p =>
    have hne : u ≠ p := fun heq => hprev (heq ▸ hp)
    dsimp only
    rw [Function.update_of_ne hne]
    cases hn : t.next u with
    | none => simp [Function.update_apply]
    | some n => simp [Function.update_apply, eq_comm, hp]

theorem unlink_head (t : Threads) (v w : Value) (u : Use) :
    (t.unlink v u).head w = if w = v ∧ t.prev u = none then t.next u else t.head w := by
  unfold unlink
  dsimp only
  cases hp : t.prev u with
  | none =>
    split <;> simp [Function.update_apply]
  | some p =>
    split <;> simp

theorem unlink_count (t : Threads) (v w : Value) (u : Use) :
    (t.unlink v u).count w = if w = v then t.count v - 1 else t.count w := by
  unfold unlink
  dsimp only
  split <;> split <;> simp [Function.update_apply]

theorem unlink_value (t : Threads) (v : Value) (u : Use) : (t.unlink v u).value = t.value := by
  unfold unlink
  dsimp only
  split <;> split <;> rfl

end Neighbours

/-- The threads spell out one list for each value, of the uses that refer to it. -/
structure Lists (t : Threads) (us : Value → List Use) : Prop where
  chain : ∀ v, t.Chain v (us v)
  nodup : ∀ v, (us v).Nodup
  mem : ∀ v u, u ∈ us v ↔ t.value u = some v

theorem lists_empty : empty.Lists fun _ => [] :=
  ⟨fun _ => ⟨rfl, rfl, trivial⟩, fun _ => nodup_nil, fun _ _ => by simp [empty]⟩

section Lists

variable {t : Threads} {us : Value → List Use} {u : Use} {v : Value}

theorem chain_link (hchain : ∀ w, t.Chain w (us w)) (hnodup : ∀ w, (us w).Nodup)
    (hapart : ∀ {w w' x}, x ∈ us w → x ∈ us w' → w = w') (hu : ∀ w, u ∉ us w) (w : Value) :
    (t.link v u).Chain w (if some v = some w then u :: us w else us w) := by
  have hne : ∀ {w x}, x ∈ us w → x ≠ u := fun hx => ne_of_mem_of_not_mem hx (hu _)
  by_cases hw : w = v
  · subst hw
    rw [if_pos rfl]
    refine ⟨?_, ?_, ?_, ?_, ?_⟩
    · rw [link_head, if_pos rfl]
      rfl
    · rw [link_count, if_pos rfl, (hchain w).count]
      rfl
    · have hhead : t.head w ≠ some u := by
        rw [(hchain w).head]
        exact fun heq => hu w (mem_of_head? heq)
      rw [link_prev, if_neg hhead, if_pos rfl]
    · rw [link_next, if_pos rfl, (hchain w).head, Option.or_none]
    · refine (hchain w).run.retarget_first (hnodup w) (fun x hx => ?_) fun x hx => ?_
      · rw [link_next, if_neg (hne hx)]
      · rw [link_prev, if_neg (hne hx), (hchain w).head]
  · rw [if_neg fun heq => hw (Option.some.inj heq).symm]
    refine ⟨?_, ?_, ?_⟩
    · rw [link_head, if_neg hw, (hchain w).head]
    · rw [link_count, if_neg hw, (hchain w).count]
    · refine (hchain w).run.congr (fun x hx => ?_) fun x hx => ?_
      · have hhead : t.head v ≠ some x := by
          rw [(hchain v).head]
          exact fun heq => hw (hapart hx (mem_of_head? heq))
        rw [link_prev, if_neg hhead, if_neg (hne hx)]
      · rw [link_next, if_neg (hne hx)]

theorem chain_unlink (h : t.Lists us) (hu : t.value u = some v) (w : Value) :
    (t.unlink v u).Chain w (without us u (some v) w) := by
  have hmem := (h.mem v u).mpr hu
  obtain ⟨l, r, hsplit⟩ := append_of_mem hmem
  have hnodup := h.nodup v
  rw [hsplit] at hnodup
  obtain ⟨hl, hr, hlr⟩ := nodup_append.mp hnodup
  obtain ⟨hur, hr⟩ := nodup_cons.mp hr
  have hul : u ∉ l := fun hmem => hlr u hmem u (.head _) rfl
  -- the neighbours of the use are the last before it and the first after it
  have hrun := (h.chain v).run
  rw [hsplit, run_append, Run, Option.or_none, Option.or_none, Option.or_none] at hrun
  obtain ⟨hbefore, hprev, hnext, hafter⟩ := hrun
  have hself : t.prev u ≠ some u := by
    rw [hprev]
    exact fun heq => hul (mem_of_getLast? heq)
  by_cases hw : w = v
  · subst hw
    have herase : (us w).erase u = l ++ r := by
      rw [hsplit, erase_append_right _ hul, erase_cons_head]
    rw [without, if_pos rfl, herase]
    refine ⟨?_, ?_, run_append.mpr ⟨?_, ?_⟩⟩
    · rw [unlink_head, hprev, hnext, (h.chain w).head, hsplit]
      cases l with
      | nil => rw [if_pos ⟨rfl, rfl⟩]; rfl
      | cons x l => rw [if_neg (by simp)]; rfl
    · rw [unlink_count, if_pos rfl, (h.chain w).count, hsplit, length_append, length_append,
        length_cons]
      omega
    · refine hbefore.retarget_last hl (fun x hx => ?_) fun x hx => ?_
      · have hx' : t.next u ≠ some x := by
          rw [hnext]
          exact fun heq => hlr x hx x (.tail _ (mem_of_head? heq)) rfl
        rw [unlink_prev hself, if_neg (ne_of_mem_of_not_mem hx hul), if_neg hx']
      · rw [unlink_next, if_neg (ne_of_mem_of_not_mem hx hul), hprev, hnext, Option.or_none]
    · refine hafter.retarget_first hr (fun x hx => ?_) fun x hx => ?_
      · have hx' : t.prev u ≠ some x := by
          rw [hprev]
          exact fun heq => hlr x (mem_of_getLast? heq) x (.tail _ hx) rfl
        rw [unlink_next, if_neg (ne_of_mem_of_not_mem hx hur), if_neg hx']
      · rw [unlink_prev hself, if_neg (ne_of_mem_of_not_mem hx hur), hprev, hnext, Option.or_none]
  · have hother : ∀ {x}, x ∈ us w → x ∉ us v := by
      intro x hx hx'
      rw [h.mem] at hx hx'
      exact hw (Option.some.inj (hx.symm.trans hx'))
    rw [without, if_neg fun heq => hw (Option.some.inj heq).symm]
    refine ⟨?_, ?_, (h.chain w).run.congr (fun x hx => ?_) fun x hx => ?_⟩
    · rw [unlink_head, if_neg fun hand => hw hand.1, (h.chain w).head]
    · rw [unlink_count, if_neg hw, (h.chain w).count]
    · have hx' : t.next u ≠ some x := by
        rw [hnext]
        intro heq
        refine hother hx ?_
        rw [hsplit]
        exact mem_append_right _ (.tail _ (mem_of_head? heq))
      rw [unlink_prev hself, if_neg (ne_of_mem_of_not_mem hmem (hother hx)).symm, if_neg hx']
    · have hx' : t.prev u ≠ some x := by
        rw [hprev]
        intro heq
        refine hother hx ?_
        rw [hsplit]
        exact mem_append_left _ (mem_of_getLast? heq)
      rw [unlink_next, if_neg (ne_of_mem_of_not_mem hmem (hother hx)).symm, if_neg hx']

theorem set_value (t : Threads) (u : Use) (v : Option Value) :
    (t.set u v).value = Function.update t.value u v := by
  have hunlink : (match t.value u with | some w => t.unlink w u | none => t).value = t.value := by
    split
    · exact unlink_value t _ u
    · rfl
  unfold set
  dsimp only
  cases v with
  | none => rw [hunlink]
  | some w => rw [link_value, hunlink]

theorem Lists.set (h : t.Lists us) (u : Use) (v : Option Value) :
    (t.set u v).Lists (moved us u (t.value u) v) := by
  have hmoved := fun w => nodup_moved (h.nodup w) (h.mem w) u v
  refine ⟨fun w => ?_, fun w => (hmoved w).1, fun w x => by rw [set_value]; exact (hmoved w).2 x⟩
  -- without the use, the lists are those of the other uses
  have hmem := fun {w x} => mem_without_iff (h.nodup w) (h.mem w) (u := u) (x := x)
  let cut : Threads := match t.value u with | some w => t.unlink w u | none => t
  have hcut : ∀ w, cut.Chain w (without us u (t.value u) w) := by
    intro w
    simp only [cut]
    cases hu : t.value u with
    | none => exact h.chain w
    | some x => exact chain_unlink h hu w
  have hchain : ∀ w, ({ cut with value := Function.update cut.value u v } : Threads).Chain w
      (without us u (t.value u) w) := fun w =>
    ⟨(hcut w).head, (hcut w).count, (hcut w).run.congr (fun _ _ => rfl) fun _ _ => rfl⟩
  cases v with
  | none => exact hchain w
  | some v =>
    exact chain_link hchain (fun w => (nodup_without (h.nodup w) u _).1)
      (fun hx hx' => Option.some.inj ((hmem.mp hx).2.symm.trans (hmem.mp hx').2))
      (fun w hu => (hmem.mp hu).1 rfl) w

end Lists

/-! ## The users of a context -/

/-- The threads spell out the users of all values of a context, and uses refer to its operands. -/
structure Mirrors (t : Threads) (c : Context) : Prop where
  lists : t.Lists c.users
  value : ∀ u, t.value u = c.slot u

namespace Mirrors

variable {t : Threads} {c d : Context}

section

variable (h : t.Mirrors c)
include h

theorem congr (husers : ∀ v, d.users v = c.users v) (hslot : ∀ u, d.slot u = c.slot u) :
    t.Mirrors d :=
  ⟨(funext husers : d.users = c.users) ▸ h.lists, fun u => (h.value u).trans (hslot u).symm⟩

theorem linked : c.Linked fun _ => True :=
  ⟨fun _ => h.lists.nodup _, fun _ u => by rw [h.lists.mem, h.value]⟩

theorem setUse {u : Use} (hu : c.HasSlot u) {v : Option Value}
    (hv : ∀ w, v = some w → c.Tracks w) : (t.set u v).Mirrors (c.setUse u v) := by
  refine ⟨?_, fun u' => ?_⟩
  · have husers : (c.setUse u v).users = moved c.users u (t.value u) v := by
      funext w
      rw [Context.users_setUse c u (hv w), h.value]
    rw [husers]
    exact h.lists.set u v
  · rw [set_value, Context.slot_setUse hu, Function.update_apply, h.value]
    by_cases huu : u' = u
    · rw [if_pos huu, if_pos huu.symm]
    · rw [if_neg huu, if_neg (Ne.symm huu)]

theorem addOperand {i : InstId} (hi : i.index < c.insts.size) {v : Option Value}
    (hv : ∀ w, v = some w → c.Tracks w) :
    (t.set ⟨i, (c.inst i).operands.size⟩ v).Mirrors (c.addOperand i v) := by
  refine ⟨?_, fun u' => ?_⟩
  · have husers : (c.addOperand i v).users =
        moved c.users ⟨i, (c.inst i).operands.size⟩ (t.value ⟨i, (c.inst i).operands.size⟩) v := by
      funext w
      rw [Context.users_addOperand c i (hv w), h.value, Context.slot_new]
      rfl
    rw [husers]
    exact h.lists.set _ v
  · rw [set_value, Context.slot_addOperand hi, Function.update_apply, h.value]

theorem addOperands {i : InstId} (hi : i.index < c.insts.size) {vs : List (Option Value)}
    (hvs : ∀ v, some v ∈ vs → c.Tracks v) :
    (t.setFrom i (c.inst i).operands.size vs).Mirrors (c.addOperands i vs) := by
  induction vs generalizing t c with
  | nil => exact h
  | cons v vs ih =>
    have hadd := h.addOperand hi (v := v) fun w hw => hvs w (hw ▸ (.head _))
    obtain ⟨hframe, -, htracks, hops⟩ := addOperands_spec h.linked hi [v]
      fun w hw _ => hvs w (mem_singleton.mp hw ▸ (.head _))
    have hsize : ((c.addOperand i v).inst i).operands.size = (c.inst i).operands.size + 1 := by
      rw [show c.addOperand i v = c.addOperands i [v] from rfl, hops i, if_pos rfl,
        Array.size_append]
      rfl
    have hlt : i.index < (c.addOperand i v).insts.size := (htracks (.inst i)).mpr hi
    have hrest := ih hadd hlt fun w hw => (htracks w).mpr (hvs w (.tail _ hw))
    rwa [hsize] at hrest

end

end Mirrors

/-- Clearing slots of an instruction one after the other takes them out of the users of what they
refer to. -/
theorem Lists.setFrom_none {t : Threads} {c : Context} (h : t.Lists c.users) (i : InstId) (n : Nat)
    (vs : List (Option Value)) (hvs : ∀ k v, vs[k]? = some v → t.value ⟨i, n + k⟩ = v) :
    (t.setFrom i n (vs.map fun _ => none)).Lists (c.unlinkAll i (vs.zipIdx n)).users ∧
      ∀ u, (t.setFrom i n (vs.map fun _ => none)).value u =
        if u.user = i ∧ n ≤ u.index ∧ u.index < n + vs.length then none else t.value u := by
  induction vs generalizing t c n with
  | nil =>
    refine ⟨h, fun u => ?_⟩
    rw [if_neg]
    · rfl
    · rintro ⟨-, hle, hlt⟩
      exact absurd hlt (Nat.not_lt.mpr hle)
  | cons v vs ih =>
    have hfirst : t.value ⟨i, n⟩ = v := hvs 0 v rfl
    have hset : (t.set ⟨i, n⟩ none).Lists (c.unlinkUse v ⟨i, n⟩).users := by
      have husers : (c.unlinkUse v ⟨i, n⟩).users = moved c.users ⟨i, n⟩ (t.value ⟨i, n⟩) none := by
        funext w
        rw [Context.users_unlinkUse, hfirst]
        rfl
      rw [husers]
      exact h.set _ _
    obtain ⟨hlists, hvalue⟩ := ih hset (n + 1) fun k w hk => by
      rw [set_value, Function.update_of_ne]
      · rw [← hvs (k + 1) w hk, Nat.add_assoc, Nat.add_comm 1 k]
      · intro heq
        have := congrArg Use.index heq
        simp only at this
        omega
    refine ⟨hlists, fun u => (hvalue u).trans ?_⟩
    rw [set_value, Function.update_apply, length_cons]
    cases u with | mk j m =>
    by_cases hj : j = i
    · subst hj
      by_cases hm : m = n
      · subst hm
        simp
      · have hne : (⟨j, m⟩ : Use) ≠ ⟨j, n⟩ := fun heq => hm (congrArg Use.index heq)
        rw [if_neg hne]
        have hiff : (n + 1 ≤ m ∧ m < n + 1 + vs.length) ↔
            (n ≤ m ∧ m < n + (vs.length + 1)) := by omega
        simp only [true_and, hiff]
    · have hne : (⟨j, m⟩ : Use) ≠ ⟨i, n⟩ := fun heq => hj (congrArg Use.user heq)
      simp only [hj, hne, false_and, if_false]

namespace Mirrors

variable {t : Threads} {c : Context}

theorem dropOperands (h : t.Mirrors c) (i : InstId) :
    (t.setFrom i 0 ((c.inst i).operands.toList.map fun _ => none)).Mirrors (c.dropOperands i) := by
  obtain ⟨hlists, hvalue⟩ := h.lists.setFrom_none i 0 (c.inst i).operands.toList <| by
    intro k v hk
    rw [h.value, Nat.zero_add, slot, Instruction.operand, Array.getD_eq_getD_getElem?,
      ← Array.getElem?_toList, hk]
    rfl
  refine ⟨?_, fun u => ?_⟩
  · have husers :
        (c.dropOperands i).users = (c.unlinkAll i ((c.inst i).operands.toList.zipIdx)).users := by
      funext v
      rw [dropOperands_eq, clearOperands, users_modifyInst]
      exact fun _ => rfl
    rwa [husers]
  · rw [hvalue, h.value, slot_dropOperands]
    by_cases hu : u.user = i
    · split
      · rfl
      · next hout =>
          rw [slot, hu, Instruction.operand, Array.getD_of_not_lt]
          rw [Array.length_toList] at hout
          exact fun hlt => hout ⟨hu, Nat.zero_le _, by omega⟩
    · rw [if_neg hu, if_neg fun hand => hu hand.1]

/-- Walking along the uses of a value while they are moved visits each of them and comes to the
end. -/
theorem walk {old new : Value} {us : List Use} (h : t.Mirrors c) (hne : old ≠ new)
    (hnew : c.Tracks new)
    (hus : c.users old = us) :
    (t.walk new us.length us.head?).2 = none ∧
      (t.walk new us.length us.head?).1.Mirrors (c.moveUses us new) := by
  induction us generalizing t c with
  | nil => exact ⟨rfl, h⟩
  | cons u us ih =>
    have hslot : c.slot u = some old := by
      rw [← h.value, ← h.lists.mem, hus]
      exact .head _
    have hset : (t.set u (some new)).Mirrors (c.setUse u (some new)) := by
      refine h.setUse (hasSlot_of_slot hslot) fun w hw => ?_
      cases hw
      exact hnew
    have hrest : (c.setUse u (some new)).users old = us := by
      rw [users_setUse c u fun heq => absurd (Option.some.inj heq).symm hne, moved,
        if_neg fun heq => hne (Option.some.inj heq).symm, without, if_pos hslot, hus,
          erase_cons_head]
    have hnext : t.next u = us.head? := by
      have hrun := (h.lists.chain old).run
      rw [hus] at hrun
      rw [hrun.2.1, Option.or_none]
    have hgo := ih hset ((tracks_setUse c u (some new) new).mpr hnew) hrest
    rwa [length_cons, head?_cons, Threads.walk, hnext]

theorem replace {old new : Value} (h : t.Mirrors c) (hne : old ≠ new) (hnew : c.Tracks new) :
    (t.replace old new).Mirrors (c.moveUses (c.users old) new) := by
  have hwalk := (h.walk hne hnew rfl).2
  rwa [Threads.replace, (h.lists.chain old).count, (h.lists.chain old).head]

end Mirrors

end Threads

end SsaIr
