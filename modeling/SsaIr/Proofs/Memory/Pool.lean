import SsaIr.Proofs.Memory.Arenas

/-!
# Arenas that share an address space

A pool is a number of arenas in one address space, together with the ranges that they handed out and
did not take back. `Pool.Sound` is what every request keeps up as long as addresses do not run out:
chunks lie apart and belong to one arena each, capacities are sums of chunk sizes, and live ranges
lie in allocated memory, apart from each other. Read `Pool.Sound` and `Pool.Sound.step` first.
-/

namespace SsaIr

open List

/-! ## Pools and requests -/

/-- A range handed out. -/
structure Grant where
  arena : Nat
  address : UInt64
  size : Int64
deriving DecidableEq, Repr

/-- Arenas in one address space, and the ranges that they have handed out. -/
structure Pool where
  space : Space := {}
  arenas : List Arena := []
  live : List Grant := []
  /-- The addresses reserved so far, counted without wrapping around. -/
  reserved : Nat := 0

structure Payload where
  bytes : List UInt8
  length_lt : bytes.length < 0x8000000000000000

inductive Demand where
  | alloc (size align : Int64)
  | copy (data : Payload) (align : Int64)
  | text (s : String) (length_lt : (Text.toBytes s).length < 0x8000000000000000)
  | write (address : UInt64) (data : Payload)
  | reset
  | destroy
  | setLimit (limit : Int64)

inductive Request where
  | create (o : ArenaOptions)
  | ask (arena : Nat) (d : Demand)

namespace Demand

def after {α : Type} : EStateM.Result MemoryError Heap α → Heap
  | .ok _ h => h
  | .error _ h => h

/-- The range that an operation handed out, if it succeeded. -/
def granted (size : Int64) : EStateM.Result MemoryError Heap UInt64 → Option (UInt64 × Int64)
  | .ok address _ => some (address, size)
  | .error _ _ => none

def apply (h : Heap) : Demand → Heap
  | alloc size align => after (Arena.alloc size align h)
  | copy data align => after (Arena.copy data.bytes align h)
  | text s _ => after (Arena.copyText s h)
  | write address data => after (Arena.write address data.bytes h)
  | reset => Arena.reset h
  | destroy => Arena.destroy h
  | setLimit limit => { h with arena := { h.arena with limit } }

def range? (h : Heap) : Demand → Option (UInt64 × Int64)
  | alloc size align => granted size (Arena.alloc size align h)
  | copy data align => granted (Int64.ofNat data.bytes.length) (Arena.copy data.bytes align h)
  | text s _ =>
    if s = "" then none
    else granted (Int64.ofNat (Text.toBytes s).length) (Arena.copy (Text.toBytes s) 1 h)
  | _ => none

/-- The demand ends the life of all the arena handed out. -/
def frees : Demand → Bool
  | reset | destroy => true
  | _ => false

end Demand

namespace Pool

/-- The arena at a place of a pool becomes another, with its address space. -/
def put (p : Pool) (i : Nat) (h : Heap) : Pool :=
  { p with
    space := h.space
    arenas := p.arenas.set i h.arena
    reserved := p.reserved + (h.space.next - p.space.next).toNat }

section

variable (p : Pool) (i : Nat) (h : Heap)
include h

@[simp]
theorem put_space : (p.put i h).space = h.space := rfl

@[simp]
theorem put_arenas : (p.put i h).arenas = p.arenas.set i h.arena := rfl

theorem put_reserved :
    (p.put i h).reserved = p.reserved + (h.space.next - p.space.next).toNat := rfl

@[simp]
theorem put_live : (p.put i h).live = p.live := rfl

end

def forget (p : Pool) (i : Nat) : Pool := { p with live := p.live.filter fun g => g.arena ≠ i }

def grant (p : Pool) (g : Grant) : Pool := { p with live := g :: p.live }

def handOut (p : Pool) (i : Nat) : Option (UInt64 × Int64) → Pool
  | none => p
  | some (address, size) => p.grant { arena := i, address, size }

/-- Few enough addresses were reserved that no sum of them wraps around. -/
def Roomy (p : Pool) : Prop := p.reserved < 0x4000000000000000

/-- The pool after a request. Requests to arenas that are not there do nothing. -/
def step (p : Pool) : Request → Pool
  | .create o => { p with arenas := p.arenas ++ [Arena.new o] }
  | .ask i d =>
    match p.arenas[i]? with
    | none => p
    | some a =>
      let h : Heap := { space := p.space, arena := a }
      ((if d.frees then p.forget i else p).put i (d.apply h)).handOut i (d.range? h)

/-- The pool after requests, from an empty address space. -/
def run (rs : List Request) : Pool := rs.foldl step {}

end Pool

/-! ## What pools keep up -/

/-- The range lies in the allocated part of a chunk. -/
structure Grant.In (g : Grant) (c : Chunk) : Prop where
  nonneg : 0 ≤ g.size.toInt
  low : (c.base.toNat : Int) + c.top.toInt ≤ g.address.toNat
  high : (g.address.toNat : Int) + g.size.toInt ≤ c.base.toNat + c.size.toInt

def Grant.Apart (g g' : Grant) : Prop :=
  g.address.toNat + g.size.toInt.toNat ≤ g'.address.toNat ∨
    g'.address.toNat + g'.size.toInt.toNat ≤ g.address.toNat

def Grant.Within (s : Space) (as : List Arena) (g : Grant) : Prop :=
  ∃ a, as[g.arena]? = some a ∧ ∃ c ∈ s.chunks, c.base ∈ a.held ∧ g.In c

structure Arena.Sound (s : Space) (a : Arena) : Prop where
  aligned : isPowerOfTwo a.minAlign = true
  counted : a.capacity.toInt = (a.held.map s.sizeAt).sum

structure Pool.Sound (p : Pool) : Prop where
  laid : p.space.Laid
  next : p.space.next.toNat = firstBase.toNat + p.reserved
  held : (p.arenas.flatMap Arena.held).Perm (p.space.chunks.map Chunk.base)
  arena : ∀ a ∈ p.arenas, a.Sound p.space
  within : ∀ g ∈ p.live, g.Within p.space p.arenas
  apart : p.live.Pairwise Grant.Apart

namespace Space

variable {s : Space}

theorem sizeAt_modifyChunk {base : UInt64} {f : Chunk → Chunk} (hbase : ∀ c, (f c).base = c.base)
    (hsize : ∀ c, (f c).size = c.size) (x : UInt64) :
    (s.modifyChunk base f).sizeAt x = s.sizeAt x := by
  unfold sizeAt chunk?
  rw [s.find?_modifyChunk base hbase (· = x), Option.map_map]
  congr 2
  funext c
  simp only [Function.comp_apply]
  split
  · rw [hsize]
  · rfl

theorem bases_modifyChunk {base : UInt64} {f : Chunk → Chunk} (hbase : ∀ c, (f c).base = c.base) :
    (s.modifyChunk base f).chunks.map Chunk.base = s.chunks.map Chunk.base := by
  unfold modifyChunk
  rw [map_map]
  refine map_congr_left fun c _ => ?_
  simp only [Function.comp_apply]
  split
  · rw [hbase]
  · rfl

theorem sum_size_le {l : List Chunk} {bound : Nat} (hpair : l.Pairwise fun c d => Before d c)
    (hbound : ∀ c ∈ l, c.base.toNat + c.size.toInt.toNat + 4096 ≤ bound) :
    (l.map fun c => c.size.toInt.toNat).sum ≤ bound := by
  induction l generalizing bound with
  | nil => exact Nat.zero_le _
  | cons c l ih =>
    obtain ⟨hc, hpair⟩ := pairwise_cons.mp hpair
    have hrest := ih hpair hc
    have hhead := hbound c (.head _)
    rw [map_cons, sum_cons]
    omega

end Space

theorem split_of_getElem? {α : Type} {l : List α} {i : Nat} {a : α} (h : l[i]? = some a) :
    ∃ pre post, l = pre ++ a :: post ∧ ∀ b, l.set i b = pre ++ b :: post := by
  obtain ⟨hi, rfl⟩ := List.getElem?_eq_some_iff.mp h
  refine ⟨l.take i, l.drop (i + 1), ?_, fun b => set_eq_take_append_cons_drop.trans (if_pos hi)⟩
  rw [← drop_eq_getElem_cons hi, take_append_drop]

/-! ## Changes that keep a pool sound -/

namespace Pool

variable {p : Pool} {i : Nat} {a b : Arena} {base : UInt64}

theorem sound_empty : ({} : Pool).Sound where
  laid := Space.laid_empty
  next := rfl
  held := .nil
  arena _ h := nomatch h
  within _ h := nomatch h
  apart := .nil

theorem Sound.exists_chunk (hp : p.Sound) (ha : a ∈ p.arenas) (hbase : base ∈ a.held) :
    ∃ c ∈ p.space.chunks, c.base = base := by
  have hmem : base ∈ p.arenas.flatMap Arena.held := mem_flatMap.mpr ⟨a, ha, hbase⟩
  exact mem_map.mp (hp.held.mem_iff.mp hmem)

theorem Sound.held_nodup (hp : p.Sound) : (p.arenas.flatMap Arena.held).Nodup :=
  hp.held.nodup_iff.mpr hp.laid.bases_nodup

theorem Sound.place_unique (hp : p.Sound) {j : Nat} (ha : p.arenas[i]? = some a)
    (hb : p.arenas[j]? = some b) (hbase : base ∈ a.held) (hbase' : base ∈ b.held) : i = j := by
  have hpair := (nodup_flatMap.mp hp.held_nodup).2
  obtain ⟨hi, rfl⟩ := List.getElem?_eq_some_iff.mp ha
  obtain ⟨hj, rfl⟩ := List.getElem?_eq_some_iff.mp hb
  rw [pairwise_iff_getElem] at hpair
  by_contra hne
  rcases Nat.lt_or_gt_of_ne hne with hlt | hlt
  · exact hpair i j hi hj hlt hbase hbase'
  · exact hpair j i hj hi hlt hbase' hbase

theorem Sound.capacity_le (hp : p.Sound) (ha : a ∈ p.arenas) :
    0 ≤ a.capacity.toInt ∧ a.capacity.toInt ≤ p.space.next.toNat := by
  have hsize : ∀ n ∈ (p.arenas.flatMap Arena.held).map p.space.sizeAt, 0 ≤ n := fun n hn => by
    obtain ⟨x, _, rfl⟩ := mem_map.mp hn
    exact hp.laid.sizeAt_nonneg x
  have hsub : (a.held.map p.space.sizeAt).Sublist
    ((p.arenas.flatMap Arena.held).map p.space.sizeAt) :=
    (sublist_flatten_of_mem (mem_map_of_mem ha)).map _
  have hall : ((p.arenas.flatMap Arena.held).map p.space.sizeAt).sum ≤ p.space.next.toNat := by
    have hcast : (p.space.chunks.map Chunk.base).map p.space.sizeAt =
        (p.space.chunks.map fun c => c.size.toInt.toNat).map fun n : Nat => (n : Int) := by
      rw [map_map, map_map]
      refine map_congr_left fun c hc => ?_
      have := (hp.laid.sound c hc).size_nonneg
      simp only [Function.comp_apply, hp.laid.sizeAt_base hc]
      omega
    rw [(hp.held.map _).sum_eq, hcast, ← Nat.cast_list_sum]
    exact_mod_cast Space.sum_size_le hp.laid.apart hp.laid.below
  rw [(hp.arena a ha).counted]
  exact ⟨sum_nonneg fun n hn => hsize n (hsub.subset hn), (hsub.sum_le_sum hsize).trans hall⟩

theorem within_set {s t : Space} {as : List Arena} (ha : as[i]? = some a) (hsub : a.held ⊆ b.held)
    {g : Grant} (hg : g.Within s as)
    (hchunks : ∀ c ∈ s.chunks, g.In c → ∃ d ∈ t.chunks, d.base = c.base ∧ g.In d) :
    g.Within t (as.set i b) := by
  obtain ⟨y, hy, c, hc, hbase, hin⟩ := hg
  obtain ⟨d, hd, heq, hin⟩ := hchunks c hc hin
  by_cases hij : i = g.arena
  · subst hij
    cases ha.symm.trans hy
    have hi := (List.getElem?_eq_some_iff.mp ha).1
    exact ⟨b, by rw [getElem?_set_self hi], d, hd, heq ▸ hsub hbase, hin⟩
  · exact ⟨y, by rw [getElem?_set_ne hij]; exact hy, d, hd, heq ▸ hbase, hin⟩

section

variable (hp : p.Sound)
include hp

theorem Sound.rearm (ha : p.arenas[i]? = some a) (hheld : b.held = a.held)
    (hcapacity : b.capacity = a.capacity) (halign : b.minAlign = a.minAlign) :
    Sound { p with arenas := p.arenas.set i b } := by
  refine ⟨hp.laid, hp.next, ?_, fun x hx => ?_, fun g hg => ?_, hp.apart⟩
  · obtain ⟨pre, post, hsplit, hset⟩ := split_of_getElem? ha
    have hperm := hp.held
    rw [hsplit] at hperm
    simpa [hset, hheld] using hperm
  · rcases mem_or_eq_of_mem_set hx with hx | rfl
    · exact hp.arena x hx
    · have hsound := hp.arena a (mem_of_getElem? ha)
      exact ⟨by rw [halign]; exact hsound.aligned, by rw [hcapacity, hheld]; exact hsound.counted⟩
  · exact within_set ha (hheld ▸ List.Subset.refl _) (hp.within g hg) fun c hc hin =>
      ⟨c, hc, rfl, hin⟩

theorem Sound.modifyChunk {f : Chunk → Chunk}
    (hbase : ∀ c, (f c).base = c.base) (hsize : ∀ c, (f c).size = c.size)
    (hsound : ∀ c ∈ p.space.chunks, c.base = base → (f c).Sound)
    (hin : ∀ c ∈ p.space.chunks, c.base = base → ∀ g ∈ p.live, ∀ b, p.arenas[g.arena]? = some b →
      base ∈ b.held → g.In c → g.In (f c)) :
    Sound { p with space := p.space.modifyChunk base f } where
  laid := hp.laid.modifyChunk hbase hsize hsound
  next := hp.next
  held := by
    rw [Space.bases_modifyChunk hbase]
    exact hp.held
  arena x hx := by
    have hx := hp.arena x hx
    refine ⟨hx.aligned, hx.counted.trans ?_⟩
    exact congrArg List.sum
      (map_congr_left fun y _ => (Space.sizeAt_modifyChunk hbase hsize y).symm)
  within g hg := by
    obtain ⟨b, hb, c, hc, hheld, hg_in⟩ := hp.within g hg
    refine ⟨b, hb, _, mem_map_of_mem hc, ?_⟩
    by_cases heq : c.base = base
    · rw [if_pos heq]
      exact ⟨by rw [hbase]; exact hheld, hin c hc heq g hg b hb (heq ▸ hheld) hg_in⟩
    · rw [if_neg heq]
      exact ⟨hheld, hg_in⟩
  apart := hp.apart

theorem Sound.grant {g : Grant} (hg : g.Within p.space p.arenas)
    (hapart : ∀ g' ∈ p.live, g.Apart g') : (p.grant g).Sound :=
  { hp with
    within := forall_mem_cons.mpr ⟨hg, hp.within⟩
    apart := pairwise_cons.mpr ⟨hapart, hp.apart⟩ }

theorem Sound.grown (ha : p.arenas[i]? = some a) {n : Int64} (hn : Arena.Grows ⟨p.space, a⟩ n)
    (hlt : (p.put i (Arena.grown ⟨p.space, a⟩ n)).Roomy) :
    (p.put i (Arena.grown ⟨p.space, a⟩ n)).Sound := by
  have hmem := mem_of_getElem? ha
  have hnext := hp.next
  have hfirst : firstBase.toNat = 65536 := rfl
  have hspan : p.reserved + Space.span n < 0x4000000000000000 := by
    rwa [← Space.reserve_next (s := p.space) hn.nonneg]
  have hle := Space.le_span n
  obtain ⟨hlaid, hnext'⟩ := hp.laid.reserve hn.nonneg (by omega)
  have hsizes : ∀ x ∈ p.arenas.flatMap Arena.held,
      (p.space.reserve n).2.sizeAt x = p.space.sizeAt x := fun x hx => by
    obtain ⟨c, hc, rfl⟩ := mem_map.mp (hp.held.mem_iff.mp hx)
    rw [hp.laid.sizeAt_base hc, hlaid.sizeAt_base (.tail _ hc)]
  have hnew : (p.space.reserve n).2.sizeAt p.space.next = n.toInt :=
    hlaid.sizeAt_base (c := .fresh p.space.next n)
      (by rw [Space.reserve_chunks]; exact (.head _))
  refine ⟨hlaid, ?_, ?_, fun x hx => ?_, fun g hg => ?_, by rw [put_live]; exact hp.apart⟩
  · show (p.space.reserve n).2.next.toNat =
      firstBase.toNat + (p.reserved + ((p.space.reserve n).2.next - p.space.next).toNat)
    rw [Space.reserve_next hn.nonneg]
    omega
  · obtain ⟨pre, post, hsplit, hset⟩ := split_of_getElem? ha
    have hperm := hp.held
    rw [hsplit] at hperm
    rw [put_arenas, hset]
    refine .trans ?_ (hperm.cons p.space.next)
    simp only [flatMap_append, flatMap_cons]
    exact perm_middle
  · rcases mem_or_eq_of_mem_set hx with hx | rfl
    · have hsound := hp.arena x hx
      refine ⟨hsound.aligned, hsound.counted.trans (congrArg List.sum ?_)⟩
      exact map_congr_left fun y hy => (hsizes y (mem_flatMap.mpr ⟨x, hx, hy⟩)).symm
    · have hsound := hp.arena a hmem
      have hcapacity := hp.capacity_le hmem
      refine ⟨hsound.aligned, ?_⟩
      show (a.capacity + n).toInt = ((p.space.next :: a.held).map (p.space.reserve n).2.sizeAt).sum
      have hnonneg := hn.nonneg
      rw [toInt_add_of_bounds (by omega) (by omega), map_cons, sum_cons, hnew,
        hsound.counted, add_comm, map_congr_left fun y hy =>
          hsizes y (mem_flatMap.mpr ⟨a, hmem, hy⟩)]
  · rw [put_live] at hg
    exact within_set ha (subset_cons_self _ _) (hp.within g hg) fun c hc hin =>
      ⟨c, .tail _ hc, rfl, hin⟩

theorem Sound.released (ha : p.arenas[i]? = some a) (kept older : List UInt64)
    (hheld : a.held = kept ++ older) (hb : b.held = kept)
    (hcapacity : b.capacity.toInt = (kept.map p.space.sizeAt).sum)
    (halign : b.minAlign = a.minAlign) :
    ((p.forget i).put i ⟨p.space.releaseAll older, b⟩).Sound := by
  have hmem := mem_of_getElem? ha
  have hlaid := hp.laid.releaseAll older
  obtain ⟨pre, post, hsplit, hset⟩ := split_of_getElem? ha
  -- the chunks that stay are those of the other arenas and the kept ones
  obtain ⟨rest, hrest⟩ : ∃ rest,
    rest = pre.flatMap Arena.held ++ (kept ++ post.flatMap Arena.held) :=
    ⟨_, rfl⟩
  have hall : (rest ++ older).Perm (p.space.chunks.map Chunk.base) := by
    refine .trans ?_ hp.held
    rw [hsplit, flatMap_append, flatMap_cons, hheld, hrest]
    simp only [append_assoc]
    exact (perm_append_comm.append_left kept).append_left _
  have hstays : ∀ x ∈ rest, x ∉ older := fun x hx hx' =>
    (nodup_append.mp (hall.nodup_iff.mpr hp.laid.bases_nodup)).2.2 x hx x hx' rfl
  have hchunks : (p.space.releaseAll older).chunks = p.space.chunks.filter fun c =>
    c.base ∉ older :=
    Space.releaseAll_chunks ..
  have hsizes : ∀ x ∈ rest, (p.space.releaseAll older).sizeAt x = p.space.sizeAt x := fun x hx => by
    obtain ⟨c, hc, rfl⟩ := mem_map.mp (hall.mem_iff.mp (mem_append_left older hx))
    have hc' : c ∈ (p.space.releaseAll older).chunks := by
      rw [hchunks]
      exact mem_filter.mpr ⟨hc, by simpa using hstays _ hx⟩
    rw [hp.laid.sizeAt_base hc, hlaid.sizeAt_base hc']
  have hheld' : ((p.forget i).put i ⟨p.space.releaseAll older, b⟩).arenas.flatMap
      Arena.held = rest := by
    show (p.arenas.set i b).flatMap Arena.held = _
    rw [hset, flatMap_append, flatMap_cons, hb, hrest]
  refine ⟨hlaid, ?_, ?_, fun x hx => ?_, fun g hg => ?_, hp.apart.filter _⟩
  · rw [put_reserved, put_space, Space.releaseAll_next]
    show p.space.next.toNat = firstBase.toNat + (p.reserved + (p.space.next - p.space.next).toNat)
    rw [sub_self]
    exact hp.next
  · have hbases : (p.space.releaseAll older).chunks.map Chunk.base =
        (p.space.chunks.map Chunk.base).filter fun x => x ∉ older := by
      rw [hchunks, filter_map]
      rfl
    have hgone : (older.filter fun x => x ∉ older) = [] :=
      filter_eq_nil_iff.mpr fun x hx => by simpa using hx
    have hkeep : (rest.filter fun x => x ∉ older) = rest :=
      filter_eq_self.mpr fun x hx => by simpa using hstays x hx
    have hfilter := hall.filter fun x => x ∉ older
    rw [filter_append, hgone, hkeep, append_nil] at hfilter
    rwa [hheld', put_space, hbases]
  · have hin : ∀ y ∈ x.held, y ∈ rest := fun y hy => by
      rw [← hheld']
      exact mem_flatMap.mpr ⟨x, hx, hy⟩
    have hcounted :
        x.capacity.toInt = (x.held.map p.space.sizeAt).sum ∧ isPowerOfTwo x.minAlign = true := by
      rcases mem_or_eq_of_mem_set hx with hx | rfl
      · exact ⟨(hp.arena x hx).counted, (hp.arena x hx).aligned⟩
      · exact ⟨by rw [hb]; exact hcapacity, by rw [halign]; exact (hp.arena a hmem).aligned⟩
    refine ⟨hcounted.2, hcounted.1.trans (congrArg List.sum ?_)⟩
    exact map_congr_left fun y hy => (hsizes y (hin y hy)).symm
  · obtain ⟨hg, hne⟩ := mem_filter.mp hg
    have hne : i ≠ g.arena := fun heq => by simp [heq] at hne
    obtain ⟨y, hy, c, hc, hbase, hin⟩ := hp.within g hg
    refine ⟨y, ?_, c, ?_, hbase, hin⟩
    · exact (getElem?_set_ne hne).trans hy
    · rw [put_space, hchunks]
      refine mem_filter.mpr ⟨hc, ?_⟩
      simp only [decide_not, Bool.not_eq_eq_eq_not, Bool.not_true, decide_eq_false_iff_not]
      exact fun hold => hne (hp.place_unique ha hy (hheld ▸ mem_append_right _ hold) hbase)

end

end Pool

end SsaIr
