import SsaIr.Proofs.Memory.Pool

/-!
# Allocations never overlap

Every request keeps a pool sound, so that every run of requests does, as long as addresses do not
run out. The main result is `Pool.run_allocations_apart`.
-/

namespace SsaIr

open EStateM Arena Chunk List

variable {c : Chunk} {g : Grant} {size : Int64}

theorem Grant.In.write {offset : Nat} {bs : List UInt8} (h : g.In c) :
    g.In (c.write offset bs) := by
  rw [(c.write_eq offset bs).choose_spec]
  exact ⟨h.nonneg, h.low, h.high⟩

namespace Pool

variable {p : Pool} {i : Nat} {a : Arena} {h : Heap} {align limit : Int64}

/-! ## Changes in place -/

theorem put_of_next (hnext : h.space.next = p.space.next) :
    p.put i h = { p with space := h.space, arenas := p.arenas.set i h.arena } := by
  unfold put
  rw [hnext, sub_self, UInt64.toNat_zero, Nat.add_zero]

theorem put_put {k : Heap} (hnext : k.space.next = h.space.next) :
    (p.put i h).put i k = p.put i k := by
  rw [put_of_next hnext]
  unfold put
  rw [hnext, set_set]

theorem Roomy.of_next {h' : Heap} (hlt : (p.put i h').Roomy)
    (hnext : h'.space.next = h.space.next) :
    (p.put i h).Roomy := by
  unfold Roomy at hlt ⊢
  rwa [put_reserved, ← hnext]

theorem put_arenas_self (ha : p.arenas[i]? = some a) (h : Heap) :
    (p.put i h).arenas[i]? = some h.arena :=
  getElem?_set_self (List.getElem?_eq_some_iff.mp ha).1

theorem Sound.ungrant (hp : (p.grant g).Sound) : p.Sound :=
  { hp with
    within := (forall_mem_cons.mp hp.within).2
    apart := (pairwise_cons.mp hp.apart).2 }

section

variable (hp : p.Sound) (ha : p.arenas[i]? = some a)
include hp ha

theorem Sound.changed {base : UInt64} {f : Chunk → Chunk}
    {b : Arena} (hheld : b.held = a.held) (hcapacity : b.capacity = a.capacity)
    (halign : b.minAlign = a.minAlign) (hbase : ∀ c, (f c).base = c.base)
    (hsize : ∀ c, (f c).size = c.size) (hsound : ∀ c ∈ p.space.chunks, c.base = base → (f c).Sound)
    (hin : ∀ c ∈ p.space.chunks, c.base = base → ∀ g ∈ p.live, ∀ b, p.arenas[g.arena]? = some b →
      base ∈ b.held → g.In c → g.In (f c)) :
    (p.put i ⟨p.space.modifyChunk base f, b⟩).Sound := by
  rw [put_of_next rfl]
  exact (hp.modifyChunk hbase hsize hsound hin).rearm ha hheld hcapacity halign

theorem Sound.written {address : UInt64}
    {bs : List UInt8} {s : Space} (hok : p.space.write address bs = .ok s) :
    s.next = p.space.next ∧ (p.put i ⟨s, a⟩).Sound := by
  obtain ⟨⟨c, offset⟩, hresolve, heq⟩ := Except.bind_eq_ok_iff.mp hok
  cases heq
  obtain ⟨hc, _, _, hlow, _⟩ := Space.mem_of_resolve hp.laid hresolve
  refine ⟨rfl, hp.changed ha rfl rfl rfl (fun _ => write_base ..) (fun _ => write_size ..)
    (fun d hd heq => ?_) fun d hd heq g _ _ _ _ hin => ?_⟩
  · obtain rfl := hp.laid.eq_of_base hd hc heq
    have hsound := hp.laid.sound d hd
    exact hsound.write (by omega)
  · exact hin.write

/-! ## Allocation -/

/-- A range as an allocation should give it. -/
structure Fresh (s : Space) (address : UInt64) (size align : Int64) : Prop where
  ne_zero : address ≠ 0
  aligned : align.toInt ∣ (address.toNat : Int)
  resolves : ∃ c offset, s.resolve address size = .ok (c, offset)
  zero : s.read address size = .ok (List.replicate size.toInt.toNat 0)

omit ha in
theorem Sound.bump_place {offset : Int64}
    (hb : Arena.Bumps ⟨p.space, a⟩ c offset size align) (hsize : 0 ≤ size.toInt)
    (halign : isPowerOfTwo align = true) : c ∈ p.space.chunks ∧ c.base ∈ a.held ∧ 0 ≤ offset.toInt ∧
      offset.toInt + size.toInt ≤ c.top.toInt ∧
      (c.base + offset.toUInt64).toNat = c.base.toNat + offset.toInt.toNat ∧
      align.toInt ∣ ((c.base + offset.toUInt64).toNat : Int) := by
  obtain ⟨base, hhead, hchunk⟩ := Option.bind_eq_some_iff.mp hb.head
  obtain ⟨hc, rfl⟩ := hp.laid.chunk?_eq_some_iff.mp hchunk
  have hsound := hp.laid.sound c hc
  have hbelow := hp.laid.below c hc
  have hnext := hp.laid.next_lt
  obtain ⟨k, hk, hpow⟩ := exists_pow_of_isPowerOfTwo halign
  obtain ⟨hoffset, hend, hdvd⟩ := hsound.fit (by omega) hsize hk hpow hb.fit
  have htop := hsound.top_le
  have haddress : (c.base + offset.toUInt64).toNat = c.base.toNat + offset.toInt.toNat :=
    toNat_add_toUInt64 hoffset (by omega)
  refine ⟨hc, mem_of_mem_head? hhead, hoffset, hend, haddress, ?_⟩
  rw [hpow, haddress]
  exact_mod_cast hdvd

theorem Sound.bumped {offset : Int64}
    (hb : Arena.Bumps ⟨p.space, a⟩ c offset size align) (hsize : 0 ≤ size.toInt)
    (halign : isPowerOfTwo align = true) :
    ((p.put i (Arena.bumped ⟨p.space, a⟩ c offset size)).grant
      { arena := i, address := c.base + offset.toUInt64, size }).Sound ∧
      Fresh (Arena.bumped ⟨p.space, a⟩ c offset size).space
        (c.base + offset.toUInt64) size align := by
  obtain ⟨hc, hheld, hoffset, hend, haddress, hdvd⟩ := hp.bump_place hb hsize halign
  have hsound := hp.laid.sound c hc
  have htop := hsound.top_le
  have hchanged : (p.put i (Arena.bumped ⟨p.space, a⟩ c offset size)).Sound := by
    refine hp.changed ha rfl rfl rfl (fun _ => Chunk.allocate_base) (fun _ => Chunk.allocate_size)
      (fun d hd heq => ?_) fun d hd heq g _ _ _ _ hin => ?_
    · obtain rfl := hp.laid.eq_of_base hd hc heq
      exact hsound.allocate hoffset hsize hend
    · obtain rfl := hp.laid.eq_of_base hd hc heq
      have hlow := hin.low
      refine ⟨hin.nonneg, ?_, ?_⟩
      · rw [Chunk.allocate_base, Chunk.allocate_top]
        omega
      · rw [Chunk.allocate_base, Chunk.allocate_size]
        exact hin.high
  have hmem : c.allocate offset size ∈
      (p.space.modifyChunk c.base fun c => c.allocate offset size).chunks :=
    mem_map.mpr ⟨c, hc, if_pos rfl⟩
  have hlow : ((c.allocate offset size).base.toNat : Int) + (c.allocate offset size).top.toInt ≤
      (c.base + offset.toUInt64).toNat := by
    rw [Chunk.allocate_base, Chunk.allocate_top]
    omega
  have hhigh : ((c.base + offset.toUInt64).toNat : Int) + size.toInt ≤
      (c.allocate offset size).base.toNat + (c.allocate offset size).size.toInt := by
    rw [Chunk.allocate_base, Chunk.allocate_size]
    omega
  refine ⟨hchanged.grant ⟨_, put_arenas_self ha _, _, hmem, ?_, hsize, hlow, hhigh⟩
    fun g hg => ?_, ?_⟩
  · rwa [Chunk.allocate_base]
  · -- ranges of the same chunk lie above its old top, the others in chunks apart
    obtain ⟨_, _, d, hd, _, hin⟩ := hp.within g hg
    have hg_low := hin.low
    have hg_high := hin.high
    have hg_size := hin.nonneg
    have hd_top := (hp.laid.sound d hd).top_nonneg
    unfold Grant.Apart
    dsimp only
    by_cases heq : d = c
    · subst heq
      exact .inl (by omega)
    · rcases hp.laid.before_or_before hd hc heq with hbefore | hbefore <;> unfold Space.Before
        at hbefore
      · exact .inr (by omega)
      · exact .inl (by omega)
  · obtain ⟨o, ho, hresolve⟩ := Space.resolve_of_mem hchanged.laid hmem _ _ hsize hlow hhigh
    refine ⟨fun hzero => ?_, hdvd, ⟨_, _, hresolve⟩, ?_⟩
    · have habove := hp.laid.above c hc
      have hfirst : firstBase.toNat = 65536 := rfl
      have := congrArg UInt64.toNat hzero
      rw [UInt64.toNat_zero] at this
      omega
    · show (p.space.modifyChunk c.base fun c => c.allocate offset size).read _ _ = _
      have hread : (c.allocate offset size).read o.toInt.toNat size.toInt.toNat =
          List.replicate size.toInt.toNat 0 := by
        refine Chunk.read_zero fun j hj hj' => ?_
        rw [Chunk.allocate_base] at ho
        rw [hsound.byte_allocate hoffset hsize hend, if_pos (by omega)]
      unfold Space.read
      rw [show (p.space.modifyChunk c.base fun c => c.allocate offset size).resolve _ size = _
        from hresolve]
      exact congrArg Except.ok hread

omit hp ha in
theorem isPowerOfTwo_alignment (ha : isPowerOfTwo a.minAlign = true)
    (hpow : isPowerOfTwo (if align ≤ 0 then a.minAlign else align) = true) :
    isPowerOfTwo (a.alignment align) = true := by
  unfold alignment
  have hmax : ∀ x y : Int64, max x y = y ∨ max x y = x := fun x y => by
    show (if x ≤ y then y else x) = y ∨ (if x ≤ y then y else x) = x
    split
    · exact .inl rfl
    · exact .inr rfl
  rcases hmax (if align ≤ 0 then a.minAlign else align) a.minAlign with h | h <;> rw [h]
  · exact ha
  · exact hpow

theorem Sound.alloc_ok {address : UInt64}
    (hok : Arena.alloc size align ⟨p.space, a⟩ = .ok address h) (hlt : (p.put i h).Roomy) :
    ((p.put i h).grant { arena := i, address, size }).Sound ∧
      Fresh h.space address size (a.alignment align) := by
  rcases Arena.alloc_cases ⟨p.space, a⟩ size align with
    ⟨e, herr⟩ | ⟨n, e, _, herr⟩ | ⟨hsize, hpow, h₁, hgrown, c, offset, hb, hok'⟩
  · rw [hok] at herr
    cases herr
  · rw [hok] at herr
    cases herr
  · rw [hok] at hok'
    cases hok'
    have halign := isPowerOfTwo_alignment (hp.arena a (mem_of_getElem? ha)).aligned hpow
    rcases hgrown with rfl | ⟨n, hn, rfl⟩
    · exact hp.bumped ha hb hsize halign
    · have hp₁ := hp.grown ha hn (hlt.of_next rfl)
      have hbumped := hp₁.bumped (put_arenas_self ha _) hb hsize halign
      rw [← put_put (p := p) (i := i) (h := Arena.grown ⟨p.space, a⟩ n)
        (k := Arena.bumped (Arena.grown ⟨p.space, a⟩ n) c offset size) rfl]
      exact hbumped

theorem Sound.alloc_error
    {e : MemoryError} (herr : alloc size align ⟨p.space, a⟩ = .error e h)
    (hlt : (p.put i h).Roomy) : (p.put i h).Sound := by
  rcases alloc_cases ⟨p.space, a⟩ size align with
    ⟨e, herr'⟩ | ⟨n, e, hn, herr'⟩ | ⟨_, _, _, _, _, _, _, hok⟩
  · rw [herr] at herr'
    cases herr'
    rw [put_of_next rfl]
    exact hp.rearm ha rfl rfl rfl
  · rw [herr] at herr'
    cases herr'
    exact hp.grown ha hn hlt
  · rw [herr] at hok
    cases hok

omit hp ha in
theorem write_apply (address : UInt64) (bs : List UInt8) (h : Heap) : Arena.write address bs h =
    match h.space.write address bs with
    | .ok space => .ok () { h with space }
    | .error e => .error e h := by
  unfold Arena.write
  rw [get_bind_apply]
  cases h.space.write address bs <;> rfl

omit hp ha in
theorem copy_apply (bs : List UInt8) (align : Int64) (h : Heap) : copy bs align h =
    match alloc (Int64.ofNat bs.length) align h with
    | .error e h => .error e h
    | .ok address h =>
      if bs.isEmpty then .ok address h
      else
        match h.space.write address bs with
        | .ok space => .ok address { h with space }
        | .error e => .error e h := by
  unfold copy
  cases halloc : alloc (Int64.ofNat bs.length) align h with
  | error e h' => exact bind_of_error halloc
  | ok address h' =>
    rw [bind_of_ok halloc]
    cases bs with
    | nil => rfl
    | cons b bs =>
      have hwrite := write_apply address (b :: bs) h'
      simp only [isEmpty_cons, Bool.false_eq_true, if_false]
      cases hspace : h'.space.write address (b :: bs) with rw [hspace] at hwrite
      | ok space => exact bind_of_ok hwrite
      | error e => exact bind_of_error hwrite

theorem Sound.copy (bs : List UInt8) (align : Int64) {r : EStateM.Result MemoryError Heap UInt64}
    (hr : copy bs align ⟨p.space, a⟩ = r) (hlt : (p.put i (Demand.after r)).Roomy) :
    ((p.put i (Demand.after r)).handOut i (Demand.granted (Int64.ofNat bs.length) r)).Sound := by
  rw [copy_apply] at hr
  cases halloc : alloc (Int64.ofNat bs.length) align ⟨p.space, a⟩ with
  | error e h =>
    rw [halloc] at hr
    subst hr
    exact hp.alloc_error ha halloc hlt
  | ok address h =>
    simp only [halloc] at hr
    split at hr
    · subst hr
      exact (hp.alloc_ok ha halloc hlt).1
    · cases hwrite : h.space.write address bs with rw [hwrite] at hr
      | error e =>
        subst hr
        exact (hp.alloc_ok ha halloc hlt).1.ungrant
      | ok space =>
        subst hr
        have hnext : space.next = h.space.next := by
          obtain ⟨⟨c, offset⟩, _, heq⟩ := Except.bind_eq_ok_iff.mp hwrite
          cases heq
          rfl
        have hfirst := (hp.alloc_ok ha halloc (hlt.of_next hnext)).1
        have hwritten := (hfirst.written (i := i) (put_arenas_self ha h) hwrite).2
        have heq : ((p.put i h).grant { arena := i, address, size := Int64.ofNat bs.length }).put i
            { h with space } = (p.put i { h with space }).grant
              { arena := i, address, size := Int64.ofNat bs.length } := by
          rw [← put_put (p := p) (i := i) (h := h) (k := { h with space }) hnext]
          rfl
        rwa [heq] at hwritten

omit hp ha in
theorem after_copyText (s : String) (h : Heap) : Demand.after (copyText s h) =
    if s = "" then h else Demand.after (copy (Text.toBytes s) 1 h) := by
  unfold copyText
  by_cases hs : s = ""
  · simp only [hs, ne_eq, not_true_eq_false, if_false, if_true]
    rfl
  · simp only [hs, ne_eq, not_false_eq_true, if_true, if_false]
    cases hcopy : copy (Text.toBytes s) 1 h with
    | ok address h' =>
      have hdiscard : (discard (copy (Text.toBytes s) 1) : Allocate PUnit) h = .ok ⟨⟩ h' :=
        map_eq_ok_iff.mpr ⟨address, hcopy, rfl⟩
      rw [bind_of_ok hdiscard]
      rfl
    | error e h' =>
      have hdiscard : (discard (copy (Text.toBytes s) 1) : Allocate PUnit) h = .error e h' := by
        show EStateM.map _ (copy (Text.toBytes s) 1) h = _
        unfold EStateM.map
        rw [hcopy]
      rw [bind_of_error hdiscard]
      rfl

/-! ## Requests -/

omit ha in
theorem Sound.create (o : ArenaOptions) : (p.step (.create o)).Sound where
  laid := hp.laid
  next := hp.next
  held := by
    show ((p.arenas ++ [Arena.new o]).flatMap Arena.held).Perm _
    rw [flatMap_append, show [Arena.new o].flatMap Arena.held = [] from rfl, append_nil]
    exact hp.held
  arena x hx := by
    rcases mem_append.mp hx with hx | hx
    · exact hp.arena x hx
    · obtain rfl := mem_singleton.mp hx
      refine ⟨?_, rfl⟩
      show isPowerOfTwo ((o.minAlign.filter isPowerOfTwo).getD 1) = true
      cases hfilter : o.minAlign.filter isPowerOfTwo with
      | none => rfl
      | some n => exact (Option.filter_eq_some_iff.mp hfilter).2
  within g hg := by
    obtain ⟨b, hb, hrest⟩ := hp.within g hg
    have hlt := (List.getElem?_eq_some_iff.mp hb).1
    exact ⟨b, (getElem?_append_left hlt).trans hb, hrest⟩
  apart := hp.apart

theorem Sound.destroyed : ((p.forget i).put i (destroy ⟨p.space, a⟩)).Sound :=
  hp.released ha [] a.held rfl rfl rfl rfl

theorem Sound.reset : ((p.forget i).put i (reset ⟨p.space, a⟩)).Sound := by
  cases hheld : a.held with
  | nil =>
    rw [reset_of_nil hheld]
    refine hp.released ha [] [] hheld hheld ?_ rfl
    rw [(hp.arena a (mem_of_getElem? ha)).counted, hheld]
  | cons base older =>
    obtain ⟨c, hc, rfl⟩ := hp.exists_chunk (mem_of_getElem? ha) (hheld ▸ mem_cons_self)
    have hchunk : p.space.chunk? c.base = some c := hp.laid.chunk?_eq_some_iff.mpr ⟨hc, rfl⟩
    have hreleased := hp.released ha [c.base] older hheld
      (b := a.onlyChunk c) rfl
      (by rw [map_singleton, sum_singleton, hp.laid.sizeAt_base hc]; rfl) rfl
    have hself := put_arenas_self (p := p.forget i) ha
      ⟨p.space.releaseAll older, a.onlyChunk c⟩
    rw [reset_of_cons hheld hchunk, ← put_put (p := p.forget i) (i := i)
      (h := ⟨p.space.releaseAll older, a.onlyChunk c⟩)
      (k := { space := (p.space.releaseAll older).modifyChunk c.base rewind,
              arena := a.onlyChunk c }) rfl]
    refine hreleased.changed hself rfl rfl rfl (fun _ => rfl) (fun _ => rfl)
      (fun d hd _ => (hreleased.laid.sound d hd).rewind) fun d _ _ g hg b hb hheld' _ => ?_
    -- the arena of the chunk has no live ranges
    have hi := hreleased.place_unique hself hb (mem_singleton.mpr rfl) hheld'
    have hne := (mem_filter.mp hg).2
    simp [hi] at hne

end

theorem handOut_reserved (p : Pool) (i : Nat) (r : Option (UInt64 × Int64)) :
    (p.handOut i r).reserved = p.reserved := by
  cases r <;> rfl

theorem step_ask (ha : p.arenas[i]? = some a) (d : Demand) : p.step (.ask i d) =
    ((if d.frees then p.forget i else p).put i (d.apply ⟨p.space, a⟩)).handOut i
      (d.range? ⟨p.space, a⟩) := by
  simp only [step, ha]

theorem step_ask_of_none (ha : p.arenas[i]? = none) (d : Demand) : p.step (.ask i d) = p := by
  simp only [step, ha]

theorem reserved_le_step (p : Pool) (r : Request) : p.reserved ≤ (p.step r).reserved := by
  cases r with
  | create o => exact le_rfl
  | ask i d =>
    cases ha : p.arenas[i]? with
    | none => rw [step_ask_of_none ha]
    | some a =>
      rw [step_ask ha, handOut_reserved]
      split <;> exact Nat.le_add_right _ _

theorem Sound.step (hp : p.Sound) (r : Request) (hlt : (p.step r).Roomy) : (p.step r).Sound := by
  cases r with
  | create o => exact hp.create o
  | ask i d =>
    cases ha : p.arenas[i]? with
    | none => rwa [step_ask_of_none ha]
    | some a =>
      rw [step_ask ha] at hlt ⊢
      unfold Roomy at hlt
      rw [handOut_reserved] at hlt
      have hsame : ∀ b : Arena, b.held = a.held → b.capacity = a.capacity →
          b.minAlign = a.minAlign → (p.put i ⟨p.space, b⟩).Sound :=
        fun b hheld hcapacity halign => by
          rw [put_of_next rfl]
          exact hp.rearm ha hheld hcapacity halign
      cases d with
      | alloc size align =>
        cases halloc : alloc size align ⟨p.space, a⟩ with
        | ok address h =>
          simp only [Demand.apply, Demand.range?, halloc] at hlt ⊢
          exact (hp.alloc_ok ha halloc hlt).1
        | error e h =>
          simp only [Demand.apply, Demand.range?, halloc] at hlt ⊢
          exact hp.alloc_error ha halloc hlt
      | copy data align => exact hp.copy ha data.bytes align rfl hlt
      | text s _ =>
        simp only [Demand.range?, Demand.apply, after_copyText] at hlt ⊢
        by_cases hs : s = ""
        · rw [if_pos hs, if_pos hs]
          exact hsame a rfl rfl rfl
        · rw [if_neg hs] at hlt
          rw [if_neg hs, if_neg hs]
          exact hp.copy ha (Text.toBytes s) 1 rfl hlt
      | write address data =>
        simp only [Demand.apply, write_apply]
        cases hwrite : p.space.write address data.bytes with
        | ok space => exact (hp.written ha hwrite).2
        | error e => exact hsame a rfl rfl rfl
      | reset => exact hp.reset ha
      | destroy => exact hp.destroyed ha
      | setLimit limit => exact hsame _ rfl rfl rfl

theorem reserved_le_foldl (rs : List Request) (p : Pool) :
    p.reserved ≤ (rs.foldl Pool.step p).reserved := by
  induction rs generalizing p with
  | nil => exact le_rfl
  | cons r rs ih => exact (p.reserved_le_step r).trans (ih (p.step r))

theorem Sound.foldl (hp : p.Sound) (rs : List Request) (hlt : (rs.foldl Pool.step p).Roomy) :
    (rs.foldl Pool.step p).Sound := by
  induction rs generalizing p with
  | nil => exact hp
  | cons r rs ih =>
    have hroom : (p.step r).Roomy := (reserved_le_foldl rs _).trans_lt hlt
    exact ih (hp.step r hroom) hlt

/-! ## Limits -/

def Obeys (p : Pool) (i : Nat) (limit : Int64) : Prop :=
  ∃ a, p.arenas[i]? = some a ∧ a.limit = limit ∧ a.capacity.toInt ≤ limit.toInt

/-- What an arena may become when it allocates: nothing about its chunks changes, or it gets one
more. -/
theorem alloc_after (h : Heap) (size align : Int64) :
    (Demand.after (alloc size align h)).arena.limit = h.arena.limit ∧
      ((Demand.after (alloc size align h)).arena.capacity = h.arena.capacity ∨
        ∃ n, Arena.Grows h n ∧
          (Demand.after (alloc size align h)).arena.capacity = h.arena.capacity + n) := by
  rcases alloc_cases h size align with
    ⟨e, heq⟩ | ⟨n, e, hn, heq⟩ | ⟨_, _, h₁, rfl | ⟨n, hn, rfl⟩, c, offset, _, heq⟩ <;> rw [heq]
  · exact ⟨rfl, .inl rfl⟩
  · exact ⟨rfl, .inr ⟨n, hn, rfl⟩⟩
  · exact ⟨rfl, .inl rfl⟩
  · exact ⟨rfl, .inr ⟨n, hn, rfl⟩⟩

theorem copy_after (bs : List UInt8) (align : Int64) (h : Heap) :
    (Demand.after (copy bs align h)).arena =
      (Demand.after (alloc (Int64.ofNat bs.length) align h)).arena := by
  rw [copy_apply]
  cases alloc (Int64.ofNat bs.length) align h with
  | error e h => rfl
  | ok address h =>
    dsimp only
    split
    · rfl
    · cases h.space.write address bs <;> rfl

section

variable (hp : p.Sound) (ha : p.arenas[i]? = some a) (hpos : 0 < limit) (hlimit : a.limit = limit)
  (hle : a.capacity.toInt ≤ limit.toInt)
include hp ha hpos hlimit hle

theorem Sound.obeys_alloc {b : Arena} (hb : b.limit = a.limit ∧
      (b.capacity = a.capacity ∨ ∃ n, Arena.Grows ⟨p.space, a⟩ n ∧
        b.capacity = a.capacity + n)) : b.limit = limit ∧ b.capacity.toInt ≤ limit.toInt := by
  refine ⟨hb.1.trans hlimit, ?_⟩
  rcases hb.2 with heq | ⟨n, hn, heq⟩ <;> rw [heq]
  · exact hle
  · have hnonneg := hn.nonneg
    have hwithin : n.toInt ≤ (limit - a.capacity).toInt := hlimit ▸ hn.within (hlimit.symm ▸ hpos)
    have hcapacity := (hp.capacity_le (mem_of_getElem? ha)).1
    have hlt := limit.toInt_lt
    rw [toInt_sub_of_bounds (by omega) (by omega)] at hwithin
    rw [toInt_add_of_bounds (by omega) (by omega)]
    omega

theorem Sound.obeys_apply {d : Demand} (hd : ∀ n, d ≠ .setLimit n) :
    (d.apply ⟨p.space, a⟩).arena.limit = limit ∧
      (d.apply ⟨p.space, a⟩).arena.capacity.toInt ≤ limit.toInt := by
  have hposi := Int64.lt_iff_toInt_lt.mp hpos
  cases d with
  | alloc size align => exact hp.obeys_alloc ha hpos hlimit hle (alloc_after ..)
  | copy data align =>
    refine hp.obeys_alloc ha hpos hlimit hle ?_
    simp only [Demand.apply, copy_after]
    exact alloc_after ..
  | text s _ =>
    refine hp.obeys_alloc ha hpos hlimit hle ?_
    simp only [Demand.apply, after_copyText]
    split
    · exact ⟨rfl, .inl rfl⟩
    · rw [copy_after]
      exact alloc_after ..
  | write address data =>
    refine hp.obeys_alloc ha hpos hlimit hle ?_
    simp only [Demand.apply, write_apply]
    cases p.space.write address data.bytes <;> exact ⟨rfl, .inl rfl⟩
  | reset =>
    cases hheld : a.held with
    | nil =>
      simp only [Demand.apply, reset_of_nil (h := ⟨p.space, a⟩) hheld]
      exact ⟨hlimit, hle⟩
    | cons base older =>
      -- the chunk that stays is one of those that were counted
      obtain ⟨c, hc, rfl⟩ := hp.exists_chunk (mem_of_getElem? ha) (hheld ▸ mem_cons_self)
      have hchunk : p.space.chunk? c.base = some c := hp.laid.chunk?_eq_some_iff.mpr ⟨hc, rfl⟩
      have hcounted := (hp.arena a (mem_of_getElem? ha)).counted
      rw [hheld, map_cons, sum_cons, hp.laid.sizeAt_base hc] at hcounted
      have holder : 0 ≤ (older.map p.space.sizeAt).sum := sum_nonneg fun n hn => by
        obtain ⟨x, _, rfl⟩ := mem_map.mp hn
        exact hp.laid.sizeAt_nonneg x
      simp only [Demand.apply,
        reset_of_cons (h := ⟨p.space, a⟩) hheld hchunk]
      refine ⟨hlimit, ?_⟩
      show c.size.toInt ≤ limit.toInt
      omega
  | destroy => exact ⟨hlimit, hposi.le⟩
  | setLimit n => exact absurd rfl (hd n)

end

theorem handOut_arenas (p : Pool) (i : Nat) (r : Option (UInt64 × Int64)) :
    (p.handOut i r).arenas = p.arenas := by
  cases r <;> rfl

theorem Obeys.step (h : p.Obeys i limit) (hp : p.Sound) (hpos : 0 < limit) {r : Request}
    (hr : ∀ n, r ≠ .ask i (.setLimit n)) : (p.step r).Obeys i limit := by
  obtain ⟨a, ha, hlimit, hle⟩ := h
  cases r with
  | create o =>
    have hlt := (List.getElem?_eq_some_iff.mp ha).1
    exact ⟨a, (getElem?_append_left hlt).trans ha, hlimit, hle⟩
  | ask j d =>
    cases hb : p.arenas[j]? with
    | none =>
      rw [step_ask_of_none hb]
      exact ⟨a, ha, hlimit, hle⟩
    | some b =>
      have harenas : (p.step (.ask j d)).arenas =
          p.arenas.set j (d.apply ⟨p.space, b⟩).arena := by
        rw [step_ask hb, handOut_arenas]
        split <;> rfl
      by_cases hij : j = i
      · subst hij
        cases ha.symm.trans hb
        have happly := hp.obeys_apply ha hpos hlimit hle (d := d) fun n heq => hr n (by rw [heq])
        refine ⟨_, ?_, happly⟩
        rw [harenas]
        exact getElem?_set_self (List.getElem?_eq_some_iff.mp ha).1
      · exact ⟨a, by rw [harenas, getElem?_set_ne hij]; exact ha, hlimit, hle⟩

theorem Obeys.foldl (h : p.Obeys i limit) (hp : p.Sound) (hpos : 0 < limit) {rs : List Request}
    (hrs : ∀ n, .ask i (.setLimit n) ∉ rs) (hlt : (rs.foldl Pool.step p).Roomy) :
    (rs.foldl Pool.step p).Obeys i limit := by
  induction rs generalizing p with
  | nil => exact h
  | cons r rs ih =>
    have hroom : (p.step r).Roomy := (reserved_le_foldl rs _).trans_lt hlt
    exact ih (h.step hp hpos fun n heq => hrs n (heq ▸ (.head _))) (hp.step r hroom)
      (fun n hn => hrs n (.tail _ hn)) hlt

/-! ## Writing through a range -/

end Pool

/-- Whatever is written within the first range, the second one reads as before. -/
def Grant.Spares (s : Space) (g g' : Grant) : Prop :=
  ∀ (address : UInt64) (bs : List UInt8), g.address.toNat ≤ address.toNat →
    address.toNat + bs.length ≤ g.address.toNat + g.size.toInt.toNat →
      ∃ t, s.write address bs = .ok t ∧ t.read g'.address g'.size = s.read g'.address g'.size

theorem Grant.In.read_eq {s : Space} (h : g.In c) (hs : s.Laid)
    (hc : c ∈ s.chunks) : s.read g.address g.size =
      .ok (c.read (g.address.toNat - c.base.toNat) g.size.toInt.toNat) := by
  obtain ⟨o, ho, hresolve⟩ := Space.resolve_of_mem hs hc _ _ h.nonneg h.low h.high
  have hoffset : o.toInt.toNat = g.address.toNat - c.base.toNat := by omega
  unfold Space.read
  rw [hresolve, ← hoffset]
  rfl

namespace Pool

variable {p : Pool}

theorem Sound.spares (hp : p.Sound) {g' : Grant} (hg : g ∈ p.live) (hg' : g' ∈ p.live)
    (hapart : g.Apart g') : g.Spares p.space g' := by
  intro address bs hlow hhigh
  obtain ⟨a, ha, c, hc, _, hin⟩ := hp.within g hg
  obtain ⟨a', ha', d, hd, _, hin'⟩ := hp.within g' hg'
  have hg_low := hin.low
  have hg_high := hin.high
  have hg_size := hin.nonneg
  have hlt := g.size.toInt_lt
  have hlength : (Int64.ofNat bs.length).toInt = bs.length := Int64.toInt_ofNat_of_lt (by omega)
  obtain ⟨o, ho, hresolve⟩ := Space.resolve_of_mem hp.laid hc address
    (Int64.ofNat bs.length) (by omega) (by omega) (by omega)
  have hwrite : p.space.write address bs =
      .ok (p.space.modifyChunk c.base fun c => c.write o.toInt.toNat bs) := by
    unfold Space.write
    rw [hresolve]
    rfl
  refine ⟨_, hwrite, ?_⟩
  have hlaid : (p.space.modifyChunk c.base fun c => c.write o.toInt.toNat bs).Laid :=
    (hp.written ha hwrite).2.laid
  have hc_sound := hp.laid.sound c hc
  have htop := hc_sound.top_nonneg
  by_cases heq : d = c
  · subst heq
    have hmem : d.write o.toInt.toNat bs ∈
        (p.space.modifyChunk d.base fun c => c.write o.toInt.toNat bs).chunks :=
      mem_map.mpr ⟨d, hd, if_pos rfl⟩
    rw [hin'.write.read_eq hlaid hmem, hin'.read_eq hp.laid hd, write_base]
    refine congrArg Except.ok (read_congr fun j hj hj' => byte_write_outside ?_)
    have hg'_low := hin'.low
    unfold Grant.Apart at hapart
    omega
  · have hbase : d.base ≠ c.base := fun hb => heq (hp.laid.eq_of_base hd hc hb)
    have hmem : d ∈ (p.space.modifyChunk c.base fun c => c.write o.toInt.toNat bs).chunks :=
      mem_map.mpr ⟨d, hd, if_neg hbase⟩
    rw [hin'.read_eq hlaid hmem, hin'.read_eq hp.laid hd]

/-! ## Runs -/

/-- Allocations never overlap. In every run of requests that reserves few enough addresses, what is
allocated is fresh, zeroed and aligned; live ranges are apart, so that writing through one leaves
the others alone; chunks are sorted with gaps between them and are those that the arenas hold; and
capacities are sums of chunk sizes, within the limits that arenas were created with. -/
theorem run_allocations_apart (rs : List Request) (hroom : (run rs).reserved < 2 ^ 62) :
    (∀ {pre post i size align a address h}, rs = pre ++ .ask i (.alloc size align) :: post →
      (run pre).arenas[i]? = some a →
      Arena.alloc size align { space := (run pre).space, arena := a } = .ok address h →
        Fresh h.space address size (a.alignment align)) ∧
    (run rs).live.Pairwise (fun g g' => g.Apart g' ∧ g.Spares (run rs).space g' ∧
      g'.Spares (run rs).space g) ∧
    (run rs).space.chunks.Pairwise (fun c d => Space.Before d c) ∧
    ((run rs).arenas.flatMap Arena.held).Perm ((run rs).space.chunks.map Chunk.base) ∧
    (∀ a ∈ (run rs).arenas, a.capacity.toInt = (a.held.map (run rs).space.sizeAt).sum) ∧
    (∀ {pre post o limit}, rs = pre ++ .create o :: post → o.limit = some limit → 0 < limit →
      (∀ n, .ask (run pre).arenas.length (.setLimit n) ∉ post) →
      ∃ a, (run rs).arenas[(run pre).arenas.length]? = some a ∧ a.capacity ≤ limit) := by
  have hlt : (run rs).Roomy := hroom
  have hsound := sound_empty.foldl rs hlt
  -- a run up to some request is a sound one
  have hpre : ∀ {pre r post}, rs = pre ++ r :: post → (run pre).Sound ∧ ((run pre).step r).Roomy ∧
      run rs = post.foldl step ((run pre).step r) := fun {pre r post} heq => by
    have hrun : run rs = post.foldl step ((run pre).step r) := by
      rw [heq]
      unfold run
      rw [foldl_append, foldl_cons]
    have hstep : ((run pre).step r).Roomy := (hrun ▸ reserved_le_foldl post _).trans_lt hlt
    exact ⟨sound_empty.foldl pre ((reserved_le_step _ _).trans_lt hstep), hstep, hrun⟩
  refine ⟨fun {pre post i size align a address h} heq ha hok => ?_, ?_, hsound.laid.apart,
    hsound.held,
    fun a ha => (hsound.arena a ha).counted, fun {pre post o limit} heq hlimit hpos hset => ?_⟩
  · obtain ⟨hp, hstep, _⟩ := hpre heq
    rw [step_ask ha] at hstep
    unfold Roomy at hstep
    rw [handOut_reserved] at hstep
    simp only [Demand.apply, hok] at hstep
    exact (hp.alloc_ok ha hok hstep).2
  · exact hsound.apart.imp_of_mem fun hg hg' hapart =>
      ⟨hapart, hsound.spares hg hg' hapart, hsound.spares hg' hg (Or.symm hapart)⟩
  · obtain ⟨hp, hstep, hrun⟩ := hpre heq
    have hobeys : ((run pre).step (.create o)).Obeys (run pre).arenas.length limit := by
      refine ⟨Arena.new o, getElem?_concat_length, ?_, ?_⟩
      · show o.limit.getD 0 = limit
        rw [hlimit, Option.getD_some]
      · exact (Int64.lt_iff_toInt_lt.mp hpos).le
    obtain ⟨a, ha, _, hle⟩ := hobeys.foldl (hp.step _ hstep) hpos hset (hrun ▸ hlt)
    exact ⟨a, hrun ▸ ha, Int64.le_iff_toInt_le.mpr hle⟩

/-- Two arenas, one with a limit and wide alignment, that take turns. -/
def takingTurns : List Request :=
  [.create {}, .create { minAlign := some 64, limit := some 9000 }, .ask 0 (.alloc 100 8),
    .ask 1 (.alloc 5000 1), .ask 0 (.copy ⟨[1, 2, 3], by decide⟩ 4), .ask 1 (.alloc 1 0),
      .ask 0 .reset,
    .ask 0 (.alloc 3 0), .ask 1 .destroy, .ask 1 (.alloc 16 4096)]

/-- The run reserves few addresses, ends with two live ranges, and they are apart. -/
theorem run_allocations_apart_taking_turns : (run takingTurns).reserved < 2 ^ 62 ∧
    (run takingTurns).live.length = 2 ∧ (run takingTurns).live.Pairwise (fun g g' => g.Apart g' ∧
      g.Spares (run takingTurns).space g' ∧ g'.Spares (run takingTurns).space g) := by
  have hroom : (run takingTurns).reserved < 2 ^ 62 := by decide +kernel
  exact ⟨hroom, by decide +kernel, (run_allocations_apart takingTurns hroom).2.1⟩

end Pool

end SsaIr
