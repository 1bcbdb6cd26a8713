import Chameleon.User.FreeList

/-! `malloc` over the free list, and what holds of the heap in every run of a program that uses the
allocator. -/

namespace Chameleon.Umalloc
open Circular

section Take
variable {base n : Nat} {h h' : Heap} {l xs ys : List Block} {q y : Block}

/-- What `malloc` does to the list `l` of the free blocks when it hands out the block `t`. -/
structure Taken (base : Nat) (h : Heap) (l : List Block) (n : Nat) (h' : Heap) (l' : List Block)
    (t : Block) : Prop where
  rep : Rep base h' l'
  inner : t.Inner base
  units : t.size = n
  size : h'.size t.addr = n
  cover : ∀ x, cover x (t :: l') = cover x l
  same : ∀ a, Far t.addr a → (∀ c ∈ Block.mk base 0 :: l, Far c.addr a) → Same h h' a
  brk : h'.brk = h.brk
  got : h'.got = h.got

/-- The list with the blocks `zs` for the node behind `q`. -/
theorem Split.replace (hs : Split base l xs q (y :: ys)) (zs : List Block) :
    ∃ l', Split base l' xs q (zs ++ ys) ∧ ∀ c ∈ l', c ∈ l ∨ c ∈ zs := by
  cases xs with
  | nil =>
    obtain ⟨rfl, rfl⟩ := List.cons.inj hs
    refine ⟨zs ++ ys, rfl, fun c hc => ?_⟩
    rcases List.mem_append.mp hc with hc | hc
    · exact .inr hc
    · exact .inl (List.mem_cons_of_mem y hc)
  | cons x xs =>
    rw [Split, List.cons_append, List.cons.injEq] at hs
    obtain ⟨rfl, rfl⟩ := hs
    refine ⟨xs ++ q :: (zs ++ ys), rfl, fun c hc => ?_⟩
    simp only [List.mem_append, List.mem_cons] at hc ⊢
    tauto

theorem Split.cover_eq (hs : Split base l xs q ys) (x : Nat) :
    cover x l = cover x xs + cover x (q :: ys) := by
  rw [← cover_base x l, hs, cover_append]

theorem Rep.take_whole (hrep : Rep base h l) (hs : Split base l xs q (y :: ys)) :
    ∃ l', Taken base h l y.size { h.setPtr q.addr (h.ptr y.addr) with freep := q.addr } l' y := by
  obtain ⟨l', hs', hsub⟩ := hs.replace []
  have hqmem : q ∈ Block.mk base 0 :: l := by rw [hs]; simp
  have hmem : ∀ c ∈ y :: ys ++ xs, c ∈ Block.mk base 0 :: l := by
    intro c hc
    rw [hs]
    simp only [List.mem_append, List.mem_cons] at hc ⊢
    tauto
  have hy : y.Inner base := hrep.inner y (hs.mem_of_behind List.mem_cons_self)
  have hfar := hrep.far_of_split hs
  have hkeep : ∀ c ∈ y :: ys ++ xs, Same h (h.setPtr q.addr (h.ptr y.addr)) c.addr := fun c hc =>
    same_setPtr (hfar c hc)
  refine ⟨l', .of_path hrep.pos hs' ?_ ?_ ?_ (fun c hc => ?_) rfl, hy, rfl, ?_, fun x => ?_,
    fun a ha hla => ?_, rfl, rfl⟩
  · rw [Heap.ptr_withFreep]
    refine (hrep.rotated hs).2.relay ?_ fun x hx => ?_
    · rw [Heap.ptr_setPtr, Nat.mod_eq_of_lt (h.ptr_lt _)]
    · obtain ⟨c, hc, rfl⟩ := List.mem_map.mp hx
      exact (hkeep c (List.mem_cons_of_mem y hc)).1
  · rw [Heap.size_withFreep]
    refine List.forall_mem_cons.mpr ⟨?_, fun c hc => ?_⟩
    · rw [Heap.size_setPtr]
      exact hrep.size q hqmem
    · have hc : c ∈ y :: ys ++ xs := List.mem_cons_of_mem y hc
      rw [(hkeep c hc).2]
      exact hrep.size c (hmem c hc)
  · refine (hs ▸ hrep.apart).sublist ?_
    exact List.Sublist.append (List.Sublist.refl xs) ((List.sublist_cons_self y ys).cons_cons q)
  · exact hrep.inner c ((hsub c hc).resolve_right List.not_mem_nil)
  · rw [Heap.size_withFreep, (hkeep y (by simp)).2]
    exact hrep.size y (hmem y (by simp))
  · rw [cover_cons, hs.cover_eq, hs'.cover_eq, List.nil_append]
    simp only [cover_cons]
    omega
  · rw [Same, Heap.ptr_withFreep, Heap.size_withFreep]
    exact same_setPtr (hla q hqmem)

theorem pairwise_shrink {y' : Block} (hl : (xs ++ y :: ys).Pairwise Apart) (ha : y'.addr = y.addr)
    (hle : y'.stop ≤ y.stop) : (xs ++ y' :: ys).Pairwise Apart := by
  obtain ⟨hxs, hyys, hcross⟩ := List.pairwise_append.mp hl
  obtain ⟨hy, hys⟩ := List.pairwise_cons.mp hyys
  refine List.pairwise_append.mpr ⟨hxs, List.pairwise_cons.mpr ⟨fun c hc => ?_, hys⟩, fun x hx => ?_⟩
  · exact Nat.lt_of_le_of_lt hle (hy c hc)
  · refine List.forall_mem_cons.mpr ⟨?_, fun c hc => hcross x hx c (List.mem_cons_of_mem y hc)⟩
    have hxy : x.stop < y.addr := hcross x hx y List.mem_cons_self
    unfold Apart
    rwa [ha]

theorem Split.shift (hs : Split base l xs q (y :: ys)) : Split base l (xs ++ [q]) y ys := by
  rw [Split, hs, List.append_assoc, List.singleton_append]

/-- The header that is made inside a free block is none of the list's. -/
theorem Rep.far_tail (hrep : Rep base h l) (hs : Split base l xs q (y :: ys)) {a : Nat}
    (ha : y.addr + 8 ≤ a) (ha' : a + 8 ≤ y.stop) : ∀ c ∈ Block.mk base 0 :: l, Far a c.addr := by
  have hap := hrep.apart
  have hfar := hrep.far
  rw [hs.shift, List.pairwise_append] at hap hfar
  intro c hc
  rw [hs.shift] at hc
  rcases List.mem_append.mp hc with hc | hc
  · have hlt : c.stop < y.addr := hap.2.2 c hc y List.mem_cons_self
    have hcy : Far c.addr y.addr := hfar.2.2 c hc y List.mem_cons_self
    have hle := c.addr_le_stop
    unfold Far at hcy ⊢
    omega
  · rcases List.mem_cons.mp hc with rfl | hc
    · exact .inr ha
    · have hlt : y.stop < c.addr := (List.pairwise_cons.mp hap.2.1).1 c hc
      exact .inl (by omega)

/-- The tail end of the block behind `q` is handed out. -/
theorem Rep.take_part (hrep : Rep base h l) (hs : Split base l xs q (y :: ys)) (hn : 0 < n)
    (hlt : n < y.size) :
    ∃ l', Taken base h l n { (h.setSize y.addr (y.size - n)).setSize
      (y.addr + 8 * (y.size - n)) n with freep := q.addr } l' ⟨y.addr + 8 * (y.size - n), n⟩ := by
  have hy : y.Inner base := hrep.inner y (hs.mem_of_behind List.mem_cons_self)
  have habove := hy.above
  have hbelow := hy.below
  have hstop : y.stop = y.addr + 8 * y.size := rfl
  obtain ⟨l', hs', hsub⟩ := hs.replace [⟨y.addr, y.size - n⟩]
  have hfar := hrep.far_tail hs (a := y.addr + 8 * (y.size - n)) (by omega) (by omega)
  have hyfar := hrep.far_of_split hs.shift
  have hmem : ∀ c ∈ q :: (ys ++ xs), c ∈ Block.mk base 0 :: l ∧ c ∈ ys ++ (xs ++ [q]) := by
    intro c hc
    rw [hs]
    simp only [List.mem_append, List.mem_cons, List.not_mem_nil, or_false] at hc ⊢
    tauto
  have hymem : y ∈ Block.mk base 0 :: l := by rw [hs]; simp
  -- The two headers that are written belong to no other block of the list.
  have hkeep : ∀ c ∈ q :: (ys ++ xs), Same h ((h.setSize y.addr (y.size - n)).setSize
      (y.addr + 8 * (y.size - n)) n) c.addr := fun c hc =>
    (same_setSize (hyfar c (hmem c hc).2)).trans (same_setSize (hfar c (hmem c hc).1))
  have hyt := hfar y hymem
  refine ⟨l', .of_path hrep.pos hs' ?_ ?_ ?_ (fun c hc => ?_) rfl, ⟨?_, hn, ?_⟩, rfl, ?_, fun x => ?_,
    fun a ha hla => ?_, rfl, rfl⟩
  · rw [Heap.ptr_withFreep]
    refine (hrep.rotated hs).congr (hkeep q List.mem_cons_self).1 fun x hx => ?_
    obtain ⟨c, hc, rfl⟩ := List.mem_map.mp hx
    rcases List.mem_cons.mp hc with rfl | hc
    · rw [Heap.ptr_setSize_of_far hyt, Heap.ptr_setSize]
    · exact (hkeep c (List.mem_cons_of_mem q hc)).1
  · rw [Heap.size_withFreep]
    intro c hc
    by_cases hcy : c = ⟨y.addr, y.size - n⟩
    · rw [hcy, Heap.size_setSize_of_far hyt, Heap.size_setSize, Nat.mod_eq_of_lt (by omega)]
    · have hc : c ∈ q :: (ys ++ xs) := by
        simp only [List.mem_append, List.mem_cons, List.not_mem_nil, or_false] at hc ⊢
        tauto
      rw [(hkeep c hc).2]
      exact hrep.size c (hmem c hc).1
  · have hap := hrep.apart
    rw [hs.shift] at hap
    have hle : Block.stop ⟨y.addr, y.size - n⟩ ≤ y.stop := by
      simp only [Block.stop]
      omega
    have haddr : Block.addr ⟨y.addr, y.size - n⟩ = y.addr := rfl
    have hshrunk := pairwise_shrink hap haddr hle
    rwa [List.append_assoc] at hshrunk
  · rcases hsub c hc with hc | hc
    · exact hrep.inner c hc
    · rw [List.mem_singleton.mp hc]
      refine ⟨habove, Nat.sub_pos_of_lt hlt, ?_⟩
      simp only [Block.stop]
      omega
  · show base + 8 ≤ y.addr + 8 * (y.size - n)
    omega
  · simp only [Block.stop]
    omega
  · rw [Heap.size_withFreep, Heap.size_setSize, Nat.mod_eq_of_lt (by omega)]
  · have hjoin := has_join (b := ⟨y.addr, y.size - n⟩) (c := ⟨y.addr + 8 * (y.size - n), n⟩) rfl x
    have hwhole : Block.mk y.addr (y.size - n + n) = y := by
      rw [Nat.sub_add_cancel (Nat.le_of_lt hlt)]
    simp only [hwhole] at hjoin
    rw [cover_cons, hs.cover_eq, hs'.cover_eq]
    simp only [cover_cons, List.singleton_append]
    omega
  · rw [Same, Heap.ptr_withFreep, Heap.size_withFreep]
    exact (same_setSize (hla y hymem)).trans (same_setSize ha)

/-- `malloc` hands out the block it has found, or the tail end of it. -/
theorem Rep.take_spec (hrep : Rep base h l) {prev : Nat} (hprev : prev ∈ addrs (⟨base, 0⟩ :: l))
    (hn : 0 < n) (hfit : n ≤ h.size (h.ptr prev)) :
    ∃ t h' l', Taken base h l n h' l' t ∧ take n prev (h.ptr prev) h = (t.addr + 8, h') := by
  obtain ⟨q, hq, rfl⟩ := List.mem_map.mp hprev
  obtain ⟨xs, ys, hs⟩ := List.append_of_mem hq
  have hnext := hrep.next hs
  cases ys with
  | nil =>
    -- `base` is too small
    have hbase : h.ptr q.addr = base := hnext
    have hzero : h.size base = 0 := hrep.size ⟨base, 0⟩ List.mem_cons_self
    rw [hbase, hzero] at hfit
    omega
  | cons y ys =>
    have hy : h.ptr q.addr = y.addr := hnext
    have hsize : h.size y.addr = y.size := hrep.size y (by rw [hs]; simp)
    have hin : y.Inner base := hrep.inner y (Split.mem_of_behind hs List.mem_cons_self)
    have hlt := hin.addr_lt
    have hbelow := hin.below
    rw [hy, hsize] at hfit
    rw [hy]
    by_cases heq : y.size = n
    · subst heq
      obtain ⟨l', htaken⟩ := hrep.take_whole hs
      refine ⟨y, _, l', htaken, ?_⟩
      rw [take, if_pos hsize, plus, Nat.mod_eq_of_lt (by omega)]
    · obtain ⟨l', htaken⟩ := hrep.take_part hs hn (Nat.lt_of_le_of_ne hfit (Ne.symm heq))
      refine ⟨_, _, l', htaken, ?_⟩
      have hstop : y.stop = y.addr + 8 * y.size := rfl
      have hpart : (y.size - n) % 2 ^ 32 = y.size - n := Nat.mod_eq_of_lt (by omega)
      rw [take, hsize, if_neg heq]
      simp only [Heap.size_setSize, hpart, plus]
      rw [Nat.mod_eq_of_lt (a := y.addr + 8 * (y.size - n)) (by omega), Nat.mod_eq_of_lt (by omega)]

end Take

theorem ok_bind {α β : Type} (a : α) (f : α → Except Stop β) : Except.ok a >>= f = f a := rfl

section Loop
variable {base n lim : Nat} {h h' : Heap} {l l' : List Block} {f : Sbrk} {sbrks : Nat → Sbrk}

/-- What `morecore` does to the list `l` of the free blocks when it obtains the block `c`. -/
structure Grown (base : Nat) (h : Heap) (l : List Block) (n : Nat) (h' : Heap) (l' : List Block)
    (c : Block) : Prop where
  rep : Rep base h' l'
  inner : c.Inner base
  cover : ∀ x, cover x l' = cover x (c :: l)
  large : ∃ b ∈ l', n ≤ b.size
  length : l'.length ≤ l.length + 1
  same : ∀ a, a + 8 ≤ h.brk → (∀ b ∈ Block.mk base 0 :: l, Far b.addr a) → Same h h' a
  fresh : h.brk ≤ c.addr
  brk : h'.brk = c.stop
  got : h'.got = c :: h.got

/-- The break is above the variable `base` and above everything that `morecore` has obtained. -/
structure Below (base : Nat) (h : Heap) (l : List Block) : Prop where
  base_le : base + 8 ≤ h.brk
  lt : h.brk < 2 ^ 32
  free : ∀ b ∈ l, b.stop ≤ h.brk

/-- The heap when `morecore` frees the `nu` units it has obtained. -/
def Heap.grow (h : Heap) (gap nu : Nat) : Heap :=
  Heap.setSize { h with brk := h.brk + gap + nu * 8, got := ⟨h.brk + gap, nu⟩ :: h.got }
    (h.brk + gap) nu

theorem same_grow {gap nu a : Nat} (ha : a + 8 ≤ h.brk) : Same h (h.grow gap nu) a :=
  same_setSize (h := { h with brk := h.brk + gap + nu * 8, got := ⟨h.brk + gap, nu⟩ :: h.got })
    (.inr (Nat.le_trans ha (Nat.le_add_right ..)))

/-- The block that `sbrk` returns is freed into the list. -/
theorem grown_of_room {gap nu : Nat} (hrep : Rep base h l) (hbelow : Below base h l) (hpos : 0 < nu)
    (hfit : h.brk + gap + nu * 8 < 2 ^ 32) :
    ∃ h' l', Grown base h l nu h' l' ⟨h.brk + gap, nu⟩ ∧ ∀ fuel, l.length < fuel →
      free fuel (plus (h.brk + gap) 1) (h.grow gap nu) = .ok h' := by
  have hbase := hbelow.base_le
  have hcin : Block.Inner base ⟨h.brk + gap, nu⟩ := by
    refine ⟨?_, hpos, ?_⟩
    · show base + 8 ≤ h.brk + gap
      omega
    · simp only [Block.stop]
      omega
  have hlow : ∀ b ∈ l, b.stop ≤ h.brk + gap := fun b hb =>
    Nat.le_trans (hbelow.free b hb) (Nat.le_add_right ..)
  have hold : ∀ b ∈ Block.mk base 0 :: l, b.addr + 8 ≤ h.brk := by
    refine List.forall_mem_cons.mpr ⟨hbase, fun b hb => ?_⟩
    exact Nat.le_trans (hrep.inner b hb).addr_lt (hbelow.free b hb)
  have hrep' : Rep base (h.grow gap nu) l := hrep.congr (fun b hb => same_grow (hold b hb)) rfl
  have hsize : (h.grow gap nu).size (h.brk + gap) = nu := by
    rw [Heap.grow, Heap.size_setSize, Nat.mod_eq_of_lt (by omega)]
  obtain ⟨h', l', hfreed, hfree⟩ := hrep'.free_spec hcin hsize fun b hb => .inl (hlow b hb)
  have hplus : plus (h.brk + gap) 1 = h.brk + gap + 8 := Nat.mod_eq_of_lt (by omega)
  refine ⟨h', l', ⟨hfreed.rep, hcin, hfreed.cover, hfreed.large, hfreed.length,
    fun a ha hla => ?_, Nat.le_add_right .., ?_, hfreed.got⟩, ?_⟩
  · have hfar : Far (h.brk + gap) a := .inr (Nat.le_trans ha (Nat.le_add_right ..))
    exact (same_grow ha).trans (hfreed.same a hfar hla)
  · rw [hfreed.brk, Block.stop, Nat.mul_comm 8]
    rfl
  · rw [hplus]
    exact hfree

/-- For an `int` from the size of a header on, `f` fails or returns fresh bytes that end below `lim`. -/
def Fresh (lim : Nat) (f : Sbrk) (h : Heap) : Prop :=
  ∀ k, 8 ≤ k → k < 2 ^ 31 → f k h = .ok (none, h) ∨
    ∃ gap, h.brk + gap + k < lim ∧ f k h = .ok (some (h.brk + gap), { h with brk := h.brk + gap + k })

theorem sbrk_fresh (gap : Option Nat) : Fresh (2 ^ 32) (sbrk gap) h := by
  intro k hpos hk
  unfold sbrk
  rw [if_neg (by omega)]
  cases gap with
  | none => exact .inl rfl
  | some gap =>
    by_cases hfit : h.brk + gap + k < 2 ^ 32
    · exact .inr ⟨gap, hfit, if_pos hfit⟩
    · exact .inl (if_neg hfit)

theorem morecore_spec (hrep : Rep base h l) (hbelow : Below base h l) (hn : n * 8 < 2 ^ 31) (hf : Fresh lim f h)
    (hlim : lim ≤ 2 ^ 32) :
    (∀ fuel, morecore f fuel n h = .ok (0, h)) ∨
      ∃ h' l' c, Grown base h l n h' l' c ∧ c.stop < lim ∧
        ∀ fuel, l.length < fuel → morecore f fuel n h = .ok (h'.freep, h') := by
  obtain ⟨nu, hnu, hle, hpos, hsmall⟩ : ∃ nu, (if n < 4096 then 4096 else n) = nu ∧ n ≤ nu ∧
      0 < nu ∧ nu * 8 < 2 ^ 31 := by
    refine ⟨_, rfl, ?_⟩
    split <;> omega
  have hmod : nu * 8 % 2 ^ 32 = nu * 8 := Nat.mod_eq_of_lt (by omega)
  rcases hf (nu * 8) (by omega) hsmall with hfail | ⟨gap, hfit, hgot⟩
  · refine .inl fun fuel => ?_
    simp only [morecore, hnu, hmod, hfail, ok_bind]
  · obtain ⟨h', l', hgrown, hfree⟩ := grown_of_room hrep hbelow hpos (Nat.lt_of_lt_of_le hfit hlim)
    refine .inr ⟨h', l', _, { hgrown with large := ?_ }, ?_, fun fuel hfuel => ?_⟩
    · obtain ⟨b, hb, hle'⟩ := hgrown.large
      exact ⟨b, hb, Nat.le_trans hle hle'⟩
    · rwa [Block.stop, Nat.mul_comm]
    · have hgo := hfree fuel hfuel
      rw [Heap.grow] at hgo
      simp only [morecore, hnu, hmod, hgot, ok_bind, hgo]

theorem mallocLoop_walk {prev k : Nat} (fuel calls : Nat)
    (hk : ∀ i < k, ¬ n ≤ h.size (h.ptr^[i + 1] prev) ∧ h.ptr^[i + 1] prev ≠ h.freep) :
    mallocLoop n sbrks (k + fuel) calls prev (h.ptr prev) h =
      mallocLoop n sbrks fuel calls (h.ptr^[k] prev) (h.ptr^[k + 1] prev) h := by
  induction k generalizing prev with
  | zero => rw [Nat.zero_add]; rfl
  | succ k ih =>
    obtain ⟨hsize, hne⟩ : ¬ n ≤ h.size (h.ptr prev) ∧ h.ptr prev ≠ h.freep := hk 0 (Nat.succ_pos k)
    rw [Nat.succ_add, mallocLoop, if_neg hsize, if_neg hne]
    exact ih fun i hi => hk (i + 1) (Nat.succ_lt_succ hi)

/-- With a large enough block in the list, `malloc` finds one in a turn. -/
theorem Rep.mallocLoop_found (hrep : Rep base h l) (hn : 0 < n) (hlarge : ∃ b ∈ l, n ≤ b.size)
    (sbrks : Nat → Sbrk) (calls : Nat) :
    ∃ t h' l', Taken base h l n h' l' t ∧ ∀ fuel, l.length < fuel →
      mallocLoop n sbrks fuel calls h.freep (h.ptr h.freep) h = .ok (t.addr + 8, h', calls) := by
  obtain ⟨b, hb, hfit⟩ := hlarge
  have hb := List.mem_cons_of_mem (Block.mk base 0) hb
  rw [← hrep.size b hb] at hfit
  obtain ⟨k, hk, hfound, hbefore⟩ :=
    hrep.cyc.ahead (P := fun x => n ≤ h.size x) hrep.freep (List.mem_map_of_mem hb) hfit
  rw [Function.iterate_succ_apply'] at hfound
  obtain ⟨t, h', l', htaken, htake⟩ := hrep.take_spec (hrep.cyc.iterate_mem hrep.freep k) hn hfound
  refine ⟨t, h', l', htaken, fun fuel hf => ?_⟩
  rw [addrs, List.length_map, List.length_cons] at hk
  obtain ⟨rest, rfl⟩ : ∃ rest, fuel = k + (rest + 1) := ⟨fuel - k - 1, by omega⟩
  rw [mallocLoop_walk _ _ hbefore, Function.iterate_succ_apply', mallocLoop, if_pos hfound, htake]

/-- Otherwise it calls `morecore` when it is back where it began. -/
theorem Rep.mallocLoop_none (hrep : Rep base h l) (hn : 0 < n) (hnone : ∀ b ∈ l, b.size < n)
    (sbrks : Nat → Sbrk) (calls : Nat) :
    ∃ k ≤ l.length, ∀ fuel, mallocLoop n sbrks (k + (fuel + 1)) calls h.freep (h.ptr h.freep) h =
      (morecore (sbrks calls) fuel n h >>= fun r => if r.1 = 0 then .ok (0, r.2, calls + 1)
        else mallocLoop n sbrks fuel (calls + 1) r.1 (r.2.ptr r.1) r.2) := by
  have hsmall : ∀ x ∈ addrs (⟨base, 0⟩ :: l), ¬ n ≤ h.size x := by
    intro x hx
    obtain ⟨b, hb, rfl⟩ := List.mem_map.mp hx
    rw [hrep.size b hb]
    rcases List.mem_cons.mp hb with rfl | hb
    · exact Nat.not_le.mpr hn
    · exact Nat.not_le.mpr (hnone b hb)
  obtain ⟨k, hk, hback, hbefore⟩ := hrep.cyc.ahead (P := (· = h.freep)) hrep.freep hrep.freep rfl
  rw [addrs, List.length_map, List.length_cons] at hk
  refine ⟨k, Nat.le_of_lt_succ hk, fun fuel => ?_⟩
  rw [mallocLoop_walk (k := k) _ _ fun i hi => ⟨hsmall _ (hrep.cyc.iterate_mem hrep.freep _), (hbefore i hi).1⟩,
    hback, mallocLoop, if_neg (hsmall _ hrep.freep), if_pos rfl]

/-- The ways a call of `malloc` goes: a block of the list is large enough, or `morecore` fails, or
it succeeds and the block is taken from the longer list. -/
theorem Rep.malloc_spec (hrep : Rep base h l) (hbelow : Below base h l) (hn : 0 < n)
    (hn' : n * 8 < 2 ^ 31) (hf : Fresh lim (sbrks 0) h) (hlim : lim ≤ 2 ^ 32) :
    ∃ r N, (∀ fuel ≥ N, mallocLoop n sbrks fuel 0 h.freep (h.ptr h.freep) h = .ok r) ∧
      ((∃ t l', Taken base h l n r.2.1 l' t ∧ r.1 = t.addr + 8 ∧ r.2.2 = 0) ∨
        r = (0, h, 1) ∨
        ∃ h₁ l₁ c t l', Grown base h l n h₁ l₁ c ∧ c.stop < lim ∧ Taken base h₁ l₁ n r.2.1 l' t ∧
          r.1 = t.addr + 8 ∧ r.2.2 = 1) := by
  by_cases hlarge : ∃ b ∈ l, n ≤ b.size
  · obtain ⟨t, h', l', htaken, hloop⟩ := hrep.mallocLoop_found hn hlarge sbrks 0
    exact ⟨_, l.length + 1, hloop, .inl ⟨t, l', htaken, rfl, rfl⟩⟩
  · push Not at hlarge
    obtain ⟨k, hk, hloop⟩ := hrep.mallocLoop_none hn hlarge sbrks 0
    rcases morecore_spec hrep hbelow hn' hf hlim with hfail | ⟨h₁, l₁, c, hgrown, hstop, hmore⟩
    · refine ⟨(0, h, 1), l.length + 1, fun fuel hf => ?_, .inr (.inl rfl)⟩
      obtain ⟨rest, rfl⟩ : ∃ rest, fuel = k + (rest + 1) := ⟨fuel - k - 1, by omega⟩
      rw [hloop, hfail, ok_bind, if_pos rfl]
    · obtain ⟨t, h', l', htaken, hfound⟩ := hgrown.rep.mallocLoop_found hn hgrown.large sbrks 1
      refine ⟨(t.addr + 8, h', 1), 2 * l.length + 5, fun fuel hf => ?_,
        .inr (.inr ⟨h₁, l₁, c, t, l', hgrown, hstop, htaken, rfl, rfl⟩)⟩
      obtain ⟨rest, rfl⟩ : ∃ rest, fuel = k + (rest + 1) := ⟨fuel - k - 1, by omega⟩
      have hlen := hgrown.length
      rw [hloop, hmore rest (by omega), ok_bind, if_neg hgrown.rep.freep_ne_zero]
      exact hfound rest (by omega)

end Loop

section Fuel
variable {h h' : Heap} {f : Sbrk} {sbrks : Nat → Sbrk} {n fuel fuel' : Nat} {α β : Type} {x y : Except Stop α}

/-- When `x` is not out of fuel, `y` is the same. -/
def Agrees (x y : Except Stop α) : Prop := x = .error .fuel ∨ x = y

theorem Agrees.bind {f g : α → Except Stop β} (hxy : Agrees x y) (hfg : ∀ a, Agrees (f a) (g a)) :
    Agrees (x >>= f) (y >>= g) := by
  rcases hxy with rfl | rfl
  · exact .inl rfl
  · cases x with
    | error e => exact .inr rfl
    | ok a => exact hfg a

theorem Agrees.ite {c : Prop} [Decidable c] {x' y' : Except Stop α} (hx : Agrees x x')
    (hy : Agrees y y') : Agrees (if c then x else y) (if c then x' else y') := by
  split
  · exact hx
  · exact hy

theorem Agrees.ok {r : α} (h : Agrees x y) (hx : x = .ok r) : y = .ok r := by
  rcases h with h | h
  · rw [h] at hx
    cases hx
  · rw [← h, hx]

theorem freeLoop_mono {bp p : Nat} (hf : fuel ≤ fuel') :
    Agrees (freeLoop h bp fuel p) (freeLoop h bp fuel' p) := by
  induction fuel generalizing fuel' p with
  | zero => exact .inl rfl
  | succ fuel ih =>
    obtain ⟨rest, rfl⟩ := Nat.exists_eq_add_of_lt (Nat.lt_of_succ_le hf)
    exact .ite (.inr rfl) (.ite (.inr rfl) (ih (Nat.le_add_right ..)))

theorem free_mono {ap : Nat} (hf : fuel ≤ fuel') : Agrees (free fuel ap h) (free fuel' ap h) :=
  (freeLoop_mono hf).bind fun _ => .inr rfl

theorem morecore_mono (hf : fuel ≤ fuel') : Agrees (morecore f fuel n h) (morecore f fuel' n h) := by
  refine Agrees.bind (.inr rfl) fun s => ?_
  obtain ⟨_ | hp, h₁⟩ := s
  · exact .inr rfl
  · exact (free_mono hf).bind fun _ => .inr rfl

theorem mallocLoop_mono {calls prev p : Nat} (hf : fuel ≤ fuel') :
    Agrees (mallocLoop n sbrks fuel calls prev p h) (mallocLoop n sbrks fuel' calls prev p h) := by
  induction fuel generalizing fuel' calls prev p h with
  | zero => exact .inl rfl
  | succ fuel ih =>
    obtain ⟨rest, rfl⟩ := Nat.exists_eq_add_of_lt (Nat.lt_of_succ_le hf)
    have hle := Nat.le_add_right fuel rest
    exact .ite (.inr rfl) (.ite ((morecore_mono hle).bind fun _ => .ite (.inr rfl) (ih hle)) (ih hle))

end Fuel

section Covers
variable {base x : Nat} {l l' : List Block} {b c : Block}

theorem cover_pos : 0 < cover x l ↔ ∃ b ∈ l, b.Has x := by
  simp only [cover, List.countP_pos_iff, decide_eq_true_eq]

/-- The blocks share no byte. -/
def Separate (b c : Block) : Prop := b.stop ≤ c.addr ∨ c.stop ≤ b.addr

instance : Std.Symm Separate := ⟨fun _ _ h => Or.symm h⟩

theorem separate_of_not_has (hb : b.Inner base) (hc : c.Inner base)
    (hx : ∀ x, ¬ (b.Has x ∧ c.Has x)) : Separate b c := by
  have hblt := hb.addr_lt
  have hclt := hc.addr_lt
  have hmax := hx (max b.addr c.addr)
  simp only [Block.Has] at hmax
  unfold Separate
  omega

/-- Blocks that cover no byte twice share none. -/
theorem pairwise_separate (hin : ∀ b ∈ l, b.Inner base) (honce : ∀ x, cover x l ≤ 1) :
    l.Pairwise Separate := by
  induction l with
  | nil => exact .nil
  | cons b l ih =>
    obtain ⟨hb, hl⟩ := List.forall_mem_cons.mp hin
    refine List.pairwise_cons.mpr ⟨fun c hc => ?_, ih hl fun x => ?_⟩
    · refine separate_of_not_has hb (hl c hc) fun x hx => ?_
      have htwo := honce x
      have hpos : 0 < cover x l := cover_pos.mpr ⟨c, hc, hx.2⟩
      rw [cover_cons, if_pos hx.1] at htwo
      omega
    · have hle := honce x
      rw [cover_cons] at hle
      omega

end Covers

section Invariant
variable {base : Nat} {s : State} {h h' : Heap} {live : List Live} {l l' : List Block}

/-- The free blocks are `l`; they and the live blocks cover what `morecore` has obtained, once. -/
structure Inv (base : Nat) (h : Heap) (live : List Live) (l : List Block) : Prop where
  rep : Rep base h l
  inner : ∀ b ∈ live, b.Inner base
  header : ∀ b ∈ live, h.size b.addr = b.size ∧ h.ptr b.addr = b.ptr
  enough : ∀ b ∈ live, b.nbytes + 8 ≤ 8 * b.size
  covers : ∀ x, cover x (l ++ live.map Live.toBlock) = cover x h.got
  once : ∀ x, cover x h.got ≤ 1
  below : ∀ c ∈ h.got, c.stop ≤ h.brk
  base_le : base + 8 ≤ h.brk
  brk_lt : h.brk < 2 ^ 32

theorem Inv.all_inner (hi : Inv base h live l) : ∀ b ∈ l ++ live.map Live.toBlock, b.Inner base := by
  intro b hb
  rcases List.mem_append.mp hb with hb | hb
  · exact hi.rep.inner b hb
  · obtain ⟨c, hc, rfl⟩ := List.mem_map.mp hb
    exact hi.inner c hc

theorem Inv.separate (hi : Inv base h live l) : (l ++ live.map Live.toBlock).Pairwise Separate :=
  pairwise_separate hi.all_inner fun x => (hi.covers x).symm ▸ hi.once x

theorem Inv.stop_le (hi : Inv base h live l) {b : Block} (hb : b ∈ l ++ live.map Live.toBlock) :
    b.stop ≤ h.brk := by
  have hlt := (hi.all_inner b hb).addr_lt
  have hpos : 0 < cover (b.stop - 1) h.got := by
    rw [← hi.covers]
    exact cover_pos.mpr ⟨b, hb, by unfold Block.Has; omega⟩
  obtain ⟨c, hc, hhas⟩ := cover_pos.mp hpos
  have hle := hi.below c hc
  have hlast := hhas.2
  omega

theorem Inv.toBelow (hi : Inv base h live l) : Below base h l :=
  ⟨hi.base_le, hi.brk_lt, fun _ hb => hi.stop_le (List.mem_append_left _ hb)⟩

/-- The header of a live block is none of the free list's. -/
theorem Inv.far (hi : Inv base h live l) {b : Live} (hb : b ∈ live) :
    ∀ c ∈ Block.mk base 0 :: l, Far c.addr b.addr := by
  have hbin := hi.inner b hb
  refine List.forall_mem_cons.mpr ⟨.inl hbin.above, fun c hc => ?_⟩
  refine (hi.rep.inner c hc).far hbin ?_
  exact (List.pairwise_append.mp hi.separate).2.2 c hc b.toBlock (List.mem_map_of_mem hb)

theorem Inv.grown {n : Nat} {c : Block} (hi : Inv base h live l) (hg : Grown base h l n h' l' c) :
    Inv base h' live l' := by
  have hfresh := hg.fresh
  have hcbelow := hg.inner.below
  have hle := c.addr_le_stop
  refine ⟨hg.rep, hi.inner, fun b hb => ?_, hi.enough, fun x => ?_, fun x => ?_, ?_, ?_, ?_⟩
  · have hstop := hi.stop_le (List.mem_append_right l (List.mem_map_of_mem hb))
    have hsame := hg.same b.addr (Nat.le_trans (hi.inner b hb).addr_lt hstop) (hi.far hb)
    rw [hsame.1, hsame.2]
    exact hi.header b hb
  · have hold := hi.covers x
    rw [cover_append] at hold ⊢
    rw [hg.cover, hg.got, cover_cons, cover_cons]
    omega
  · rw [hg.got, cover_cons]
    by_cases hx : c.Has x
    · -- the new bytes are above all the old ones
      have hzero : cover x h.got = 0 := by
        by_contra hne
        obtain ⟨d, hd, hdx⟩ := cover_pos.mp (Nat.pos_of_ne_zero hne)
        have hdle := hi.below d hd
        have hlow := hx.1
        have hhigh := hdx.2
        omega
      rw [hzero, if_pos hx]
    · rw [if_neg hx]
      exact hi.once x
  · rw [hg.got, hg.brk]
    refine List.forall_mem_cons.mpr ⟨Nat.le_refl _, fun d hd => ?_⟩
    have hdle := hi.below d hd
    omega
  · have hbase := hi.base_le
    rw [hg.brk]
    omega
  · rw [hg.brk]
    exact hcbelow

theorem Inv.taken {n nbytes : Nat} {t : Block} (hi : Inv base h live l)
    (ht : Taken base h l n h' l' t) (hn : nbytes + 8 ≤ 8 * n) :
    Inv base h' (h'.live (t.addr + 8) nbytes :: live) l' := by
  have hblock : (h'.live (t.addr + 8) nbytes).toBlock = t := by
    have hsize : h'.size (t.addr + 8 - 8) = t.size := by
      rw [Nat.add_sub_cancel, ht.size, ht.units]
    show Block.mk (t.addr + 8 - 8) (h'.size (t.addr + 8 - 8)) = t
    rw [hsize, Nat.add_sub_cancel]
  have hcover : ∀ x, cover x (l' ++ t :: live.map Live.toBlock) = cover x h'.got := by
    intro x
    have hold := hi.covers x
    have htake := ht.cover x
    rw [cover_append] at hold ⊢
    rw [cover_cons] at htake ⊢
    rw [ht.got]
    omega
  have hin : ∀ b ∈ l' ++ t :: live.map Live.toBlock, b.Inner base := by
    intro b hb
    rcases List.mem_append.mp hb with hb | hb
    · exact ht.rep.inner b hb
    · rcases List.mem_cons.mp hb with rfl | hb
      · exact ht.inner
      · exact hi.all_inner b (List.mem_append_right l hb)
  have hdis := pairwise_separate hin fun x => by
    rw [hcover, ht.got]
    exact hi.once x
  have hlive := List.pairwise_cons.mp (List.pairwise_append.mp hdis).2.1
  refine ⟨ht.rep, ?_, ?_, ?_, ?_, ?_, ?_, ?_, ?_⟩
  · exact List.forall_mem_cons.mpr ⟨hblock ▸ ht.inner, hi.inner⟩
  · refine List.forall_mem_cons.mpr ⟨⟨rfl, rfl⟩, fun b hb => ?_⟩
    have hfar : Far t.addr b.addr := ht.inner.far (hi.inner b hb) (hlive.1 _ (List.mem_map_of_mem hb))
    have hsame := ht.same b.addr hfar (hi.far hb)
    rw [hsame.1, hsame.2]
    exact hi.header b hb
  · refine List.forall_mem_cons.mpr ⟨?_, hi.enough⟩
    have hsize : (h'.live (t.addr + 8) nbytes).size = n := by rw [hblock, ht.units]
    rw [hsize]
    exact hn
  · rw [List.map_cons, hblock]
    exact hcover
  · rw [ht.got]
    exact hi.once
  · rw [ht.got, ht.brk]
    exact hi.below
  · rw [ht.brk]
    exact hi.base_le
  · rw [ht.brk]
    exact hi.brk_lt

theorem Inv.free_spec (hi : Inv base h live l) {b : Live} (hb : b ∈ live) :
    ∃ h' l', Freed base h l b.toBlock h' l' ∧
      ∀ fuel, l.length < fuel → free fuel (b.addr + 8) h = .ok h' := by
  refine hi.rep.free_spec (hi.inner b hb) (hi.header b hb).1 fun c hc => ?_
  exact (List.pairwise_append.mp hi.separate).2.2 c hc b.toBlock (List.mem_map_of_mem hb)

/-- Two live blocks are the same or have different headers. -/
theorem Inv.live_far (hi : Inv base h live l) {xs ys : List Live} {b : Live}
    (hs : live = xs ++ b :: ys) : ∀ c ∈ xs ++ ys, Far b.addr c.addr := by
  have hdis := (List.pairwise_append.mp hi.separate).2.1
  rw [List.pairwise_map, hs, List.pairwise_append] at hdis
  obtain ⟨-, hys, hcross⟩ := hdis
  have hb := hi.inner b (by rw [hs]; simp)
  intro c hc
  have hc' := hi.inner c (by rw [hs]; simp at hc ⊢; tauto)
  rcases List.mem_append.mp hc with hc | hc
  · exact (hc'.far hb (hcross c hc b List.mem_cons_self)).symm
  · exact hb.far hc' ((List.pairwise_cons.mp hys).1 c hc)

theorem Inv.filter_eq (hi : Inv base h live l) {xs ys : List Live} {b : Live}
    (hs : live = xs ++ b :: ys) : live.filter (fun c => c.addr + 8 ≠ b.addr + 8) = xs ++ ys := by
  have hne : ∀ c ∈ xs ++ ys, decide (c.addr + 8 ≠ b.addr + 8) = true := by
    intro c hc
    have hfar := hi.live_far hs c hc
    unfold Far at hfar
    exact decide_eq_true (by omega)
  have hkeep := List.filter_eq_self.mpr hne
  rw [List.filter_append] at hkeep
  rw [hs, List.filter_append, List.filter_cons_of_neg (by simp)]
  exact hkeep

theorem Inv.freed {b : Live} (hi : Inv base h live l) (hb : b ∈ live)
    (hf : Freed base h l b.toBlock h' l') :
    Inv base h' (live.filter fun c => c.addr + 8 ≠ b.addr + 8) l' := by
  obtain ⟨xs, ys, hs⟩ := List.append_of_mem hb
  have hsub : ∀ c ∈ xs ++ ys, c ∈ live := by
    intro c hc
    rw [hs]
    simp only [List.mem_append, List.mem_cons] at hc ⊢
    tauto
  rw [hi.filter_eq hs]
  refine ⟨hf.rep, fun c hc => hi.inner c (hsub c hc), fun c hc => ?_,
    fun c hc => hi.enough c (hsub c hc), fun x => ?_, ?_, ?_, ?_, ?_⟩
  · have hsame := hf.same c.addr (hi.live_far hs c hc) (hi.far (hsub c hc))
    rw [hsame.1, hsame.2]
    exact hi.header c (hsub c hc)
  · have hold := hi.covers x
    rw [hs, List.map_append, List.map_cons, cover_append, cover_append, cover_cons] at hold
    rw [List.map_append, cover_append, cover_append, hf.cover, cover_cons, hf.got]
    omega
  · rw [hf.got]
    exact hi.once
  · rw [hf.got, hf.brk]
    exact hi.below
  · rw [hf.brk]
    exact hi.base_le
  · rw [hf.brk]
    exact hi.brk_lt

theorem same_write {a p : Nat} (v : UInt8) (ha : ¬ (p ≤ a ∧ a < p + 8)) :
    Same h { h with mem := Function.update h.mem a v } p := by
  have hslice : ∀ q, p ≤ q → q + 4 ≤ p + 8 →
      Bytes.slice (Function.update h.mem a v) q 4 = Bytes.slice h.mem q 4 := by
    intro q hq hq'
    refine Bytes.slice_congr fun i hi => Function.update_of_ne ?_ ..
    omega
  exact ⟨congrArg Bytes.number (hslice p (Nat.le_refl p) (by omega)),
    congrArg Bytes.number (hslice (p + 4) (by omega) (Nat.le_refl _))⟩

/-- A byte of a header is not written. -/
theorem Inv.not_written (hi : Inv base h live l) {a : Nat}
    (ha : (∃ c ∈ h.got, c.Has a) → ∃ b ∈ live, b.addr + 8 ≤ a ∧ a < b.stop) {c : Block}
    (hc : c ∈ l ++ live.map Live.toBlock) : ¬ (c.addr ≤ a ∧ a < c.addr + 8) := by
  intro hin
  have hlt := (hi.all_inner c hc).addr_lt
  have hpos : 0 < cover a h.got := by
    rw [← hi.covers]
    exact cover_pos.mpr ⟨c, hc, hin.1, by omega⟩
  obtain ⟨b, hb, hlow, hhigh⟩ := ha (cover_pos.mp hpos)
  have hbmem : b.toBlock ∈ l ++ live.map Live.toBlock :=
    List.mem_append_right l (List.mem_map_of_mem hb)
  by_cases heq : c = b.toBlock
  · rw [heq] at hin
    omega
  · have hsep : Separate c b.toBlock := hi.separate.forall hc hbmem heq
    unfold Separate at hsep
    omega

theorem Inv.write {a : Nat} (v : UInt8) (hi : Inv base h live l)
    (hbase : ¬ (base ≤ a ∧ a < base + 8))
    (ha : (∃ c ∈ h.got, c.Has a) → ∃ b ∈ live, b.addr + 8 ≤ a ∧ a < b.stop) :
    Inv base { h with mem := Function.update h.mem a v } live l := by
  have hfree : ∀ c ∈ Block.mk base 0 :: l,
      Same h { h with mem := Function.update h.mem a v } c.addr := by
    refine List.forall_mem_cons.mpr ⟨same_write v hbase, fun c hc => same_write v ?_⟩
    exact hi.not_written ha (List.mem_append_left _ hc)
  refine ⟨hi.rep.congr hfree rfl, hi.inner, fun b hb => ?_, hi.enough, hi.covers, hi.once, hi.below,
    hi.base_le, hi.brk_lt⟩
  have hmem := List.mem_append_right l (List.mem_map_of_mem (f := Live.toBlock) hb)
  have hsame : Same h { h with mem := Function.update h.mem a v } b.addr :=
    same_write v (hi.not_written ha hmem)
  rw [hsame.1, hsame.2]
  exact hi.header b hb

end Invariant

section Runs
variable {base nbytes : Nat} {s s' : State} {e : Call}

/-- The list is not made yet, or the invariant holds. -/
def Good (base : Nat) (s : State) : Prop := Init base s ∨ ∃ l, Inv base s.heap s.live l

theorem Inv.prepared (hg : Good base s) : ∃ l, Inv base (prepare base s.heap) s.live l := by
  unfold prepare
  rcases hg with ⟨hpos, hbase, hbrk, hfreep, hgot, hlive⟩ | ⟨l, hi⟩
  · rw [if_pos hfreep, hlive]
    refine ⟨[], ⟨hpos, ?_, ?_, List.pairwise_singleton .., ?_, List.mem_singleton_self _⟩, ?_, ?_, ?_,
      fun x => ?_, fun x => ?_, ?_, hbase, hbrk⟩
    · show Heap.ptr _ base = base
      rw [Heap.ptr_setSize, Heap.ptr_setPtr, Nat.mod_eq_of_lt (by omega)]
    · intro b hb
      rw [List.mem_singleton.mp hb]
      exact Heap.size_setSize
    · exact fun b hb => by cases hb
    · exact fun b hb => by cases hb
    · exact fun b hb => by cases hb
    · exact fun b hb => by cases hb
    · show cover x [] = cover x s.heap.got
      rw [hgot]
    · show cover x s.heap.got ≤ 1
      rw [hgot]
      exact Nat.zero_le 1
    · show ∀ c ∈ s.heap.got, c.stop ≤ s.heap.brk
      rw [hgot]
      exact fun b hb => by cases hb
  · rw [if_neg hi.rep.freep_ne_zero]
    exact ⟨l, hi⟩

theorem prepare_brk (base : Nat) (h : Heap) : (prepare base h).brk = h.brk := by
  unfold prepare
  split <;> rfl

/-- Every call of `malloc` returns, after at most one call of `morecore`, does not move the break
down and keeps the invariant. -/
theorem Good.malloc_spec {g : Nat → Sbrk} {lim : Nat} (hg : Good base s) (hn : Small nbytes)
    (hf : Fresh lim (g 0) (prepare base s.heap)) (hlim : lim ≤ 2 ^ 32) :
    ∃ r N, (∀ fuel ≥ N, malloc base fuel nbytes g s.heap = .ok r) ∧ r.2.2 ≤ 1 ∧
      (s.heap.brk ≤ r.2.1.brk ∧ (s.heap.brk < lim → r.2.1.brk < lim)) ∧
      ∃ l, Inv base r.2.1 (if r.1 = 0 then s.live else r.2.1.live r.1 nbytes :: s.live) l := by
  obtain ⟨l, hi⟩ := Inv.prepared hg
  unfold Small at hn
  have hunits : units nbytes = (nbytes + 8 - 1) / 8 + 1 := by
    rw [units, Nat.mod_eq_of_lt (by omega)]
  have henough : nbytes + 8 ≤ 8 * units nbytes := by omega
  obtain ⟨r, N, hloop, hcase⟩ :=
    hi.rep.malloc_spec hi.toBelow (n := units nbytes) (by omega) (by omega) hf hlim
  refine ⟨r, N, hloop, ?_⟩
  rw [← prepare_brk base s.heap]
  rcases hcase with ⟨t, l', htaken, hr, hcalls⟩ | rfl | ⟨h₁, l₁, c, t, l', hgrown, hstop, htaken, hr, hcalls⟩
  · rw [hcalls, hr, if_neg (Nat.succ_ne_zero _), htaken.brk]
    exact ⟨Nat.zero_le 1, ⟨le_rfl, id⟩, l', hi.taken htaken henough⟩
  · exact ⟨Nat.le_refl 1, ⟨le_rfl, id⟩, l, hi⟩
  · rw [hcalls, hr, if_neg (Nat.succ_ne_zero _), htaken.brk, hgrown.brk]
    exact ⟨Nat.le_refl 1, ⟨hgrown.fresh.trans c.addr_le_stop, fun _ => hstop⟩, l', (hi.grown hgrown).taken htaken henough⟩

/-- The same, whatever fuel the call has. -/
theorem Good.malloc_agrees {g : Nat → Sbrk} {lim : Nat} (hg : Good base s) (hn : Small nbytes)
    (hf : Fresh lim (g 0) (prepare base s.heap)) (hlim : lim ≤ 2 ^ 32) :
    ∃ r, (∀ fuel, Agrees (malloc base fuel nbytes g s.heap) (.ok r)) ∧
      (s.heap.brk ≤ r.2.1.brk ∧ (s.heap.brk < lim → r.2.1.brk < lim)) ∧
      ∃ l, Inv base r.2.1 (if r.1 = 0 then s.live else r.2.1.live r.1 nbytes :: s.live) l := by
  obtain ⟨r, N, hmalloc, -, hrest⟩ := hg.malloc_spec hn hf hlim
  refine ⟨r, fun fuel => ?_, hrest⟩
  rw [← hmalloc (max fuel N) (Nat.le_max_right fuel N)]
  exact mallocLoop_mono (Nat.le_max_left fuel N)

theorem Good.step (hg : Good base s) (hok : Proper base s e) (hs : step base s e = some s') :
    Good base s' := by
  cases e with
  | malloc fuel nbytes gaps =>
    obtain ⟨r, hmalloc, -, hinv⟩ := hg.malloc_agrees (g := fun i => sbrk (gaps i)) hok (sbrk_fresh _) le_rfl
    cases hm : malloc base fuel nbytes (fun i => sbrk (gaps i)) s.heap with
    | error e => simp [Umalloc.step, hm] at hs
    | ok r' =>
      cases (hmalloc fuel).ok hm
      simp only [Umalloc.step, hm, Option.some.injEq] at hs
      subst hs
      exact .inr hinv
  | free fuel ap =>
    obtain ⟨b, hb, rfl⟩ := hok
    rcases hg with hinit | ⟨l, hi⟩
    · rw [hinit.2.2.2.2.2] at hb
      cases hb
    · obtain ⟨h', l', hfreed, hfree⟩ := hi.free_spec hb
      cases hm : free fuel (b.addr + 8) s.heap with
      | error e => simp [Umalloc.step, hm] at hs
      | ok h₁ =>
        have hmore := (free_mono (Nat.le_max_left fuel (l.length + 1))).ok hm
        rw [hfree _ (Nat.le_max_right fuel (l.length + 1))] at hmore
        cases hmore
        simp only [Umalloc.step, hm, Option.some.injEq] at hs
        subst hs
        exact .inr ⟨l', hi.freed hb hfreed⟩
  | write a v =>
    cases hs
    rcases hg with hinit | ⟨l, hi⟩
    · exact .inl hinit
    · exact .inr ⟨l, hi.write v hok.1 hok.2⟩

theorem good_of_reach (h : Machine.Reach (step base) (Init base) (Proper base) s) : Good base s :=
  h.invariant (fun _ hi => .inl hi) fun _ _ _ hg hok hs => hg.step hok hs

/-- The list that the pointers make, beginning at `base`: it is circular and goes once through
`ps`, upwards and then back to `base`, and no block of it ends where another one begins. -/
structure Listed (base : Nat) (h : Heap) (ps : List Nat) : Prop where
  head : ps.head? = some base
  circular : Cyc h.ptr ps
  freep : h.freep ∈ ps
  increasing : ps.Pairwise (· < ·)
  coalesced : ∀ p ∈ ps, ∀ q ∈ ps, p ≠ q → p + 8 * h.size p ≠ q

/-- The blocks at the addresses `ps`, by their headers. -/
def blocksAt (h : Heap) (ps : List Nat) : List Block := ps.map fun p => ⟨p, h.size p⟩

/-- The heap is in order: the free list, and the free and live blocks as a partition of the bytes
that `morecore` has obtained. -/
structure Consistent (base : Nat) (s : State) (ps : List Nat) : Prop where
  list : Listed base s.heap ps
  separate : (blocksAt s.heap ps ++ s.live.map Live.toBlock).Pairwise Separate
  partition : ∀ x, (∃ b ∈ blocksAt s.heap ps ++ s.live.map Live.toBlock, b.Has x) ↔
    ∃ c ∈ s.heap.got, c.Has x
  usable : ∀ b ∈ s.live, b.nbytes ≤ 8 * (b.size - 1)
  header : ∀ b ∈ s.live, s.heap.size b.addr = b.size ∧ s.heap.ptr b.addr = b.ptr

theorem Rep.listed {h : Heap} {l : List Block} (hrep : Rep base h l) :
    Listed base h (addrs (⟨base, 0⟩ :: l)) := by
  refine ⟨rfl, hrep.cyc, hrep.freep, ?_, ?_⟩
  · refine List.pairwise_map.mpr (hrep.apart.imp fun hbc => ?_)
    exact Nat.lt_of_le_of_lt (Block.addr_le_stop _) hbc
  · intro p hp q hq hne
    obtain ⟨b, hb, rfl⟩ := List.mem_map.mp hp
    obtain ⟨c, hc, rfl⟩ := List.mem_map.mp hq
    rw [hrep.size b hb]
    have hsymm : Std.Symm fun d d' => Apart d d' ∨ Apart d' d := ⟨fun _ _ => Or.symm⟩
    have hboth := (hrep.apart.imp (S := fun d d' => Apart d d' ∨ Apart d' d) .inl).forall hb hc
    rcases hboth (fun heq => hne (heq ▸ rfl)) with hbc | hcb
    · exact Nat.ne_of_lt hbc
    · have hlt : c.stop < b.addr := hcb
      have hle := b.addr_le_stop
      have hle' := c.addr_le_stop
      show b.stop ≠ c.addr
      omega

theorem Inv.consistent {l : List Block} (hi : Inv base s.heap s.live l) :
    Consistent base s (addrs (⟨base, 0⟩ :: l)) := by
  have hblocks : blocksAt s.heap (addrs (⟨base, 0⟩ :: l)) = ⟨base, 0⟩ :: l := by
    have hid : ∀ b ∈ Block.mk base 0 :: l, Block.mk b.addr (s.heap.size b.addr) = id b := by
      intro b hb
      rw [hi.rep.size b hb]
      rfl
    rw [blocksAt, addrs, List.map_map]
    exact (List.map_congr_left hid).trans (List.map_id _)
  refine ⟨hi.rep.listed, ?_, fun x => ?_, fun b hb => ?_, hi.header⟩
  · rw [hblocks, List.cons_append]
    refine List.pairwise_cons.mpr ⟨fun b hb => .inl ?_, hi.separate⟩
    exact Nat.le_trans (Nat.le_add_right base 8) (hi.all_inner b hb).above
  · rw [hblocks, ← cover_pos, ← cover_pos, List.cons_append, cover_base, hi.covers]
  · have henough := hi.enough b hb
    omega

/-- The allocator keeps the heap consistent. In every state that a program reaches with calls of
`malloc`, with calls of `free` on blocks it holds and with stores into its blocks, the heap is
consistent from the first call of `malloc` on, every `malloc` returns after at most one call of
`morecore`, and every `free` returns. -/
theorem malloc_free_consistent (h : Machine.Reach (step base) (Init base) (Proper base) s) :
    (s.heap.freep = 0 → s.heap.got = [] ∧ s.live = []) ∧
      (s.heap.freep ≠ 0 → ∃ ps, Consistent base s ps) ∧
      (∀ nbytes (gaps : Nat → Option Nat), Small nbytes → ∃ ap h' calls N, calls ≤ 1 ∧
        ∀ fuel ≥ N, malloc base fuel nbytes (fun i => sbrk (gaps i)) s.heap = .ok (ap, h', calls)) ∧
      ∀ b ∈ s.live, ∃ h' N, ∀ fuel ≥ N, free fuel (b.addr + 8) s.heap = .ok h' := by
  have hg := good_of_reach h
  refine ⟨fun hzero => ?_, fun hne => ?_, fun nbytes gaps hn => ?_, fun b hb => ?_⟩
  · rcases hg with hinit | ⟨l, hi⟩
    · exact hinit.2.2.2.2
    · exact absurd hzero hi.rep.freep_ne_zero
  · rcases hg with hinit | ⟨l, hi⟩
    · exact absurd hinit.2.2.2.1 hne
    · exact ⟨_, hi.consistent⟩
  · obtain ⟨⟨ap, h', calls⟩, N, hmalloc, hcalls, -⟩ := hg.malloc_spec (g := fun i => sbrk (gaps i)) hn (sbrk_fresh _) le_rfl
    exact ⟨ap, h', calls, N, hcalls, hmalloc⟩
  · rcases hg with hinit | ⟨l, hi⟩
    · rw [hinit.2.2.2.2.2] at hb
      cases hb
    · obtain ⟨h', l', -, hfree⟩ := hi.free_spec hb
      exact ⟨h', l.length + 1, hfree⟩

/-- A program whose heap begins at 8192. -/
def emptyHeap : State := ⟨⟨fun _ => 0, 0, 8192, []⟩, []⟩

/-- Two blocks are taken from the end of the first core, and the upper one is freed. -/
def freeUpper : List Call :=
  [.malloc 9 100 fun _ => some 0, .malloc 9 20 fun _ => some 0, .write 40830 7, .free 9 40856]

theorem malloc_free_consistent_freeUpper :
    ∃ s ps, Consistent 4096 s ps ∧ s.live = [⟨⟨40816, 4⟩, 20, 0⟩] ∧ s.heap.freep = 8192 := by
  have hrun : Machine.Meets (step 4096) (Proper 4096) emptyHeap freeUpper ∧
      (Machine.exec (step 4096) emptyHeap freeUpper).any (fun s =>
        decide (s.live = [⟨⟨40816, 4⟩, 20, 0⟩] ∧ s.heap.freep = 8192)) = true := by decide +kernel
  obtain ⟨hmeets, hany⟩ := hrun
  obtain ⟨s, hs, hp⟩ := (Option.any_eq_true _ _).mp hany
  obtain ⟨hlive, hfreep⟩ := of_decide_eq_true hp
  have hinit : Init 4096 emptyHeap := by
    refine ⟨?_, ?_, ?_, rfl, rfl, rfl⟩ <;> decide
  have hstart : Machine.Reach (step 4096) (Init 4096) (Proper 4096) emptyHeap := .start hinit
  have hreach := hstart.exec freeUpper hmeets hs
  obtain ⟨ps, hps⟩ := (malloc_free_consistent hreach).2.1 (by rw [hfreep]; decide)
  exact ⟨s, ps, hps, hlive, hfreep⟩

end Runs

end Chameleon.Umalloc
