import Chameleon.Lib.Circular
import Chameleon.User.Malloc

/-! The free list of `umalloc.c` as a sorted list of blocks, and `free` as the insertion of a block
into it that joins the block with its neighbours. -/

namespace Chameleon.Umalloc
open Bytes Circular

section Headers
variable {h : Heap} {p q v : Nat}

/-- The headers at `p` and `q` share no byte. -/
def Far (p q : Nat) : Prop := p + 8 ≤ q ∨ q + 8 ≤ p

theorem Far.symm (hf : Far p q) : Far q p := Or.symm hf

theorem Heap.ptr_lt (h : Heap) (p : Nat) : h.ptr p < 2 ^ 32 := by
  have hlt := number_lt (slice h.mem p 4)
  rwa [length_slice] at hlt

theorem number_slice_store (m : Nat → UInt8) (a v : Nat) :
    number (slice (store m a (le 4 v)) a 4) = v % 2 ^ 32 := by
  have hs := slice_store m a (le 4 v)
  rw [length_le] at hs
  rw [hs, number_le]
  rfl

theorem number_slice_store_of_disjoint (m : Nat → UInt8) {a b : Nat} (v : Nat)
    (hd : b + 4 ≤ a ∨ a + 4 ≤ b) : number (slice (store m a (le 4 v)) b 4) = number (slice m b 4) := by
  rw [slice_store_of_disjoint m (by rwa [length_le])]

@[simp] theorem Heap.ptr_setPtr : (h.setPtr p v).ptr p = v % 2 ^ 32 := number_slice_store ..

@[simp] theorem Heap.size_setSize : (h.setSize p v).size p = v % 2 ^ 32 := number_slice_store ..

@[simp] theorem Heap.size_setPtr : (h.setPtr p v).size p = h.size p :=
  number_slice_store_of_disjoint _ _ (.inr (Nat.le_refl _))

@[simp] theorem Heap.ptr_setSize : (h.setSize p v).ptr p = h.ptr p :=
  number_slice_store_of_disjoint _ _ (.inl (Nat.le_refl _))

theorem Heap.ptr_setPtr_of_far (hf : Far p q) : (h.setPtr p v).ptr q = h.ptr q :=
  number_slice_store_of_disjoint _ _ (by unfold Far at hf; omega)

theorem Heap.size_setPtr_of_far (hf : Far p q) : (h.setPtr p v).size q = h.size q :=
  number_slice_store_of_disjoint _ _ (by unfold Far at hf; omega)

theorem Heap.ptr_setSize_of_far (hf : Far p q) : (h.setSize p v).ptr q = h.ptr q :=
  number_slice_store_of_disjoint _ _ (by unfold Far at hf; omega)

theorem Heap.size_setSize_of_far (hf : Far p q) : (h.setSize p v).size q = h.size q :=
  number_slice_store_of_disjoint _ _ (by unfold Far at hf; omega)

theorem Heap.ptr_withFreep (h : Heap) (f : Nat) : Heap.ptr { h with freep := f } = h.ptr := rfl

theorem Heap.size_withFreep (h : Heap) (f : Nat) : Heap.size { h with freep := f } = h.size := rfl

/-- The header at `q` is the same in both heaps. -/
def Same (h h' : Heap) (q : Nat) : Prop := h'.ptr q = h.ptr q ∧ h'.size q = h.size q

theorem Same.trans {h₁ h₂ h₃ : Heap} (h₁₂ : Same h₁ h₂ q) (h₂₃ : Same h₂ h₃ q) : Same h₁ h₃ q :=
  ⟨h₂₃.1.trans h₁₂.1, h₂₃.2.trans h₁₂.2⟩

theorem same_setPtr (hf : Far p q) : Same h (h.setPtr p v) q :=
  ⟨Heap.ptr_setPtr_of_far hf, Heap.size_setPtr_of_far hf⟩

theorem same_setSize (hf : Far p q) : Same h (h.setSize p v) q :=
  ⟨Heap.ptr_setSize_of_far hf, Heap.size_setSize_of_far hf⟩

end Headers

section Blocks
variable {base : Nat} {b c q : Block} {xs ys l : List Block}

/-- `b` ends before `c` begins, with something in between. -/
def Apart (b c : Block) : Prop := b.stop < c.addr

/-- A block of the memory above `base`. -/
structure Block.Inner (base : Nat) (b : Block) : Prop where
  above : base + 8 ≤ b.addr
  pos : 0 < b.size
  below : b.stop < 2 ^ 32

theorem Block.addr_le_stop (b : Block) : b.addr ≤ b.stop := Nat.le_add_right ..

theorem Block.Inner.addr_lt (h : b.Inner base) : b.addr + 8 ≤ b.stop := by
  have hpos := h.pos
  unfold Block.stop
  omega

theorem Block.Inner.addr_lt_word (h : b.Inner base) : b.addr < 2 ^ 32 := by
  have hlt := h.addr_lt
  have hbelow := h.below
  omega

theorem Block.Inner.far (hb : b.Inner base) (hc : c.Inner base)
    (h : b.stop ≤ c.addr ∨ c.stop ≤ b.addr) : Far b.addr c.addr := by
  have hb := hb.addr_lt
  have hc := hc.addr_lt
  unfold Far
  omega

/-- Puts `b` in front of blocks that lie above it, as one block with the first one when they
touch. -/
def join (b : Block) : List Block → List Block
  | [] => [b]
  | c :: l => if b.stop = c.addr then ⟨b.addr, b.size + c.size⟩ :: l else b :: c :: l

theorem join_cases (b : Block) (l : List Block) :
    join b l = b :: l ∨ ∃ c l', l = c :: l' ∧ b.stop = c.addr ∧
      join b l = ⟨b.addr, b.size + c.size⟩ :: l' := by
  cases l with
  | nil => exact .inl rfl
  | cons c l =>
    by_cases hbc : b.stop = c.addr
    · exact .inr ⟨c, l, rfl, hbc, if_pos hbc⟩
    · exact .inl (if_neg hbc)

theorem stop_join (h : b.stop = c.addr) : Block.stop ⟨b.addr, b.size + c.size⟩ = c.stop := by
  simp only [Block.stop] at h ⊢
  omega

/-- How many of the blocks hold the byte `x`. -/
def cover (x : Nat) (l : List Block) : Nat := l.countP fun b => b.Has x

theorem cover_append (x : Nat) (l l' : List Block) : cover x (l ++ l') = cover x l + cover x l' :=
  List.countP_append

theorem cover_cons (x : Nat) (b : Block) (l : List Block) :
    cover x (b :: l) = cover x l + if b.Has x then 1 else 0 := by
  simp only [cover, List.countP_cons, decide_eq_true_eq]

theorem has_join (h : b.stop = c.addr) (x : Nat) :
    (if Block.Has ⟨b.addr, b.size + c.size⟩ x then 1 else 0) =
      (if c.Has x then 1 else 0) + if b.Has x then 1 else 0 := by
  have hb := b.addr_le_stop
  have hc := c.addr_le_stop
  simp only [Block.Has, stop_join h, h]
  rw [h] at hb
  grind

theorem cover_join (x : Nat) (b : Block) (l : List Block) :
    cover x (join b l) = cover x (b :: l) := by
  rcases join_cases b l with heq | ⟨c, l', rfl, hbc, heq⟩
  · rw [heq]
  · rw [heq, cover_cons, cover_cons, cover_cons, has_join hbc, Nat.add_assoc]

theorem pairwise_join (hl : l.Pairwise Apart) (hb : ∀ c ∈ l, b.stop ≤ c.addr) :
    (join b l).Pairwise Apart := by
  cases l with
  | nil => exact List.pairwise_singleton ..
  | cons c l =>
    obtain ⟨hc, hl'⟩ := List.pairwise_cons.mp hl
    by_cases hbc : b.stop = c.addr
    · rw [join, if_pos hbc]
      refine List.pairwise_cons.mpr ⟨fun d hd => ?_, hl'⟩
      unfold Apart
      rw [stop_join hbc]
      exact hc d hd
    · rw [join, if_neg hbc]
      have hlt : b.stop < c.addr := Nat.lt_of_le_of_ne (hb c List.mem_cons_self) hbc
      refine List.pairwise_cons.mpr ⟨List.forall_mem_cons.mpr ⟨hlt, fun d hd => ?_⟩, hl⟩
      exact Nat.lt_trans hlt (Nat.lt_of_le_of_lt c.addr_le_stop (hc d hd))

theorem addr_le_of_mem_join {d : Block} (hb : ∀ c ∈ l, b.addr ≤ c.addr) (hd : d ∈ join b l) :
    b.addr ≤ d.addr := by
  rcases join_cases b l with heq | ⟨c, l', rfl, hbc, heq⟩ <;> rw [heq, List.mem_cons] at hd
  · rcases hd with rfl | hd
    · exact Nat.le_refl _
    · exact hb d hd
  · rcases hd with rfl | hd
    · exact Nat.le_refl _
    · exact hb d (List.mem_cons_of_mem c hd)

theorem inner_join (hb : b.Inner base) (hl : ∀ c ∈ l, c.Inner base) :
    ∀ d ∈ join b l, d.Inner base := by
  intro d hd
  rcases join_cases b l with heq | ⟨c, l', rfl, hbc, heq⟩ <;> rw [heq, List.mem_cons] at hd
  · rcases hd with rfl | hd
    · exact hb
    · exact hl d hd
  · rcases hd with rfl | hd
    · have hc := hl c List.mem_cons_self
      exact ⟨hb.above, Nat.add_pos_left hb.pos _, (stop_join hbc) ▸ hc.below⟩
    · exact hl d (List.mem_cons_of_mem c hd)

/-- Joining a block with its neighbours on both sides keeps the list apart. -/
theorem pairwise_insert (hl : (xs ++ q :: ys).Pairwise Apart) (hq : q.stop ≤ b.addr)
    (hys : ∀ y ∈ ys, b.stop ≤ y.addr) : (xs ++ join q (join b ys)).Pairwise Apart := by
  obtain ⟨hxs, hqys, hcross⟩ := List.pairwise_append.mp hl
  have hlow : ∀ c ∈ join b ys, b.addr ≤ c.addr := fun c hc =>
    addr_le_of_mem_join (fun y hy => Nat.le_trans b.addr_le_stop (hys y hy)) hc
  have hstop : ∀ c ∈ join b ys, q.stop ≤ c.addr := fun c hc => Nat.le_trans hq (hlow c hc)
  refine List.pairwise_append.mpr ⟨hxs, ?_, fun x hx d hd => ?_⟩
  · exact pairwise_join (pairwise_join (List.pairwise_cons.mp hqys).2 hys) hstop
  · have hqd : q.addr ≤ d.addr :=
      addr_le_of_mem_join (fun c hc => Nat.le_trans q.addr_le_stop (hstop c hc)) hd
    exact Nat.lt_of_lt_of_le (hcross x hx q List.mem_cons_self) hqd

end Blocks

section Rep
variable {base : Nat} {h : Heap} {b q : Block} {xs ys : List Block}

def addrs (l : List Block) : List Nat := l.map Block.addr

/-- The heap's free list is `⟨base, 0⟩ :: l`, in the order of the addresses. -/
structure Rep (base : Nat) (h : Heap) (l : List Block) : Prop where
  pos : 0 < base
  cyc : Cyc h.ptr (addrs (⟨base, 0⟩ :: l))
  size : ∀ b ∈ Block.mk base 0 :: l, h.size b.addr = b.size
  apart : (Block.mk base 0 :: l).Pairwise Apart
  inner : ∀ b ∈ l, b.Inner base
  freep : h.freep ∈ addrs (⟨base, 0⟩ :: l)

/-- A node of the list and what is before and behind it. -/
def Split (base : Nat) (l : List Block) (xs : List Block) (q : Block) (ys : List Block) : Prop :=
  ⟨base, 0⟩ :: l = xs ++ q :: ys

theorem Split.mem_of_behind {l : List Block} {y : Block} (hs : Split base l xs q ys) (hy : y ∈ ys) :
    y ∈ l := by
  cases xs with
  | nil =>
    obtain ⟨-, rfl⟩ := List.cons.inj hs
    exact hy
  | cons x xs =>
    obtain ⟨-, rfl⟩ := List.cons.inj hs
    simp [hy]

theorem Rep.next {l : List Block} (hrep : Rep base h l) (hs : Split base l xs q ys) :
    h.ptr q.addr = (ys.head?.map Block.addr).getD base := by
  have hcyc := hrep.cyc
  rw [hs, addrs, List.map_append, List.map_cons] at hcyc
  have hpath : Path h.ptr q.addr (ys.map Block.addr ++ xs.map Block.addr) q.addr := hcyc.rotate
  rw [hpath.next_eq]
  cases ys with
  | nil =>
    cases xs with
    | nil =>
      obtain ⟨rfl, -⟩ := List.cons.inj hs
      rfl
    | cons x xs =>
      obtain ⟨rfl, -⟩ := List.cons.inj hs
      rfl
  | cons y ys => rfl

variable {l : List Block}

theorem Rep.base_le (hrep : Rep base h l) {c : Block} (hc : c ∈ Block.mk base 0 :: l) :
    base ≤ c.addr := by
  rcases List.mem_cons.mp hc with rfl | hc
  · exact Nat.le_refl _
  · exact Nat.le_trans (Nat.le_add_right base 8) (hrep.inner c hc).above

theorem Rep.freep_ne_zero (hrep : Rep base h l) : h.freep ≠ 0 := by
  obtain ⟨c, hc, heq⟩ := List.mem_map.mp hrep.freep
  have hle := hrep.base_le hc
  have hpos := hrep.pos
  omega

theorem Rep.far (hrep : Rep base h l) :
    (Block.mk base 0 :: l).Pairwise fun c d => Far c.addr d.addr := by
  obtain ⟨-, hl⟩ := List.pairwise_cons.mp hrep.apart
  refine List.pairwise_cons.mpr ⟨fun c hc => .inl (hrep.inner c hc).above, ?_⟩
  refine hl.imp_of_mem fun hc hd hcd => ?_
  exact (hrep.inner _ hc).far (hrep.inner _ hd) (.inl (Nat.le_of_lt hcd))

/-- A block that shares no byte with the free blocks has a header of its own. -/
theorem Rep.far_of_disjoint (hrep : Rep base h l) (hb : b.Inner base)
    (hdis : ∀ c ∈ l, c.stop ≤ b.addr ∨ b.stop ≤ c.addr) :
    ∀ c ∈ Block.mk base 0 :: l, Far b.addr c.addr := by
  refine List.forall_mem_cons.mpr ⟨.inr hb.above, fun c hc => ?_⟩
  exact hb.far (hrep.inner c hc) (hdis c hc).symm

/-- The neighbours of a node have other headers. -/
theorem Rep.far_of_split (hrep : Rep base h l) (hs : Split base l xs q ys) :
    ∀ c ∈ ys ++ xs, Far q.addr c.addr := by
  have hfar := hrep.far
  rw [hs, List.pairwise_append] at hfar
  obtain ⟨-, hq, hcross⟩ := hfar
  intro c hc
  rcases List.mem_append.mp hc with hc | hc
  · exact (List.pairwise_cons.mp hq).1 c hc
  · exact (hcross c hc q List.mem_cons_self).symm

section Search
variable {a : Nat}

/-- The places at which the loop of `free` stops. -/
def Stops (h : Heap) (bp p : Nat) : Prop :=
  (p < bp ∧ bp < h.ptr p) ∨ (h.ptr p ≤ p ∧ (p < bp ∨ bp < h.ptr p))

theorem freeLoop_walk {bp p k fuel : Nat} (hstop : Stops h bp (h.ptr^[k] p))
    (hbefore : ∀ i < k, ¬ Stops h bp (h.ptr^[i] p)) (hf : k < fuel) :
    freeLoop h bp fuel p = .ok (h.ptr^[k] p) := by
  obtain ⟨fuel, rfl⟩ := Nat.exists_eq_succ_of_ne_zero (Nat.ne_zero_of_lt hf)
  induction k generalizing p fuel with
  | zero =>
    by_cases hlow : p < bp ∧ bp < h.ptr p
    · exact if_pos hlow
    · rw [freeLoop, if_neg hlow]
      exact if_pos (hstop.resolve_left hlow)
  | succ k ih =>
    have hp : ¬ Stops h bp p := hbefore 0 (Nat.succ_pos k)
    obtain ⟨hlow, hwrap⟩ := not_or.mp hp
    obtain ⟨fuel, rfl⟩ := Nat.exists_eq_succ_of_ne_zero (Nat.ne_zero_of_lt (Nat.lt_of_succ_lt_succ hf))
    rw [freeLoop, if_neg hlow]
    refine (if_neg hwrap).trans (ih hstop (fun i hi => ?_) fuel (Nat.lt_of_succ_lt_succ hf))
    exact hbefore (i + 1) (Nat.succ_lt_succ hi)

theorem Rep.stops_iff (hrep : Rep base h l) (hs : Split base l xs q ys) (ha : base < a) :
    Stops h a q.addr ↔ q.addr < a ∧ ∀ y ∈ ys, a < y.addr := by
  have hnext := hrep.next hs
  have hqmem : q ∈ Block.mk base 0 :: l := by rw [hs]; simp
  unfold Stops
  cases ys with
  | nil =>
    have hbase : base ≤ q.addr := hrep.base_le hqmem
    have hnext : h.ptr q.addr = base := hnext
    simp only [List.not_mem_nil, false_implies, implies_true, and_true]
    omega
  | cons y ys =>
    have hnext : h.ptr q.addr = y.addr := hnext
    have hap := hrep.apart
    rw [hs, List.pairwise_append] at hap
    obtain ⟨hqy, hyys⟩ := List.pairwise_cons.mp hap.2.1
    have hlt : q.stop < y.addr := hqy y List.mem_cons_self
    have hle := q.addr_le_stop
    rw [List.forall_mem_cons, hnext]
    refine ⟨fun hst => ⟨by omega, by omega, fun z hz => ?_⟩, fun hpos => by omega⟩
    have hyz : y.stop < z.addr := (List.pairwise_cons.mp hyys).1 z hz
    have hle' := y.addr_le_stop
    omega

theorem exists_split_at (x : Block) (hx : x.addr < a) (hl : (x :: l).Pairwise Apart)
    (hne : ∀ c ∈ l, c.addr ≠ a) :
    ∃ xs q ys, x :: l = xs ++ q :: ys ∧ q.addr < a ∧ ∀ y ∈ ys, a < y.addr := by
  induction l generalizing x with
  | nil => exact ⟨[], x, [], rfl, hx, fun y hy => by cases hy⟩
  | cons c l ih =>
    obtain ⟨hc, hne⟩ := List.forall_mem_cons.mp hne
    obtain ⟨-, hl⟩ := List.pairwise_cons.mp hl
    rcases Nat.lt_or_ge c.addr a with hlt | hge
    · obtain ⟨xs, q, ys, heq, hpos⟩ := ih c hlt hl hne
      exact ⟨x :: xs, q, ys, congrArg (x :: ·) heq, hpos⟩
    · have hac : a < c.addr := Nat.lt_of_le_of_ne hge (Ne.symm hc)
      refine ⟨[], x, c :: l, rfl, hx, List.forall_mem_cons.mpr ⟨hac, fun y hy => ?_⟩⟩
      have hcy : c.stop < y.addr := (List.pairwise_cons.mp hl).1 y hy
      exact Nat.lt_trans hac (Nat.lt_of_le_of_lt c.addr_le_stop hcy)

/-- The loop of `free` stops at the node behind which the address `a` belongs. -/
theorem Rep.freeLoop_spec (hrep : Rep base h l) (ha : base < a) (hne : ∀ c ∈ l, c.addr ≠ a) :
    ∃ xs q ys, Split base l xs q ys ∧ q.addr < a ∧ (∀ y ∈ ys, a < y.addr) ∧
      ∀ fuel, l.length < fuel → freeLoop h a fuel h.freep = .ok q.addr := by
  obtain ⟨xs, q, ys, hs, hpos⟩ := exists_split_at ⟨base, 0⟩ ha hrep.apart hne
  have hq : q.addr ∈ addrs (⟨base, 0⟩ :: l) := List.mem_map_of_mem (by rw [hs]; simp)
  obtain ⟨k, hk, hstop, hbefore⟩ := hrep.cyc.first hrep.freep hq ((hrep.stops_iff hs ha).mpr hpos)
  obtain ⟨r, hr, hreq⟩ := List.mem_map.mp (hrep.cyc.iterate_mem hrep.freep k)
  obtain ⟨xs', ys', hs'⟩ := List.append_of_mem hr
  have hpos' := (hrep.stops_iff hs' ha).mp (hreq ▸ hstop)
  refine ⟨xs', r, ys', hs', hpos'.1, hpos'.2, fun fuel hf => ?_⟩
  rw [addrs, List.length_map, List.length_cons] at hk
  rw [freeLoop_walk hstop hbefore (by omega), hreq]

end Search

section Joins
variable {bp p : Nat}

/-- What `joinUpper` does to the header of `bp`; the others stay. -/
theorem joinUpper_spec (hp : Far bp p) (hy : Far bp (h.ptr p)) :
    (joinUpper h bp p).ptr bp =
        (if plus bp (h.size bp) = h.ptr p then h.ptr (h.ptr p) else h.ptr p) ∧
      (joinUpper h bp p).size bp =
        (if plus bp (h.size bp) = h.ptr p then (h.size bp + h.size (h.ptr p)) % 2 ^ 32
          else h.size bp) ∧
      ∀ a, Far bp a → Same h (joinUpper h bp p) a := by
  unfold joinUpper
  by_cases hup : plus bp (h.size bp) = h.ptr p
  · simp only [if_pos hup, Heap.ptr_setPtr, Heap.size_setPtr, Heap.size_setSize,
      Heap.ptr_setSize_of_far hp, Heap.ptr_setSize_of_far hy, Nat.mod_eq_of_lt (h.ptr_lt _), true_and]
    exact fun a ha => (same_setSize ha).trans (same_setPtr ha)
  · simp only [if_neg hup, Heap.ptr_setPtr, Heap.size_setPtr, Nat.mod_eq_of_lt (h.ptr_lt _), true_and]
    exact fun a ha => same_setPtr ha

theorem joinLower_spec (hbp : bp < 2 ^ 32) (hp : Far p bp) :
    (joinLower h bp p).ptr p = (if plus p (h.size p) = bp then h.ptr bp else bp) ∧
      (joinLower h bp p).size p =
        (if plus p (h.size p) = bp then (h.size p + h.size bp) % 2 ^ 32 else h.size p) ∧
      ∀ a, Far p a → Same h (joinLower h bp p) a := by
  unfold joinLower
  by_cases hlow : plus p (h.size p) = bp
  · simp only [if_pos hlow, Heap.ptr_setPtr, Heap.size_setPtr, Heap.size_setSize,
      Heap.ptr_setSize_of_far hp, Nat.mod_eq_of_lt (h.ptr_lt _), true_and]
    exact fun a ha => (same_setSize ha).trans (same_setPtr ha)
  · simp only [if_neg hlow, Heap.ptr_setPtr, Heap.size_setPtr, Nat.mod_eq_of_lt hbp, true_and]
    exact fun a ha => same_setPtr ha

@[simp] theorem joinUpper_got : (joinUpper h bp p).got = h.got := by unfold joinUpper; split <;> rfl

@[simp] theorem joinUpper_brk : (joinUpper h bp p).brk = h.brk := by unfold joinUpper; split <;> rfl

@[simp] theorem joinLower_got : (joinLower h bp p).got = h.got := by unfold joinLower; split <;> rfl

@[simp] theorem joinLower_brk : (joinLower h bp p).brk = h.brk := by unfold joinLower; split <;> rfl

theorem plus_eq (h : b.stop < 2 ^ 32) : plus b.addr b.size = b.stop := Nat.mod_eq_of_lt h

theorem Rep.rotated (hrep : Rep base h l) (hs : Split base l xs q ys) :
    Path h.ptr q.addr (addrs (ys ++ xs)) q.addr := by
  have hcyc := hrep.cyc
  rw [hs, addrs, List.map_append, List.map_cons] at hcyc
  rw [addrs, List.map_append]
  exact hcyc.rotate

/-- The list may be read from any of its nodes. -/
theorem Rep.of_path (hpos : 0 < base) (hs : Split base l xs q ys)
    (hpath : Path h.ptr q.addr (addrs (ys ++ xs)) q.addr)
    (hsize : ∀ c ∈ q :: (ys ++ xs), h.size c.addr = c.size)
    (hap : (xs ++ q :: ys).Pairwise Apart) (hin : ∀ c ∈ l, c.Inner base)
    (hfreep : h.freep = q.addr) : Rep base h l := by
  have hcyc : Cyc h.ptr (addrs (q :: ys) ++ addrs xs) := by
    rw [addrs, addrs, ← List.map_append]
    exact hpath
  refine ⟨hpos, ?_, ?_, hs ▸ hap, hin, ?_⟩
  · rw [hs, addrs, List.map_append]
    exact hcyc.rotate
  · intro c hc
    refine hsize c ?_
    rw [hs] at hc
    simp only [List.mem_append, List.mem_cons] at hc ⊢
    tauto
  · rw [hs, hfreep]
    exact List.mem_map_of_mem (by simp)

theorem Rep.congr {h' : Heap} (hrep : Rep base h l)
    (hsame : ∀ c ∈ Block.mk base 0 :: l, Same h h' c.addr) (hfreep : h'.freep = h.freep) :
    Rep base h' l := by
  obtain ⟨hpos, hcyc, hsize, hap, hin, hmem⟩ := hrep
  refine ⟨hpos, ?_, fun c hc => (hsame c hc).2.trans (hsize c hc), hap, hin, hfreep ▸ hmem⟩
  refine Path.congr hcyc (hsame _ List.mem_cons_self).1 fun x hx => ?_
  obtain ⟨c, hc, rfl⟩ := List.mem_map.mp hx
  exact (hsame c (List.mem_cons_of_mem _ hc)).1

theorem Rep.far_next (hrep : Rep base h l) (hs : Split base l xs q ys)
    (hfar : ∀ c ∈ Block.mk base 0 :: l, Far b.addr c.addr) : Far b.addr (h.ptr q.addr) := by
  have hq : q.addr ∈ addrs (⟨base, 0⟩ :: l) := List.mem_map_of_mem (by rw [hs]; simp)
  obtain ⟨c, hc, heq⟩ := List.mem_map.mp (hrep.cyc.next_mem hq)
  rw [← heq]
  exact hfar c hc

/-- After `joinUpper` the successors lead from `b`, joined with its upper neighbour, around to the
node below it. -/
theorem Rep.joinUpper_path (hrep : Rep base h l) (hs : Split base l xs q ys) (hb : b.Inner base)
    (hsize : h.size b.addr = b.size) (hfar : ∀ c ∈ Block.mk base 0 :: l, Far b.addr c.addr) :
    ∃ c r, join b ys = c :: r ∧ c.addr = b.addr ∧ r ⊆ ys ∧
      (joinUpper h b.addr q.addr).size b.addr = c.size ∧
      Path (joinUpper h b.addr q.addr).ptr b.addr (addrs (r ++ xs)) q.addr := by
  have hmem : ∀ c ∈ ys ++ xs, Far b.addr c.addr := by
    intro c hc
    refine hfar c ?_
    rw [hs]
    simp only [List.mem_append, List.mem_cons] at hc ⊢
    tauto
  have hq : Far b.addr q.addr := hfar q (by rw [hs]; simp)
  have hpath := hrep.rotated hs
  have hnext := hrep.next hs
  obtain ⟨hptr, hsz, hrest⟩ := joinUpper_spec hq (hrep.far_next hs hfar)
  have hkeep : ∀ {l' : List Block}, (∀ c ∈ l', Far b.addr c.addr) →
      ∀ x ∈ addrs l', (joinUpper h b.addr q.addr).ptr x = h.ptr x := by
    intro l' hl' x hx
    obtain ⟨c, hc, rfl⟩ := List.mem_map.mp hx
    exact (hrest _ (hl' c hc)).1
  cases ys with
  | nil =>
    -- nothing lies above `b`, and `b` does not end at `base`
    have hne : ¬ plus b.addr (h.size b.addr) = h.ptr q.addr := by
      have hbase : h.ptr q.addr = base := hnext
      rw [hsize, hbase, plus_eq hb.below]
      have habove := hb.above
      have hle := b.addr_le_stop
      omega
    rw [if_neg hne] at hptr hsz
    exact ⟨b, [], rfl, rfl, List.Subset.refl _, hsz.trans hsize, hpath.relay hptr (hkeep hmem)⟩
  | cons y ys =>
    have hyin : y.Inner base := hrep.inner y (hs.mem_of_behind List.mem_cons_self)
    have hyb : h.ptr q.addr = y.addr := hnext
    have hiff : plus b.addr (h.size b.addr) = h.ptr q.addr ↔ b.stop = y.addr := by
      rw [hsize, hyb, plus_eq hb.below]
    by_cases hup : b.stop = y.addr
    · rw [if_pos (hiff.mpr hup), hyb] at hptr hsz
      refine ⟨_, ys, if_pos hup, rfl, List.subset_cons_self .., ?_, hpath.2.relay hptr ?_⟩
      · have hstop := stop_join hup
        have hbelow := hyin.below
        simp only [Block.stop] at hstop hbelow
        rw [hsz, hsize, hrep.size y (by rw [hs]; simp), Nat.mod_eq_of_lt (by omega)]
      · exact hkeep fun c hc => hmem c (List.mem_cons_of_mem y hc)
    · rw [if_neg fun hx => hup (hiff.mp hx)] at hptr hsz
      exact ⟨b, y :: ys, if_neg hup, rfl, List.Subset.refl _, hsz.trans hsize, hpath.relay hptr (hkeep hmem)⟩

/-- After `joinLower` they lead all the way around. -/
theorem joinLower_path {c : Block} {r : List Block} (hc : c.Inner base)
    (hq : q.stop ≤ c.addr) (hqs : h.size q.addr = q.size) (hcs : h.size c.addr = c.size)
    (hfar : Far q.addr c.addr) (hr : ∀ e ∈ r ++ xs, Far q.addr e.addr)
    (hpath : Path h.ptr c.addr (addrs (r ++ xs)) q.addr) :
    ∃ d r', join q (c :: r) = d :: r' ∧ d.addr = q.addr ∧ r' ⊆ c :: r ∧
      (joinLower h c.addr q.addr).size q.addr = d.size ∧
      Path (joinLower h c.addr q.addr).ptr q.addr (addrs (r' ++ xs)) q.addr := by
  have hbelow := hc.below
  have hlt := hc.addr_lt
  obtain ⟨hptr, hsz, hrest⟩ := joinLower_spec (h := h) (by omega) hfar
  have hiff : plus q.addr (h.size q.addr) = c.addr ↔ q.stop = c.addr := by
    rw [hqs, plus_eq (by omega)]
  have hkeep : ∀ x ∈ addrs (r ++ xs), (joinLower h c.addr q.addr).ptr x = h.ptr x := by
    intro x hx
    obtain ⟨e, he, rfl⟩ := List.mem_map.mp hx
    exact (hrest _ (hr e he)).1
  by_cases hlow : q.stop = c.addr
  · rw [if_pos (hiff.mpr hlow)] at hptr hsz
    refine ⟨_, r, if_pos hlow, rfl, List.subset_cons_self .., ?_, hpath.relay hptr hkeep⟩
    have hstop := stop_join hlow
    simp only [Block.stop] at hstop hbelow
    rw [hsz, hqs, hcs, Nat.mod_eq_of_lt (by omega)]
  · rw [if_neg fun hx => hlow (hiff.mp hx)] at hptr hsz
    refine ⟨q, c :: r, if_neg hlow, rfl, List.Subset.refl _, hsz.trans hqs, hptr, ?_⟩
    exact hpath.congr (hrest _ hfar).1 hkeep

end Joins

section Free

/-- What a call of `free` does to the list `l` of the free blocks. -/
structure Freed (base : Nat) (h : Heap) (l : List Block) (b : Block) (h' : Heap)
    (l' : List Block) : Prop where
  rep : Rep base h' l'
  cover : ∀ x, cover x l' = cover x (b :: l)
  large : ∃ c ∈ l', b.size ≤ c.size
  length : l'.length ≤ l.length + 1
  same : ∀ a, Far b.addr a → (∀ c ∈ Block.mk base 0 :: l, Far c.addr a) → Same h h' a
  brk : h'.brk = h.brk
  got : h'.got = h.got

theorem mem_join_large (b : Block) (l : List Block) : ∃ c ∈ join b l, b.size ≤ c.size := by
  rcases join_cases b l with heq | ⟨c, l', -, -, heq⟩
  · exact ⟨b, by rw [heq]; exact List.mem_cons_self, Nat.le_refl _⟩
  · exact ⟨_, by rw [heq]; exact List.mem_cons_self, Nat.le_add_right ..⟩

theorem length_join (b : Block) (l : List Block) : (join b l).length ≤ l.length + 1 := by
  rcases join_cases b l with heq | ⟨c, l', rfl, -, heq⟩ <;> rw [heq] <;> simp

theorem exists_join_ge (b : Block) {c : Block} (hc : c ∈ l) : ∃ d ∈ join b l, c.size ≤ d.size := by
  rcases join_cases b l with heq | ⟨e, l', rfl, -, heq⟩ <;> rw [heq]
  · exact ⟨c, List.mem_cons_of_mem b hc, Nat.le_refl _⟩
  · rcases List.mem_cons.mp hc with rfl | hc
    · exact ⟨_, List.mem_cons_self, Nat.le_add_left ..⟩
    · exact ⟨c, List.mem_cons_of_mem _ hc, Nat.le_refl _⟩

/-- Inserting above `base` leaves `base` where it is. -/
theorem Split.join_eq (hs : Split base l xs q ys) (hb : b.Inner base)
    (hl : ∀ c ∈ l, c.Inner base) :
    ∃ l', xs ++ join q (join b ys) = ⟨base, 0⟩ :: l' ∧ ∀ c ∈ l', c.Inner base := by
  have hjoin := inner_join hb fun y hy => hl y (hs.mem_of_behind hy)
  cases xs with
  | nil =>
    obtain ⟨rfl, -⟩ := List.cons.inj hs
    refine ⟨join b ys, ?_, hjoin⟩
    rcases join_cases ⟨base, 0⟩ (join b ys) with heq | ⟨c, l', hc, hstop, -⟩
    · exact heq
    · have hstop : base = c.addr := hstop
      have habove := (hjoin c (by rw [hc]; exact List.mem_cons_self)).above
      omega
  | cons x xs =>
    obtain ⟨rfl, rfl⟩ := List.cons.inj hs
    refine ⟨_, rfl, fun c hc => ?_⟩
    rcases List.mem_append.mp hc with hc | hc
    · exact hl c (List.mem_append_left _ hc)
    · exact inner_join (hl q (by simp)) hjoin c hc

theorem cover_base (x : Nat) (l : List Block) : cover x (⟨base, 0⟩ :: l) = cover x l := by
  have hno : ¬ Block.Has ⟨base, 0⟩ x := by
    simp only [Block.Has, Block.stop]
    omega
  rw [cover_cons, if_neg hno, Nat.add_zero]

theorem cover_insert (x : Nat) (b q : Block) (xs ys : List Block) :
    cover x (xs ++ join q (join b ys)) = cover x (b :: (xs ++ q :: ys)) := by
  rw [cover_append, cover_join, cover_cons, cover_join, cover_cons, cover_cons, cover_append,
    cover_cons]
  omega

/-- Behind the node `q` below it, both joins put the block into the list. -/
theorem Rep.joined (hrep : Rep base h l) (hs : Split base l xs q ys) (hb : b.Inner base)
    (hsize : h.size b.addr = b.size) (hfar : ∀ c ∈ Block.mk base 0 :: l, Far b.addr c.addr)
    (hq : q.stop ≤ b.addr) (hys : ∀ y ∈ ys, b.stop ≤ y.addr) :
    ∃ l', Freed base h l b
      { joinLower (joinUpper h b.addr q.addr) b.addr q.addr with freep := q.addr } l' := by
  have hqmem : q ∈ Block.mk base 0 :: l := by rw [hs]; simp
  have hysub : ∀ y ∈ ys, y ∈ Block.mk base 0 :: l := fun y hy =>
    List.mem_cons_of_mem _ (hs.mem_of_behind hy)
  have hxsub : ∀ x ∈ xs, x ∈ Block.mk base 0 :: l := fun x hx => by
    rw [hs]
    exact List.mem_append_left _ hx
  obtain ⟨⟨a, n⟩, r, hjoin, rfl, hry, hcs, hpath⟩ := hrep.joinUpper_path hs hb hsize hfar
  have hcin : Block.Inner base ⟨b.addr, n⟩ :=
    inner_join hb (fun y hy => hrep.inner y (hs.mem_of_behind hy)) _
      (by rw [hjoin]; exact List.mem_cons_self)
  have hupper := (joinUpper_spec (hfar q hqmem) (hrep.far_next hs hfar)).2.2
  have hqfar : ∀ e ∈ r ++ xs, Far q.addr e.addr := by
    intro e he
    refine hrep.far_of_split hs e ?_
    rcases List.mem_append.mp he with he | he
    · exact List.mem_append_left _ (hry he)
    · exact List.mem_append_right _ he
  have hqs : (joinUpper h b.addr q.addr).size q.addr = q.size :=
    (hupper _ (hfar q hqmem)).2.trans (hrep.size q hqmem)
  obtain ⟨d, r', hjoin', hda, hr', hds, hround⟩ :=
    joinLower_path hcin hq hqs hcs (hfar q hqmem).symm hqfar hpath
  have hlower := (joinLower_spec (h := joinUpper h b.addr q.addr) hb.addr_lt_word
    (hfar q hqmem).symm).2.2
  -- the headers that neither join touches
  have hsame : ∀ e ∈ Block.mk base 0 :: l, Far q.addr e.addr →
      (joinLower (joinUpper h b.addr q.addr) b.addr q.addr).size e.addr = e.size := by
    intro e he hqe
    exact (hlower _ hqe).2.trans ((hupper _ (hfar e he)).2.trans (hrep.size e he))
  obtain ⟨l', hl', hinner⟩ := hs.join_eq hb hrep.inner
  have hs' : Split base l' xs d r' := by rw [Split, ← hl', hjoin, hjoin']
  refine ⟨l', .of_path hrep.pos hs' ?_ ?_ ?_ hinner hda.symm, fun x => ?_, ?_, ?_,
    fun a ha hla => ?_, ?_, ?_⟩
  · rw [hda, Heap.ptr_withFreep]
    exact hround
  · rw [Heap.size_withFreep]
    intro e he
    rcases List.mem_cons.mp he with rfl | he
    · rw [hda]
      exact hds
    · rcases List.mem_append.mp he with he | he
      · rcases List.mem_cons.mp (hr' he) with rfl | he
        · exact (hlower _ (hfar q hqmem).symm).2.trans hcs
        · exact hsame e (hysub e (hry he)) (hqfar e (List.mem_append_left _ he))
      · exact hsame e (hxsub e he) (hqfar e (List.mem_append_right _ he))
  · rw [← hjoin', ← hjoin]
    exact pairwise_insert (hs ▸ hrep.apart) hq hys
  · have hcover := cover_insert x b q xs ys
    rw [hl', ← hs, cover_base, cover_cons, cover_base] at hcover
    rw [hcover, cover_cons]
  · obtain ⟨c, hc, hbc⟩ := mem_join_large b ys
    obtain ⟨e, he, hce⟩ := exists_join_ge q hc
    have hmem : e ∈ Block.mk base 0 :: l' := by
      rw [← hl']
      exact List.mem_append_right _ he
    have hpos := hb.pos
    rcases List.mem_cons.mp hmem with rfl | hmem
    · have : c.size ≤ 0 := hce
      omega
    · exact ⟨e, hmem, Nat.le_trans hbc hce⟩
  · have hlen := congrArg List.length hl'
    have hold := congrArg List.length hs
    have h₁ := length_join q (join b ys)
    have h₂ := length_join b ys
    simp only [List.length_append, List.length_cons] at hlen hold
    omega
  · rw [Same, Heap.ptr_withFreep, Heap.size_withFreep]
    exact (hupper a ha).trans (hlower a (hla q hqmem))
  · simp
  · simp

/-- `free` puts the block into the free list, joined with its neighbours. -/
theorem Rep.free_spec (hrep : Rep base h l) (hb : b.Inner base) (hsize : h.size b.addr = b.size)
    (hdis : ∀ c ∈ l, c.stop ≤ b.addr ∨ b.stop ≤ c.addr) :
    ∃ h' l', Freed base h l b h' l' ∧
      ∀ fuel, l.length < fuel → free fuel (b.addr + 8) h = .ok h' := by
  have hfar := hrep.far_of_disjoint hb hdis
  have habove := hb.above
  have hlt := hb.addr_lt
  have hbelow := hb.below
  have hne : ∀ c ∈ l, c.addr ≠ b.addr := by
    intro c hc heq
    have hcb := hfar c (List.mem_cons_of_mem _ hc)
    unfold Far at hcb
    omega
  obtain ⟨xs, q, ys, hs, hqb, hby, hloop⟩ := hrep.freeLoop_spec (by omega) hne
  have hq : q.stop ≤ b.addr := by
    have hqmem : q ∈ Block.mk base 0 :: l := by rw [hs]; simp
    rcases List.mem_cons.mp hqmem with rfl | hql
    · exact Nat.le_of_lt hqb
    · rcases hdis q hql with hd | hd <;> omega
  have hys : ∀ y ∈ ys, b.stop ≤ y.addr := by
    intro y hy
    have hlt := hby y hy
    have hle := y.addr_le_stop
    rcases hdis y (hs.mem_of_behind hy) with hd | hd <;> omega
  obtain ⟨l', hfreed⟩ := hrep.joined hs hb hsize hfar hq hys
  refine ⟨_, l', hfreed, fun fuel hf => ?_⟩
  have hbp : (b.addr + 8 + (2 ^ 32 - 8)) % 2 ^ 32 = b.addr := by omega
  simp only [free, hbp, hloop fuel hf]
  rfl

end Free

end Rep

end Chameleon.Umalloc
