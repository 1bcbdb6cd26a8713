import Chameleon.User.Umalloc
import Chameleon.Vm.Grow

/-! `malloc` over the `sbrk` of the kernel. The request passes through three sums that can wrap:
`nbytes + sizeof(Header) - 1`, `nu * sizeof(Header)` as an `int`, and the `sz + n` of `growproc`. -/

namespace Chameleon.Umalloc
open Vm (KERNBASE PGROUNDUP WORD)

/-! ### The size of a process -/

/-- What `allocuvm` and `deallocuvm` return, with 0 as the error. -/
def nonzero (sz : Nat) : Option Nat := if sz = 0 then none else some sz

/-- `growproc(n)` for a process of size `sz`: the new size, or -1. `ok` says whether the pages can
be allocated. -/
def growproc (n : Int) (ok : Bool) (sz : Nat) : Option Nat :=
  let newsz := ((sz + n) % WORD).toNat
  if n > 0 then
    nonzero (if newsz ≥ KERNBASE then 0 else if newsz < sz then sz else if ok then newsz else 0)
  else if n < 0 then nonzero (if newsz ≥ sz then sz else newsz)
  else some sz

section Kernel
open Hoare Vm
variable {L : Layout} {d : Nat}

theorem allocLoop_returns (oldsz newsz n : Nat) {a : Nat} : Triple (fun _ => True) (fun _ => True)
    (allocLoop L d oldsz newsz n a) fun r _ => r = 0 ∨ r = newsz := by
  induction n generalizing a with
  | zero => exact Triple.ret fun _ _ => .inr rfl
  | succ n ih =>
    refine Triple.any.bind fun r => ?_
    cases r with
    | none => exact Triple.any.bind fun _ => Triple.ret fun _ _ => .inl rfl
    | some mem =>
      refine Triple.any.bind fun _ => Triple.any.bind fun r => Triple.ite (fun _ => ?_) fun _ => ih
      exact Triple.any.bind fun _ => Triple.any.bind fun _ => Triple.ret fun _ _ => .inl rfl

/-- The result of `growproc` in the kernel model is one that `growproc` here allows. -/
def Resizes (n : Int) (t : Table) (p : Ptable.Slot) (x : Int × Table) : Prop := ∃ ok,
  (growproc n ok (t.proc p).sz).elim (x = (-1, t)) fun sz => x = (0, t.setProc p fun q => { q with sz := sz })

variable {n : Int} {t : Table} {p : Ptable.Slot}

theorem resize_resizes {sz : Nat} {Q : Prop} (hQ : Q → ∃ ok, growproc n ok (t.proc p).sz = nonzero sz) :
    Triple (fun _ => True) (fun _ => Q) (resize t p sz) fun x _ => Resizes n t p x := by
  unfold resize
  refine Triple.ite (fun hz => Triple.ret fun _ hq => ?_) fun hz => Triple.ret fun _ hq => ?_
  all_goals
    obtain ⟨ok, hok⟩ := hQ hq
    refine ⟨ok, ?_⟩
    rw [hok, nonzero]
    simp only [hz, if_true, if_false, Option.elim]

/-- `growproc` of the kernel model changes the size of the process as `growproc` here says. -/
theorem growproc_size {x : Int × Table} {k k' : Kmem} (h : (Vm.growproc L n t p).run k = .ok (x, k')) : Resizes n t p x := by
  have hspec : Triple (fun _ => True) (fun _ => True) (Vm.growproc L n t p) fun x _ => Resizes n t p x := by
    refine Triple.any.bind fun d => Triple.ite (fun hn => ?_) fun hn => Triple.ite (fun hneg => ?_) fun hneg => ?_
    · unfold allocuvm
      generalize hnew : ((((t.proc p).sz : Int) + n) % WORD).toNat = newsz
      refine Triple.bind (Q := fun r _ => ∃ ok, r = if newsz ≥ KERNBASE then 0 else
        if newsz < (t.proc p).sz then (t.proc p).sz else if ok = true then newsz else 0) ?_ fun r => ?_
      · refine Triple.ite (fun hbig => Triple.ret fun _ _ => ⟨true, ?_⟩) fun hbig =>
          Triple.ite (fun hlt => Triple.ret fun _ _ => ⟨true, ?_⟩) fun hlt => ?_
        · rw [if_pos hbig]
        · rw [if_neg hbig, if_pos hlt]
        · refine (allocLoop_returns _ _ _).post fun r _ hr => ⟨r ≠ 0, ?_⟩
          rw [if_neg hbig, if_neg hlt]
          rcases hr with rfl | rfl
          · simp
          · by_cases hz : r = 0 <;> simp [hz]
      · refine resize_resizes ?_
        rintro ⟨ok, rfl⟩
        refine ⟨ok, ?_⟩
        simp only [growproc, if_pos hn, hnew]
    · unfold deallocuvm
      generalize hnew : ((((t.proc p).sz : Int) + n) % WORD).toNat = newsz
      refine Triple.bind (Q := fun r _ => r = if newsz ≥ (t.proc p).sz then (t.proc p).sz else newsz) ?_ fun r => ?_
      · refine Triple.ite (fun hge => Triple.ret fun _ _ => (if_pos hge).symm) fun hge => ?_
        exact Triple.any.bind fun _ => Triple.ret fun _ _ => (if_neg hge).symm
      · refine resize_resizes ?_
        rintro rfl
        refine ⟨true, ?_⟩
        simp only [growproc, if_neg hn, if_pos hneg, hnew]
    · refine Triple.ret fun _ _ => ⟨true, ?_⟩
      simp only [growproc, if_neg hn, if_neg hneg, Option.elim_some]
  exact hspec.result trivial h

end Kernel

/-! ### The allocator over it -/

namespace Kernel

/-- The conversion of a `uint` to an `int`. -/
def int (k : Nat) : Int := if k < 2 ^ 31 then k else k - 2 ^ 32

/-- `sys_sbrk(n)`; `h.brk` is the size of the process. -/
def sbrk (n : Int) (ok : Bool) (h : Heap) : Option Nat × Heap :=
  match growproc n ok h.brk with
  | none => (none, h)
  | some sz => (some h.brk, { h with brk := sz })

/-- `sbrk` as `morecore` calls it. The store to `hp->s.size` is the first one behind the old break:
it faults when the page there is not mapped. -/
def core (ok : Bool) : Sbrk := fun k h =>
  match sbrk (int k) ok h with
  | (none, h) => .ok (none, h)
  | (some hp, h) => if PGROUNDUP h.brk < hp + 8 then .error (.fault h) else .ok (some hp, h)

/-- `malloc`, where `oks i` says whether the kernel has pages at the `i`th call of `sbrk`. -/
def malloc (base fuel nbytes : Nat) (oks : Nat → Bool) (h : Heap) : Except Stop (Nat × Heap × Nat) :=
  Umalloc.malloc base fuel nbytes (fun i => core (oks i)) h

inductive Call
  | malloc (fuel nbytes : Nat) (oks : Nat → Bool)
  | free (fuel ap : Nat)
  | write (a : Nat) (v : UInt8)
  | sbrk (n : Int) (ok : Bool)

/-- A call that comes back. -/
def step (base : Nat) (s : State) : Call → Option State
  | .malloc fuel nbytes oks =>
    match malloc base fuel nbytes oks s.heap with
    | .ok (ap, h, _) => some ⟨h, if ap = 0 then s.live else h.live ap nbytes :: s.live⟩
    | .error _ => none
  | .free fuel ap => Umalloc.step base s (.free fuel ap)
  | .write a v => Umalloc.step base s (.write a v)
  | .sbrk n ok => some { s with heap := (sbrk n ok s.heap).2 }

def Init (base : Nat) (s : State) : Prop := Umalloc.Init base s ∧ s.heap.brk < KERNBASE

/-- The calls a correct program makes, with requests that are not too large. When it moves the break
itself, it does not take from the allocator. -/
def Proper (base : Nat) (s : State) : Call → Prop
  | .malloc _ nbytes _ => Small nbytes
  | .free fuel ap => Umalloc.Proper base s (.free fuel ap)
  | .write a v => Umalloc.Proper base s (.write a v)
  | .sbrk n ok => base + 8 ≤ (sbrk n ok s.heap).2.brk ∧ ∀ c ∈ s.heap.got, c.stop ≤ (sbrk n ok s.heap).2.brk

/-- A program that returns has returned at every step before. -/
theorem ok_of_bind {ε α β : Type} {x : Except ε α} {f : α → Except ε β} {b : β} (hb : x >>= f = .ok b) :
    ∃ a, x = .ok a ∧ f a = .ok b := by
  cases x with
  | error e => cases hb
  | ok a => exact ⟨a, rfl, hb⟩

section Loop
variable {h h' : Heap} {n fuel calls prev p : Nat}

theorem sbrk_pos {k : Nat} {ok : Bool} (hk : 0 < k) (hk' : k < 2 ^ 31) (hb : h.brk < KERNBASE) :
    sbrk k ok h = if ok = true ∧ h.brk + k < KERNBASE then (some h.brk, { h with brk := h.brk + k }) else (none, h) := by
  have hnew : (((h.brk : Int) + k) % WORD).toNat = h.brk + k := by
    unfold KERNBASE WORD at *
    omega
  have hpos : (k : Int) > 0 := by omega
  simp only [sbrk, growproc, if_pos hpos, hnew]
  by_cases hbig : KERNBASE ≤ h.brk + k
  · rw [if_pos hbig, if_neg fun hc => Nat.not_lt.mpr hbig hc.2]
    rfl
  · rw [if_neg hbig, if_neg (by omega : ¬ h.brk + k < h.brk)]
    cases ok with
    | false => rfl
    | true =>
      rw [if_pos rfl, if_pos ⟨rfl, Nat.not_le.mp hbig⟩, nonzero, if_neg (by omega)]

theorem core_fresh {ok : Bool} (hb : h.brk < KERNBASE) : Fresh KERNBASE (core ok) h := by
  intro k hk8 hk
  have hint : int k = k := if_pos hk
  unfold core
  rw [hint, sbrk_pos (by omega) hk hb]
  by_cases hroom : ok = true ∧ h.brk + k < KERNBASE
  · have htouch : ¬ PGROUNDUP (h.brk + k) < h.brk + 8 := by
      have := (Vm.PGROUNDUP_le hroom.2.le).2
      omega
    rw [if_pos hroom]
    exact .inr ⟨0, hroom.2, if_neg htouch⟩
  · rw [if_neg hroom]
    exact .inl rfl

theorem free_brk {ap : Nat} (hrun : free fuel ap h = .ok h') : h'.brk = h.brk := by
  unfold free at hrun
  obtain ⟨q, -, hq⟩ := ok_of_bind hrun
  cases h' with
  | mk mem freep brk got =>
    obtain ⟨-, -, hbrk, -⟩ := Heap.mk.inj (Except.ok.inj hq)
    show brk = h.brk
    rw [← hbrk, joinLower_brk, joinUpper_brk]

theorem take_brk : (take n prev p h).2.brk = h.brk := by
  unfold take
  split <;> rfl

end Loop

section Runs
variable {base nbytes : Nat} {s s' : State} {oks : Nat → Bool}

/-- The allocator is in order and the process ends below the kernel. -/
def Good (base : Nat) (s : State) : Prop := Umalloc.Good base s ∧ s.heap.brk < KERNBASE

/-- Every call of `malloc` returns, does not shrink the process and keeps the invariant. -/
theorem Good.malloc_spec (hg : Good base s) (hn : Small nbytes) (oks : Nat → Bool) :
    ∃ r, (∀ fuel, Agrees (malloc base fuel nbytes oks s.heap) (.ok r)) ∧
      s.heap.brk ≤ r.2.1.brk ∧ r.2.1.brk < KERNBASE ∧
      ∃ l, Inv base r.2.1 (if r.1 = 0 then s.live else r.2.1.live r.1 nbytes :: s.live) l := by
  have hb : (prepare base s.heap).brk < KERNBASE := (prepare_brk base s.heap).symm ▸ hg.2
  obtain ⟨r, hmalloc, ⟨hle, hlt⟩, hinv⟩ := hg.1.malloc_agrees (g := fun i => core (oks i)) hn (core_fresh hb)
    (by decide)
  exact ⟨r, hmalloc, hle, hlt hg.2, hinv⟩

theorem growproc_lt {n : Int} {ok : Bool} {sz sz' : Nat} (hsz : sz < KERNBASE)
    (hr : growproc n ok sz = some sz') : sz' < KERNBASE := by
  unfold growproc nonzero at hr
  dsimp only at hr
  split_ifs at hr <;> cases hr <;> omega

theorem sbrk_lt {n : Int} {ok : Bool} {h : Heap} (hb : h.brk < KERNBASE) : (sbrk n ok h).2.brk < KERNBASE := by
  unfold sbrk
  cases hr : growproc n ok h.brk with
  | none => exact hb
  | some sz => exact growproc_lt hb hr

/-- The break is moved without taking from the allocator. -/
theorem Good.moved {h : Heap} (hg : Umalloc.Good base s) (hmem : h.mem = s.heap.mem) (hfreep : h.freep = s.heap.freep)
    (hgot : h.got = s.heap.got) (hbase : base + 8 ≤ h.brk) (hlt : h.brk < 2 ^ 32) (hbelow : ∀ c ∈ s.heap.got, c.stop ≤ h.brk) :
    Umalloc.Good base ⟨h, s.live⟩ := by
  rcases hg with hinit | ⟨l, hi⟩
  · refine .inl ⟨hinit.1, hbase, hlt, ?_, ?_, hinit.2.2.2.2.2⟩
    · show h.freep = 0
      rw [hfreep, hinit.2.2.2.1]
    · show h.got = []
      rw [hgot, hinit.2.2.2.2.1]
  · have hsame : ∀ q, Same s.heap h q := fun q => by
      unfold Same Heap.ptr Heap.size
      rw [hmem]
      exact ⟨rfl, rfl⟩
    refine .inr ⟨l, hi.rep.congr (fun b _ => hsame b.addr) hfreep, hi.inner, fun b hb => ?_, hi.enough, ?_, ?_, ?_, hbase, hlt⟩
    · rw [(hsame b.addr).1, (hsame b.addr).2]
      exact hi.header b hb
    · rw [hgot]
      exact hi.covers
    · rw [hgot]
      exact hi.once
    · rw [hgot]
      exact hbelow

theorem Good.step {e : Call} (hg : Good base s) (hok : Proper base s e) (hs : step base s e = some s') :
    Good base s' := by
  cases e with
  | malloc fuel nbytes oks =>
    obtain ⟨r, hmalloc, -, hlt, hinv⟩ := hg.malloc_spec hok oks
    rcases hmalloc fuel with hstop | hret
    · simp only [Kernel.step, hstop] at hs
      cases hs
    · simp only [Kernel.step, hret, Option.some.injEq] at hs
      subst hs
      exact ⟨.inr hinv, hlt⟩
  | free fuel ap =>
    refine ⟨hg.1.step (e := .free fuel ap) hok hs, ?_⟩
    simp only [Kernel.step, Umalloc.step] at hs
    cases hm : free fuel ap s.heap with
    | error e =>
      rw [hm] at hs
      cases hs
    | ok h' =>
      rw [hm] at hs
      cases hs
      show h'.brk < KERNBASE
      rw [free_brk hm]
      exact hg.2
  | write a v =>
    refine ⟨hg.1.step (e := .write a v) hok hs, ?_⟩
    cases hs
    exact hg.2
  | sbrk n ok =>
    cases hs
    have hlt : (sbrk n ok s.heap).2.brk < KERNBASE := sbrk_lt hg.2
    refine ⟨Good.moved hg.1 ?_ ?_ ?_ hok.1 (Nat.lt_trans hlt (by decide)) hok.2, hlt⟩
    all_goals
      unfold sbrk
      cases growproc n ok s.heap.brk <;> rfl

theorem good_of_reach (h : Machine.Reach (step base) (Init base) (Proper base) s) : Good base s :=
  h.invariant (fun _ hi => ⟨.inl hi.1, hi.2⟩) fun _ _ _ hg hok hs => hg.step hok hs

/-- What a call of `malloc` owes the program: the bytes it returns lie below the break, in no other live block, and
the process is not made smaller, whether the call comes back or a page fault ends it. -/
structure MallocOk (base nbytes : Nat) (oks : Nat → Bool) (s : State) : Prop where
  owned : ∀ {fuel ap h' calls}, malloc base fuel nbytes oks s.heap = .ok (ap, h', calls) → ap ≠ 0 →
    ∀ x, ap ≤ x → x < ap + nbytes → x < h'.brk ∧ ∀ b ∈ s.live, ¬ b.Has x
  returned : ∀ {fuel ap h' calls}, malloc base fuel nbytes oks s.heap = .ok (ap, h', calls) → s.heap.brk ≤ h'.brk
  killed : ∀ {fuel h'}, malloc base fuel nbytes oks s.heap = .error (.fault h') → s.heap.brk ≤ h'.brk

/-- The newest block has room for what was asked, below the break and apart from the others. -/
theorem Inv.newest {h : Heap} {live : List Live} {l : List Block} {b : Live} (hi : Inv base h (b :: live) l) :
    base + 8 ≤ b.addr ∧ b.addr + 8 + b.nbytes ≤ b.stop ∧ b.stop ≤ h.brk ∧ ∀ c ∈ live, Separate b.toBlock c.toBlock := by
  have henough := hi.enough b List.mem_cons_self
  have hmem : b.toBlock ∈ l ++ (b :: live).map Live.toBlock :=
    List.mem_append_right l (List.mem_map_of_mem List.mem_cons_self)
  have hsep := (List.pairwise_append.mp hi.separate).2.1
  refine ⟨(hi.inner b List.mem_cons_self).above, ?_, hi.stop_le hmem, fun c hc => ?_⟩
  · unfold Block.stop
    omega
  · exact (List.pairwise_cons.mp hsep).1 c.toBlock (List.mem_map_of_mem hc)

theorem Good.mallocOk (hg : Good base s) (hn : Small nbytes) : MallocOk base nbytes oks s := by
  obtain ⟨r, hmalloc, hle, -, l, hi⟩ := hg.malloc_spec hn oks
  refine ⟨fun {fuel ap h' calls} hrun hne x hlo hhi => ?_, fun {fuel ap h' calls} hrun => ?_, fun {fuel h'} hrun => ?_⟩
  · cases (hmalloc fuel).ok hrun
    rw [if_neg hne] at hi
    obtain ⟨habove, hroom, hbrk, hsep⟩ := Inv.newest hi
    simp only [Heap.live] at habove hroom hbrk hsep
    refine ⟨by omega, fun b hb hhas => ?_⟩
    have hapart := hsep b hb
    unfold Separate at hapart
    have hlow := hhas.1
    have hhigh := hhas.2
    dsimp only at hapart
    omega
  · cases (hmalloc fuel).ok hrun
    exact hle
  · rcases hmalloc fuel with hstop | hret
    · rw [hstop] at hrun
      cases hrun
    · rw [hret] at hrun
      cases hrun

end Runs

section Large
variable {h : Heap} {base bp nbytes : Nat} {oks : Nat → Bool}

/-- The block at `bp` is freed into an empty list. -/
theorem free_alone (hfar : Far bp base) (hlt : base < bp) (hbp : bp + 8 < 2 ^ 32) (hfreep : h.freep = base)
    (hptr : h.ptr base = base) (hsize : h.size base = 0) (hup : plus bp (h.size bp) ≠ base) :
    ∃ h', free 1 (plus bp 1) h = .ok h' ∧ h'.freep = base ∧ h'.ptr base = bp ∧ h'.size bp = h.size bp ∧
      h'.brk = h.brk := by
  have hback : (plus bp 1 + (2 ^ 32 - 8)) % 2 ^ 32 = bp := by
    unfold plus
    omega
  have hwrap : ¬ (base < bp ∧ bp < base) := fun hc => Nat.lt_asymm hc.1 hc.2
  have hloop : freeLoop h bp 1 h.freep = .ok base := by
    rw [hfreep, freeLoop, hptr, if_neg hwrap, if_pos ⟨Nat.le_refl base, .inl hlt⟩]
  obtain ⟨-, hsz, hrest⟩ := joinUpper_spec (h := h) hfar (hptr.symm ▸ hfar)
  obtain ⟨hptr', -, hrest'⟩ := joinLower_spec (h := joinUpper h bp base) (by omega) hfar.symm
  have hzero : plus base ((joinUpper h bp base).size base) ≠ bp := by
    rw [(hrest base hfar).2, hsize]
    unfold plus
    omega
  rw [if_neg hzero] at hptr'
  rw [hptr, if_neg hup] at hsz
  have hfree : free 1 (plus bp 1) h = .ok { joinLower (joinUpper h bp base) bp base with freep := base } := by
    unfold free
    dsimp only
    rw [hback, hloop]
    rfl
  refine ⟨_, hfree, rfl, ?_, ?_, free_brk hfree⟩
  · rw [Heap.ptr_withFreep, hptr']
  · rw [Heap.size_withFreep, (hrest' bp hfar.symm).2, hsz]

/-- A request whose bytes are no positive `int` leaves a process of this size at most as large, and succeeds. -/
theorem growproc_large {k : Nat} (hlo : 2 ^ 31 ≤ k * 8) (hhi : k * 8 ≤ 2 ^ 32) :
    ∃ sz ≤ 12308, growproc (int (k * 8 % 2 ^ 32)) true 12308 = some sz := by
  have hint : int (k * 8 % 2 ^ 32) = k * 8 - 2 ^ 32 := by
    unfold int
    split <;> omega
  rw [hint]
  -- the sum is odd in units of eight, so `growproc` never sees the size 0
  have hnonzero : ((((12308 : Nat) : Int) + ((k : Int) * 8 - 2 ^ 32)) % WORD).toNat ≠ 0 := by
    unfold WORD
    omega
  have hpos : ¬ (k : Int) * 8 - 2 ^ 32 > 0 := by omega
  unfold growproc
  rw [if_neg hpos]
  by_cases hneg : (k : Int) * 8 - 2 ^ 32 < 0
  · rw [if_pos hneg]
    by_cases hge : ((((12308 : Nat) : Int) + ((k : Int) * 8 - 2 ^ 32)) % WORD).toNat ≥ 12308
    · rw [if_pos hge]
      exact ⟨12308, Nat.le_refl _, rfl⟩
    · rw [if_neg hge, nonzero, if_neg hnonzero]
      exact ⟨_, Nat.le_of_lt (Nat.not_le.mp hge), rfl⟩
  · rw [if_neg hneg]
    exact ⟨12308, Nat.le_refl _, rfl⟩

/-- A process that has moved its break to an address within a page, before its first call of `malloc`. -/
def unaligned : State := ⟨⟨fun _ => 0, 0, 12308, []⟩, []⟩

theorem reach_unaligned : Machine.Reach (step 4096) (Init 4096) (Proper 4096) unaligned := by
  have hinit : Init 4096 ⟨⟨fun _ => 0, 0, 12288, []⟩, []⟩ := by
    refine ⟨⟨?_, ?_, ?_, rfl, rfl, rfl⟩, ?_⟩ <;> decide
  have hmove : sbrk 20 true ⟨fun _ => 0, 0, 12288, []⟩ = (some 12288, ⟨fun _ => 0, 0, 12308, []⟩) := rfl
  refine .next (e := .sbrk 20 true) (.start hinit) ⟨?_, fun c hc => ?_⟩ ?_
  · rw [hmove]
    decide
  · cases hc
  · show some (State.mk (sbrk 20 true ⟨fun _ => 0, 0, 12288, []⟩).2 []) = some unaligned
    rw [hmove]
    rfl

/-- The first free list of that process: `base` alone. -/
theorem prepared_unaligned : ∃ h, prepare 4096 unaligned.heap = h ∧ h.freep = 4096 ∧ h.ptr 4096 = 4096 ∧
    h.size 4096 = 0 ∧ h.brk = 12308 := by
  have hfreep : unaligned.heap.freep = 0 := rfl
  refine ⟨_, rfl, rfl, ?_, ?_, rfl⟩
  · rw [prepare, if_pos hfreep, Heap.ptr_setSize, Heap.ptr_setPtr]
    decide
  · rw [prepare, if_pos hfreep, Heap.size_setSize]
    decide


/-- There a request of at least 2³¹ bytes with its header shrinks the process, or returns the end of it. -/
theorem malloc_large (hlo : 2 ^ 31 ≤ units nbytes * 8) :
    ∃ h', h'.brk ≤ 12308 ∧ (malloc 4096 2 nbytes (fun _ => true) unaligned.heap = .ok (12316, h', 1) ∨
      malloc 4096 2 nbytes (fun _ => true) unaligned.heap = .error (.fault h') ∧ h'.brk < 12308) := by
  obtain ⟨h, hprep, hfreep, hptr, hsize, hbrk⟩ := prepared_unaligned
  have hhi : units nbytes * 8 ≤ 2 ^ 32 := by
    unfold units
    omega
  unfold malloc Umalloc.malloc
  rw [hprep]
  generalize units nbytes = nu at hlo hhi ⊢
  obtain ⟨sz, hsz, hgrow⟩ := growproc_large hlo hhi
  have hround : (if nu < 4096 then 4096 else nu) = nu := if_neg (by omega)
  have hnone : ¬ nu ≤ h.size 4096 := by omega
  have hcore : core true (nu * 8 % 2 ^ 32) h = if PGROUNDUP sz < 12308 + 8 then .error (.fault { h with brk := sz })
      else .ok (some 12308, { h with brk := sz }) := by
    rw [core, sbrk, hbrk, hgrow]
  dsimp only
  rw [hfreep, hptr, mallocLoop, if_neg hnone, hfreep, if_pos rfl, morecore, hround]
  dsimp only
  rw [hcore]
  by_cases hfault : PGROUNDUP sz < 12308 + 8
  · refine ⟨{ h with brk := sz }, hsz, .inr ⟨?_, ?_⟩⟩
    · rw [if_pos hfault]
      rfl
    · -- the page of the break itself is mapped
      refine Nat.lt_of_le_of_ne hsz fun heq => ?_
      rw [show sz = 12308 from heq] at hfault
      exact absurd hfault (by decide)
  · rw [if_neg hfault, ok_bind]
    dsimp only
    have hfar : Far 12308 4096 := .inr (by decide)
    generalize hh : Heap.setSize { h with brk := sz, got := ⟨12308, nu⟩ :: h.got } 12308 nu = h₁
    have hsame : Same h h₁ 4096 := hh ▸ same_setSize (h := { h with brk := sz, got := ⟨12308, nu⟩ :: h.got }) hfar
    have hnu : h₁.size 12308 = nu := by
      rw [← hh, Heap.size_setSize, Nat.mod_eq_of_lt (by omega)]
    have hup : plus 12308 (h₁.size 12308) ≠ 4096 := by
      rw [hnu]
      unfold plus
      omega
    obtain ⟨h₂, hfree, hfreep₂, hptr₂, hsize₂, hbrk₂⟩ := free_alone hfar (by decide) (by decide)
      (hh ▸ hfreep) (hsame.1.trans hptr) (hsame.2.trans hsize) hup
    have hfound : h₂.size 12308 = nu := hsize₂.trans hnu
    have hend : h₂.brk = sz := hbrk₂.trans (hh ▸ rfl)
    refine ⟨(take nu 4096 12308 h₂).2, ?_, .inl ?_⟩
    · rw [take_brk, hend]
      exact hsz
    · rw [hfree]
      show (if h₂.freep = 0 then Except.ok (0, h₂, 1) else mallocLoop nu _ 1 1 h₂.freep (h₂.ptr h₂.freep) h₂) = _
      rw [hfreep₂, if_neg (by decide), hptr₂, mallocLoop, if_pos (Nat.le_of_eq hfound.symm), take, if_pos hfound]
      rfl

/-- A request that is not small is not served. -/
theorem not_mallocOk (hn : ¬ Small nbytes) (hlt : nbytes < 2 ^ 32) :
    ¬ MallocOk 4096 nbytes (fun _ => true) unaligned := by
  intro hok
  unfold Small at hn
  by_cases hwrap : nbytes + 7 < 2 ^ 32
  · have hlo : 2 ^ 31 ≤ units nbytes * 8 := by
      unfold units
      omega
    obtain ⟨h', hbrk, hret | ⟨hfault, hless⟩⟩ := malloc_large hlo
    · have hin := (hok.owned hret (by decide) 12316 (Nat.le_refl _) (by omega)).1
      omega
    · exact Nat.not_le.mpr hless (hok.killed hfault)
  · -- the sum wraps and the request looks like one for a single unit
    have hunits : units nbytes = 1 := by
      unfold units
      omega
    have hmalloc : malloc 4096 4 nbytes (fun _ => true) unaligned.heap = malloc 4096 4 0 (fun _ => true) unaligned.heap := by
      unfold malloc Umalloc.malloc
      rw [hunits]
      rfl
    have hrun : (malloc 4096 4 0 (fun _ => true) unaligned.heap).toOption.any
        (fun r => r.1 ≠ 0 && r.2.1.brk ≤ 2 ^ 16) = true := by decide +kernel
    rw [← hmalloc] at hrun
    cases hm : malloc 4096 4 nbytes (fun _ => true) unaligned.heap with
    | error e =>
      rw [hm] at hrun
      cases hrun
    | ok r =>
      obtain ⟨ap, h', calls⟩ := r
      rw [hm] at hrun
      simp only [Except.toOption, Option.any_some, Bool.and_eq_true, decide_eq_true_eq] at hrun
      have hin := (hok.owned hm hrun.1 (ap + nbytes - 1) (by omega) (by omega)).1
      omega

end Large

/-- `malloc` serves a request in every state of the heap exactly when the request and its header are a positive
`int` number of bytes. -/
theorem malloc_ok_iff_small {nbytes : Nat} (hlt : nbytes < 2 ^ 32) :
    (∀ base oks s, Machine.Reach (step base) (Init base) (Proper base) s → MallocOk base nbytes oks s) ↔
      nbytes ≤ 2 ^ 31 - 16 := by
  have hsmall : Small nbytes ↔ nbytes ≤ 2 ^ 31 - 16 := by
    unfold Small
    omega
  rw [← hsmall]
  constructor
  · intro hall
    by_contra hn
    exact not_mallocOk hn hlt (hall 4096 (fun _ => true) unaligned reach_unaligned)
  · intro hn base oks s hs
    exact (good_of_reach hs).mallocOk hn

/-- A request of 100 bytes is served. -/
theorem malloc_ok_hundred : 100 < 2 ^ 32 ∧
    ∀ base oks s, Machine.Reach (step base) (Init base) (Proper base) s → MallocOk base 100 oks s :=
  ⟨by decide, (malloc_ok_iff_small (by decide)).mpr (by decide)⟩

/-- `malloc(0xffffffff)` returns a block of eight bytes. -/
theorem malloc_largest_wraps : ¬ ∀ base oks s, Machine.Reach (step base) (Init base) (Proper base) s →
    MallocOk base 0xffffffff oks s := fun hall =>
  not_mallocOk (by decide) (by decide) (hall 4096 (fun _ => true) unaligned reach_unaligned)

end Kernel

end Chameleon.Umalloc
