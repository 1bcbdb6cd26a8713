import Chameleon.Vm.Isolation
import Chameleon.Vm.Mappages

/-! `deallocuvm` steps over the 4 MB of a missing page table at once. It does what a visit of every single page would
do. -/

namespace Chameleon.Vm
open Hoare

/-- The body of the loop for an entry that exists. -/
def freeEntry (L : Layout) (t i : Nat) : Kern Unit := do
  let k ← get
  if present (k.mem.entry t i) then
    if PTE_ADDR (k.mem.entry t i) = 0 then throw "kfree"
    else
      kfree L (PTE_ADDR (k.mem.entry t i))
      modify fun k => k.setMem (·.setEntry t i 0)
  else pure ()

/-- The loop of `deallocuvm` as the code has it: the skip sets `a` to the page before the next page table, and the
increment follows, both modulo `2 ^ 32`. It is still running after `fuel` tests for `none`. -/
def deallocFor (L : Layout) (pgdir oldsz : Nat) : Nat → Nat → Kmem → Option (Except String (Unit × Kmem))
  | 0, _, _ => none
  | fuel + 1, a, k =>
    if a < oldsz then
      match walkpgdir k.mem pgdir a with
      | none =>
        let a := (PGADDR (PDX a + 1) 0 0 + WORD - PGSIZE) % WORD
        deallocFor L pgdir oldsz fuel ((a + PGSIZE) % WORD) k
      | some (t, i) =>
        match (freeEntry L t i).run k with
        | .error e => some (.error e)
        | .ok (_, k) => deallocFor L pgdir oldsz fuel ((a + PGSIZE) % WORD) k
    else some (.ok ((), k))

def deallocuvmFor (fuel : Nat) (L : Layout) (pgdir oldsz newsz : Nat) (k : Kmem) :
    Option (Except String (Nat × Kmem)) :=
  if newsz ≥ oldsz then some (.ok (oldsz, k))
  else (deallocFor L pgdir oldsz fuel (PGROUNDUP newsz) k).map (Except.map fun r => (newsz, r.2))

/-- One page, with no skip. -/
def visit (L : Layout) (pgdir a : Nat) : Kern Unit := do
  let k ← get
  match walkpgdir k.mem pgdir a with
  | none => pure ()
  | some (t, i) => freeEntry L t i

/-- `n` pages from `a` on, one by one. -/
def visitAll (L : Layout) (pgdir : Nat) : Nat → Nat → Kern Unit
  | 0, _ => pure ()
  | n + 1, a => do
    visit L pgdir a
    visitAll L pgdir n (a + PGSIZE)

/-! ### The skip -/

section Skip
variable {L : Layout} {d oldsz : Nat}

theorem visitAll_succ (n a : Nat) (k : Kmem) : (visitAll L d (n + 1) a).run k =
    match (visit L d a).run k with
    | .error e => .error e
    | .ok (_, k') => (visitAll L d n (a + PGSIZE)).run k' := by
  rw [visitAll, StateT.run_bind]
  cases (visit L d a).run k with
  | error e => rfl
  | ok r => rfl

theorem visit_none {a : Nat} {k : Kmem} (h : walkpgdir k.mem d a = none) : (visit L d a).run k = .ok ((), k) := by
  rw [visit, run_get_bind, h]
  rfl

theorem visit_some {a : Nat} {k : Kmem} {e : Nat × Nat} (h : walkpgdir k.mem d a = some e) :
    (visit L d a).run k = (freeEntry L e.1 e.2).run k := by
  rw [visit, run_get_bind, h]

/-- Pages without a page table are visited to no effect. -/
theorem visitAll_skip (j n : Nat) {a : Nat} {k : Kmem} (h : ∀ i < j, walkpgdir k.mem d (a + i * PGSIZE) = none) :
    (visitAll L d (n + j) a).run k = (visitAll L d n (a + j * PGSIZE)).run k := by
  induction j generalizing a with
  | zero => rw [Nat.zero_mul, Nat.add_zero, Nat.add_zero]
  | succ j ih =>
    have hfirst : walkpgdir k.mem d a = none := by
      have := h 0 (Nat.succ_pos j)
      rwa [Nat.zero_mul, Nat.add_zero] at this
    have hsum : ∀ i, a + (i + 1) * PGSIZE = a + PGSIZE + i * PGSIZE := fun i => by rw [Nat.succ_mul]; omega
    rw [← Nat.add_assoc, visitAll_succ, visit_none hfirst, hsum]
    apply ih
    intro i hi
    rw [← hsum]
    exact h (i + 1) (Nat.succ_lt_succ hi)

theorem pagesIn_eq_zero {a : Nat} : pagesIn a oldsz = 0 ↔ oldsz ≤ a := by
  unfold pagesIn PGSIZE
  omega

theorem pagesIn_succ {a : Nat} (h : a < oldsz) : pagesIn a oldsz = pagesIn (a + PGSIZE) oldsz + 1 := by
  unfold pagesIn PGSIZE
  omega

/-- From a page of a missing page table the rest of the pages is as good as the rest behind that table. -/
theorem visitAll_table {a : Nat} {k : Kmem} (ha : a % PGSIZE = 0) (hlt : a < oldsz)
    (hwalk : walkpgdir k.mem d a = none) : (visitAll L d (pagesIn a oldsz) a).run k =
      (visitAll L d (pagesIn ((a / 2 ^ 22 + 1) * 2 ^ 22) oldsz) ((a / 2 ^ 22 + 1) * 2 ^ 22)).run k := by
  obtain ⟨j, hj, hend, hin⟩ : ∃ j, pagesIn a oldsz = pagesIn ((a / 2 ^ 22 + 1) * 2 ^ 22) oldsz + j ∧
      (pagesIn ((a / 2 ^ 22 + 1) * 2 ^ 22) oldsz ≠ 0 → a + j * PGSIZE = (a / 2 ^ 22 + 1) * 2 ^ 22) ∧
      ∀ i < j, (a + i * PGSIZE) / 2 ^ 22 = a / 2 ^ 22 := by
    refine ⟨pagesIn a oldsz - pagesIn ((a / 2 ^ 22 + 1) * 2 ^ 22) oldsz, ?_, ?_, ?_⟩
    · unfold pagesIn PGSIZE at *
      omega
    · unfold pagesIn PGSIZE at *
      omega
    · intro i hi
      unfold pagesIn PGSIZE at *
      omega
  have hskip := visitAll_skip (L := L) j (pagesIn ((a / 2 ^ 22 + 1) * 2 ^ 22) oldsz) (d := d) (a := a) (k := k) ?_
  · rw [hj, hskip]
    cases hn : pagesIn ((a / 2 ^ 22 + 1) * 2 ^ 22) oldsz with
    | zero => rfl
    | succ n => rw [hend (by rw [hn]; exact Nat.succ_ne_zero n)]
  · intro i hi
    have habs := walkpgdir_eq_none hwalk
    apply walkpgdir_noTable
    have hsame : PDX (a + i * PGSIZE) = PDX a := by
      unfold PDX
      rw [hin i hi]
    rw [hsame]
    exact habs

theorem deallocLoop_none {n a : Nat} {k : Kmem} (hlt : a < oldsz) (h : walkpgdir k.mem d a = none) :
    (deallocLoop L d oldsz (n + 1) a).run k = (deallocLoop L d oldsz n (PGADDR (PDX a + 1) 0 0)).run k := by
  rw [deallocLoop, if_pos hlt, run_get_bind, h]

theorem deallocLoop_some {n a : Nat} {k : Kmem} {e : Nat × Nat} (hlt : a < oldsz) (h : walkpgdir k.mem d a = some e) :
    (deallocLoop L d oldsz (n + 1) a).run k =
      match (freeEntry L e.1 e.2).run k with
      | .error m => .error m
      | .ok (_, k') => (deallocLoop L d oldsz n (a + PGSIZE)).run k' := by
  have hbody : (deallocLoop L d oldsz (n + 1) a).run k =
      (freeEntry L e.1 e.2 >>= fun _ => deallocLoop L d oldsz n (a + PGSIZE)).run k := by
    rw [deallocLoop, if_pos hlt, run_get_bind, h, freeEntry, bind_assoc, run_get_bind]
    dsimp only
    by_cases hp : present (k.mem.entry e.1 e.2)
    · by_cases hz : PTE_ADDR (k.mem.entry e.1 e.2) = 0
      · rw [if_pos hp, if_pos hp, if_pos hz, if_pos hz]
        rfl
      · rw [if_pos hp, if_pos hp, if_neg hz, if_neg hz, bind_assoc]
    · rw [if_neg hp, if_neg hp, pure_bind]
  rw [hbody, StateT.run_bind]
  cases (freeEntry L e.1 e.2).run k with
  | error m => rfl
  | ok r => rfl

theorem deallocLoop_done {n a : Nat} {k : Kmem} (h : oldsz ≤ a) : (deallocLoop L d oldsz n a).run k = .ok ((), k) := by
  cases n with
  | zero => rfl
  | succ n =>
    rw [deallocLoop, if_neg (Nat.not_lt.mpr h)]
    rfl

variable (hsz : oldsz ≤ KERNBASE)
include hsz

theorem skip_next {a : Nat} (ha : a % PGSIZE = 0) (hlt : a < oldsz) :
    PGADDR (PDX a + 1) 0 0 = (a / 2 ^ 22 + 1) * 2 ^ 22 ∧
      ((PGADDR (PDX a + 1) 0 0 + WORD - PGSIZE) % WORD + PGSIZE) % WORD = (a / 2 ^ 22 + 1) * 2 ^ 22 := by
  have hnext := PGADDR_next ha (lt_of_lt_of_le hlt hsz)
  rw [hnext]
  refine ⟨rfl, ?_⟩
  unfold WORD PGSIZE KERNBASE at *
  omega

/-- The loop never wraps and ends. -/
theorem deallocFor_eq (n : Nat) {a : Nat} (ha : a % PGSIZE = 0) (hn : pagesIn a oldsz ≤ n) (k : Kmem) {fuel : Nat}
    (hfuel : n < fuel) : deallocFor L d oldsz fuel a k = some ((deallocLoop L d oldsz n a).run k) := by
  induction n generalizing a k fuel with
  | zero =>
    obtain ⟨fuel, rfl⟩ := Nat.exists_eq_succ_of_ne_zero hfuel.ne'
    have hend : oldsz ≤ a := pagesIn_eq_zero.mp (Nat.le_zero.mp hn)
    rw [deallocFor, if_neg (Nat.not_lt.mpr hend)]
    rfl
  | succ n ih =>
    obtain ⟨fuel, rfl⟩ := Nat.exists_eq_succ_of_ne_zero (Nat.ne_zero_of_lt hfuel)
    have hfuel' : n < fuel := Nat.lt_of_succ_lt_succ hfuel
    by_cases hlt : a < oldsz
    · rw [deallocFor, if_pos hlt]
      -- Where there is no page table the loop goes on at the next directory entry, at least one page further.
      cases hwalk : walkpgdir k.mem d a with
      | none =>
        obtain ⟨hnext, hnext'⟩ := skip_next hsz ha hlt
        dsimp only
        rw [hnext', deallocLoop_none hlt hwalk, hnext]
        refine ih ?_ ?_ k hfuel'
        · unfold PGSIZE
          omega
        · unfold pagesIn PGSIZE at *
          omega
      | some e =>
        have hnext : (a + PGSIZE) % WORD = a + PGSIZE := by
          unfold WORD PGSIZE KERNBASE at *
          omega
        rw [deallocLoop_some hlt hwalk]
        show (match (freeEntry L e.1 e.2).run k with
          | .error m => some (Except.error m)
          | .ok (_, k) => deallocFor L d oldsz fuel ((a + PGSIZE) % WORD) k) = _
        cases (freeEntry L e.1 e.2).run k with
        | error m => rfl
        | ok r =>
          show deallocFor L d oldsz fuel ((a + PGSIZE) % WORD) r.2 = _
          rw [hnext]
          refine ih ?_ ?_ r.2 hfuel'
          · unfold PGSIZE at *
            omega
          · rw [pagesIn_succ hlt] at hn
            exact Nat.le_of_succ_le_succ hn
    · rw [deallocFor, if_neg hlt, deallocLoop_done (Nat.not_lt.mp hlt)]

/-- It has the effect of a visit of every page. -/
theorem deallocLoop_eq (n : Nat) {a : Nat} (ha : a % PGSIZE = 0) (hn : pagesIn a oldsz ≤ n) (k : Kmem) :
    (deallocLoop L d oldsz n a).run k = (visitAll L d (pagesIn a oldsz) a).run k := by
  induction n generalizing a k with
  | zero =>
    have hend := Nat.le_zero.mp hn
    rw [hend, deallocLoop_done (pagesIn_eq_zero.mp hend)]
    rfl
  | succ n ih =>
    by_cases hlt : a < oldsz
    · cases hwalk : walkpgdir k.mem d a with
      | none =>
        rw [deallocLoop_none hlt hwalk, (skip_next hsz ha hlt).1, visitAll_table ha hlt hwalk]
        apply ih
        · unfold PGSIZE
          omega
        · unfold pagesIn PGSIZE at *
          omega
      | some e =>
        rw [deallocLoop_some hlt hwalk, pagesIn_succ hlt, visitAll_succ, visit_some hwalk]
        cases (freeEntry L e.1 e.2).run k with
        | error m => rfl
        | ok r =>
          apply ih
          · unfold PGSIZE at *
            omega
          · rw [pagesIn_succ hlt] at hn
            exact Nat.le_of_succ_le_succ hn
    · have hend := Nat.not_lt.mp hlt
      rw [deallocLoop_done hend, pagesIn_eq_zero.mpr hend]
      rfl

end Skip

/-! ### What is freed -/

/-- The user pages of directory `d` are frames of the allocator, each in one place and none of them a page table. -/
structure UserFrames (L : Layout) (d : Nat) (e : Entries) : Prop where
  tables : Tabled e d
  frame : ∀ va < KERNBASE, present (pteAt e d va) → IsFrame L (PTE_ADDR (pteAt e d va))
  distinct : ∀ va < KERNBASE, ∀ va' < KERNBASE, present (pteAt e d va) → present (pteAt e d va') → ¬ SamePage va' va →
    PTE_ADDR (pteAt e d va') ≠ PTE_ADDR (pteAt e d va)
  apart : ∀ va < KERNBASE, present (pteAt e d va) → PTE_ADDR (pteAt e d va) ≠ d ∧
    ∀ i < NPDENTRIES, present (e d i) → PTE_ADDR (e d i) ≠ PTE_ADDR (pteAt e d va)

/-- Address `x` lies in the page frame `f`. -/
def InPage (f x : Nat) : Prop := f ≤ x ∧ x < f + PGSIZE

/-- The pages present between `lo` and `hi` have been freed, and nothing else has changed in the translation. -/
structure Freed (d lo hi : Nat) (k k' : Kmem) : Prop where
  once : ∃ fs : List Nat, fs.Nodup ∧ k'.freelist = fs ++ k.freelist ∧ ∀ f, f ∈ fs ↔
    ∃ va, lo ≤ va ∧ va < hi ∧ present (pteAt k.mem.entry d va) ∧ PTE_ADDR (pteAt k.mem.entry d va) = f
  pte : ∀ va < WORD, pteAt k'.mem.entry d va =
    if lo ≤ va ∧ va < hi ∧ present (pteAt k.mem.entry d va) then 0 else pteAt k.mem.entry d va
  dir : k'.mem.entry d = k.mem.entry d
  byte : ∀ x, (∀ va, lo ≤ va → va < hi → present (pteAt k.mem.entry d va) →
    ¬ InPage (PTE_ADDR (pteAt k.mem.entry d va)) x) → k'.mem.byte x = k.mem.byte x

section Effect
variable {L : Layout} {d a : Nat} {k : Kmem}

theorem UserFrames.clear {e e' : Entries} (h : UserFrames L d e) (hd : e' d = e d)
    (hpte : ∀ va, present (pteAt e' d va) → pteAt e' d va = pteAt e d va) : UserFrames L d e' := by
  have hold : ∀ va, present (pteAt e' d va) → present (pteAt e d va) := fun va hp => hpte va hp ▸ hp
  refine ⟨⟨?_, ?_⟩, ?_, ?_, ?_⟩
  · rw [hd]
    exact h.tables.ne_dir
  · rw [hd]
    exact h.tables.ne_table
  · intro va hva hp
    rw [hpte va hp]
    exact h.frame va hva (hold va hp)
  · intro va hva va' hva' hp hp' hne
    rw [hpte va hp, hpte va' hp']
    exact h.distinct va hva va' hva' (hold va hp) (hold va' hp') hne
  · intro va hva hp
    rw [hpte va hp, hd]
    exact h.apart va hva (hold va hp)

/-- The memory after a page was freed and its entry cleared. -/
def dropPage (k : Kmem) (v t i : Nat) : Kmem :=
  ({ k.setMem (·.fill v 1) with freelist := v :: k.freelist } : Kmem).setMem (·.setEntry t i 0)

theorem freeEntry_present {t i : Nat} (hp : present (k.mem.entry t i)) (hframe : IsFrame L (PTE_ADDR (k.mem.entry t i))) :
    (freeEntry L t i).run k = .ok ((), dropPage k (PTE_ADDR (k.mem.entry t i)) t i) := by
  have hpos : PTE_ADDR (k.mem.entry t i) ≠ 0 := by
    have hend := lt_of_lt_of_le L.extmem_lt_data L.data_le_endp
    unfold IsFrame at hframe
    omega
  show (if present (k.mem.entry t i) then if PTE_ADDR (k.mem.entry t i) = 0 then throw "kfree" else _
    else _ : Kern Unit).run k = _
  rw [if_pos hp, if_neg hpos, StateT.run_bind, kfree_run hframe]
  rfl

theorem freeEntry_absent {t i : Nat} (hp : ¬ present (k.mem.entry t i)) : (freeEntry L t i).run k = .ok ((), k) := by
  show (if present (k.mem.entry t i) then _ else pure () : Kern Unit).run k = _
  rw [if_neg hp]
  rfl

/-- Overwriting the page that was freed leaves the directory and its tables alone. -/
theorem pteAt_dropPage (h : UserFrames L d k.mem.entry) (ha : a < KERNBASE) (hp : present (pteAt k.mem.entry d a)) :
    (dropPage k (PTE_ADDR (pteAt k.mem.entry d a)) (PTE_ADDR (k.mem.entry d (PDX a))) (PTX a)).mem.entry d =
        k.mem.entry d ∧
      ∀ va, pteAt (dropPage k (PTE_ADDR (pteAt k.mem.entry d a)) (PTE_ADDR (k.mem.entry d (PDX a))) (PTX a)).mem.entry d
        va = if SamePage va a then 0 else pteAt k.mem.entry d va := by
  have ht := table_of_pteAt hp
  obtain ⟨hvd, hvt⟩ := h.apart a ha hp
  have hdir : setE k.mem.entry (PTE_ADDR (k.mem.entry d (PDX a))) (PTX a) 0 d = k.mem.entry d :=
    setE_of_ne (h.tables.ne_dir _ (PDX_lt a) ht).symm
  have hentry : (dropPage k (PTE_ADDR (pteAt k.mem.entry d a)) (PTE_ADDR (k.mem.entry d (PDX a))) (PTX a)).mem.entry =
      Function.update (setE k.mem.entry (PTE_ADDR (k.mem.entry d (PDX a))) (PTX a) 0) (PTE_ADDR (pteAt k.mem.entry d a))
        fun _ => (1 : UInt8).toNat * 0x01010101 := by
    rw [← setE_update_comm (hvt _ (PDX_lt a) ht).symm]
    rfl
  rw [hentry]
  constructor
  · rw [Function.update_of_ne hvd.symm, hdir]
  · intro va
    rw [← h.tables.pteAt_setE ht va]
    apply congrFun
    apply pteAt_congr
    · exact Function.update_of_ne hvd.symm _ _
    · rw [hdir]
      intro i hi hpi
      exact Function.update_of_ne (hvt i hi hpi) _ _

theorem visit_present (h : UserFrames L d k.mem.entry) (ha : a < KERNBASE) (hp : present (pteAt k.mem.entry d a)) :
    ∃ k', (visit L d a).run k = .ok ((), k') ∧ UserFrames L d k'.mem.entry ∧
      k'.freelist = PTE_ADDR (pteAt k.mem.entry d a) :: k.freelist ∧
      (∀ va, pteAt k'.mem.entry d va = if SamePage va a then 0 else pteAt k.mem.entry d va) ∧
      k'.mem.entry d = k.mem.entry d ∧
      ∀ x, ¬ InPage (PTE_ADDR (pteAt k.mem.entry d a)) x → k'.mem.byte x = k.mem.byte x := by
  have ht := table_of_pteAt hp
  have hframe := h.frame a ha hp
  obtain ⟨hdir, hpte⟩ := pteAt_dropPage h ha hp
  refine ⟨_, ?_, h.clear hdir ?_, rfl, hpte, hdir, fun x hx => if_neg hx⟩
  · rw [visit_some (walkpgdir_table ht)]
    rw [pteAt_table ht] at hp hframe ⊢
    exact freeEntry_present hp hframe
  · intro va hva
    rw [hpte va] at hva ⊢
    split at hva
    case isTrue => exact absurd hva not_present_zero
    case isFalse hne => exact if_neg hne

theorem visit_absent (hp : ¬ present (pteAt k.mem.entry d a)) : (visit L d a).run k = .ok ((), k) := by
  cases hwalk : walkpgdir k.mem d a with
  | none => exact visit_none hwalk
  | some e =>
    obtain ⟨t, i⟩ := e
    obtain ⟨ht, rfl, rfl⟩ := walkpgdir_eq_some hwalk
    rw [visit_some hwalk]
    rw [pteAt_table ht] at hp
    exact freeEntry_absent hp

theorem Freed.start (d lo : Nat) (k : Kmem) : Freed d lo lo k k := by
  refine ⟨⟨[], List.nodup_nil, rfl, fun f => ⟨fun hf => absurd hf List.not_mem_nil, ?_⟩⟩, fun va _ => ?_, rfl,
    fun _ _ => rfl⟩
  · rintro ⟨va, h1, h2, -⟩
    exact absurd h2 (Nat.not_lt.mpr h1)
  · rw [if_neg]
    exact fun h => absurd h.2.1 (Nat.not_lt.mpr h.1)

section Page
variable {lo : Nat} {k₀ : Kmem} (hfreed : Freed d lo a k₀ k) (hal : a % PGSIZE = 0) (ha : a < KERNBASE)
include hfreed hal ha

omit hal in
theorem Freed.pte_next : pteAt k.mem.entry d a = pteAt k₀.mem.entry d a := by
  rw [hfreed.pte a (lt_trans ha (by decide)), if_neg]
  exact fun h => absurd h.2.1 (Nat.lt_irrefl a)

omit hfreed in
/-- An address of the range with one more page is in the range, or on that page. -/
theorem lt_page_iff {va : Nat} (hva : va < WORD) : va < a + PGSIZE ↔ va < a ∨ SamePage va a := by
  rw [samePage_page hal ha hva]
  unfold PGSIZE at *
  omega

theorem Freed.absent (hp : ¬ present (pteAt k₀.mem.entry d a)) : Freed d lo (a + PGSIZE) k₀ k := by
  have hpage : ∀ va < WORD, present (pteAt k₀.mem.entry d va) → (va < a + PGSIZE ↔ va < a) := by
    intro va hva hpres
    rw [lt_page_iff hal ha hva]
    refine ⟨fun h => h.resolve_right fun hsame => hp ?_, .inl⟩
    rw [← pteAt_of_samePage hsame]
    exact hpres
  obtain ⟨⟨fs, hnodup, hfree, hmem⟩, hpte, hdir, hbyte⟩ := hfreed
  refine ⟨⟨fs, hnodup, hfree, fun f => (hmem f).trans ?_⟩, fun va hva => ?_, hdir, fun x hx => hbyte x ?_⟩
  · apply exists_congr
    intro va
    constructor
    · rintro ⟨h1, h2, hpres, heq⟩
      exact ⟨h1, lt_of_lt_of_le h2 (Nat.le_add_right a PGSIZE), hpres, heq⟩
    · rintro ⟨h1, h2, hpres, heq⟩
      have hva : va < WORD := by unfold WORD KERNBASE PGSIZE at *; omega
      exact ⟨h1, (hpage va hva hpres).mp h2, hpres, heq⟩
  · rw [hpte va hva]
    apply if_congr _ rfl rfl
    constructor
    · rintro ⟨h1, h2, hpres⟩
      exact ⟨h1, (hpage va hva hpres).mpr h2, hpres⟩
    · rintro ⟨h1, h2, hpres⟩
      exact ⟨h1, (hpage va hva hpres).mp h2, hpres⟩
  · exact fun va h1 h2 => hx va h1 (lt_of_lt_of_le h2 (Nat.le_add_right a PGSIZE))

theorem Freed.present {k' : Kmem} (hlo : lo ≤ a) (h₀ : UserFrames L d k₀.mem.entry)
    (hp : Chameleon.Vm.present (pteAt k₀.mem.entry d a))
    (hfree' : k'.freelist = PTE_ADDR (pteAt k₀.mem.entry d a) :: k.freelist)
    (hpte' : ∀ va, pteAt k'.mem.entry d va = if SamePage va a then 0 else pteAt k.mem.entry d va)
    (hdir' : k'.mem.entry d = k.mem.entry d)
    (hbyte' : ∀ x, ¬ InPage (PTE_ADDR (pteAt k₀.mem.entry d a)) x → k'.mem.byte x = k.mem.byte x) :
    Freed d lo (a + PGSIZE) k₀ k' := by
  obtain ⟨⟨fs, hnodup, hfree, hmem⟩, hpte, hdir, hbyte⟩ := hfreed
  have hend : a < a + PGSIZE := Nat.lt_add_of_pos_right (by decide)
  refine ⟨⟨PTE_ADDR (pteAt k₀.mem.entry d a) :: fs, ?_, ?_, fun f => ?_⟩, fun va hva => ?_, hdir'.trans hdir,
    fun x hx => ?_⟩
  · refine List.nodup_cons.mpr ⟨fun hin => ?_, hnodup⟩
    obtain ⟨va, h1, h2, hpres, heq⟩ := (hmem _).mp hin
    have hva : va < KERNBASE := lt_trans h2 ha
    refine h₀.distinct a ha va hva hp hpres ?_ heq
    rw [samePage_page hal ha (lt_trans hva (by decide))]
    exact fun h => absurd h.1 (Nat.not_le.mpr h2)
  · rw [hfree', hfree, List.cons_append]
  · rw [List.mem_cons, hmem]
    constructor
    · rintro (rfl | ⟨va, h1, h2, hpres, heq⟩)
      · exact ⟨a, hlo, hend, hp, rfl⟩
      · exact ⟨va, h1, lt_of_lt_of_le h2 (Nat.le_add_right a PGSIZE), hpres, heq⟩
    · rintro ⟨va, h1, h2, hpres, rfl⟩
      have hva : va < WORD := by unfold WORD KERNBASE PGSIZE at *; omega
      rcases (lt_page_iff hal ha hva).mp h2 with hbefore | hsame
      · exact .inr ⟨va, h1, hbefore, hpres, rfl⟩
      · left
        rw [pteAt_of_samePage hsame]
  · rw [hpte' va, hpte va hva]
    by_cases hsame : SamePage va a
    · have hin := (samePage_page hal ha hva).mp hsame
      rw [if_pos hsame, if_pos]
      refine ⟨le_trans hlo hin.1, hin.2, ?_⟩
      rw [pteAt_of_samePage hsame]
      exact hp
    · rw [if_neg hsame]
      apply if_congr _ rfl rfl
      rw [lt_page_iff hal ha hva, or_iff_left hsame]
  · rw [hbyte' x (hx a hlo hend hp)]
    exact hbyte x fun va h1 h2 => hx va h1 (lt_trans h2 hend)

end Page

/-- Visiting page after page frees what is present. -/
theorem visitAll_freed {lo : Nat} {k₀ : Kmem} (h₀ : UserFrames L d k₀.mem.entry) (n : Nat) (hal : a % PGSIZE = 0)
    (hlo : lo ≤ a) (hn : a + n * PGSIZE ≤ KERNBASE) (h : UserFrames L d k.mem.entry) (hfreed : Freed d lo a k₀ k) :
    ∃ k', (visitAll L d n a).run k = .ok ((), k') ∧ Freed d lo (a + n * PGSIZE) k₀ k' := by
  induction n generalizing a k with
  | zero =>
    rw [Nat.zero_mul, Nat.add_zero]
    exact ⟨k, rfl, hfreed⟩
  | succ n ih =>
    have hsum : a + (n + 1) * PGSIZE = a + PGSIZE + n * PGSIZE := by
      rw [Nat.succ_mul]
      omega
    rw [hsum] at hn ⊢
    have ha : a < KERNBASE := by
      unfold PGSIZE at *
      omega
    have hal' : (a + PGSIZE) % PGSIZE = 0 := by
      unfold PGSIZE at *
      omega
    have hlo' : lo ≤ a + PGSIZE := le_trans hlo (Nat.le_add_right a PGSIZE)
    have hnext := hfreed.pte_next ha
    rw [visitAll_succ]
    by_cases hp : present (pteAt k₀.mem.entry d a)
    · obtain ⟨k', hrun, h', hfree, hpte, hdir, hbyte⟩ := visit_present h ha (hnext ▸ hp)
      rw [hrun]
      rw [hnext] at hfree hbyte
      exact ih hal' hlo' hn h' (hfreed.present hal ha hlo h₀ hp hfree hpte hdir hbyte)
    · have hrun := visit_absent (L := L) (hnext ▸ hp)
      rw [hrun]
      exact ih hal' hlo' hn h (hfreed.absent hal ha hp)

end Effect

/-- The pages from `PGROUNDUP(newsz)` on that start below `oldsz`. -/
theorem PGROUNDUP_pages {oldsz newsz : Nat} (hlt : newsz < oldsz) (hsz : oldsz ≤ KERNBASE) :
    PGROUNDUP newsz + pagesIn (PGROUNDUP newsz) oldsz * PGSIZE = PGROUNDUP oldsz := by
  unfold pagesIn PGROUNDUP PGSIZE WORD KERNBASE at *
  omega

theorem deallocuvm_freed {L : Layout} {d oldsz newsz : Nat} {k : Kmem} (h : UserFrames L d k.mem.entry)
    (hlt : newsz < oldsz) (hsz : oldsz ≤ KERNBASE) :
    ∃ k', (visitAll L d (pagesIn (PGROUNDUP newsz) oldsz) (PGROUNDUP newsz)).run k = .ok ((), k') ∧
      (deallocuvm L d oldsz newsz).run k = .ok (newsz, k') ∧ Freed d (PGROUNDUP newsz) (PGROUNDUP oldsz) k k' := by
  have hend := PGROUNDUP_pages hlt hsz
  obtain ⟨k', hvisit, hfreed⟩ := visitAll_freed h _ (PGROUNDUP_mod newsz) le_rfl
    (by rw [hend]; exact (PGROUNDUP_le hsz).1) h (.start d (PGROUNDUP newsz) k)
  rw [hend] at hfreed
  refine ⟨k', hvisit, ?_, hfreed⟩
  rw [deallocuvm, if_neg (Nat.not_le.mpr hlt), StateT.run_bind, deallocLoop_eq hsz _ (PGROUNDUP_mod newsz) le_rfl k, hvisit]
  rfl

/-- `deallocuvm` ends, does what a visit of every page below `oldsz` does, and frees exactly the pages present. -/
theorem deallocuvm_exact (L : Layout) {d oldsz newsz : Nat} {k : Kmem} (h : UserFrames L d k.mem.entry)
    (hlt : newsz < oldsz) (hsz : oldsz ≤ KERNBASE) :
    ∃ k', Returns (fun fuel => deallocuvmFor fuel L d oldsz newsz k) (.ok (newsz, k')) ∧
      (visitAll L d (pagesIn (PGROUNDUP newsz) oldsz) (PGROUNDUP newsz)).run k = .ok ((), k') ∧
      Freed d (PGROUNDUP newsz) (PGROUNDUP oldsz) k k' := by
  obtain ⟨k', hvisit, -, hfreed⟩ := deallocuvm_freed h hlt hsz
  refine ⟨k', ⟨pagesIn (PGROUNDUP newsz) oldsz + 1, fun fuel hfuel => ?_⟩, hvisit, hfreed⟩
  have hmod := PGROUNDUP_mod newsz
  have hfor := deallocFor_eq (L := L) (d := d) hsz _ hmod le_rfl k (Nat.lt_of_succ_le hfuel)
  show (if newsz ≥ oldsz then _ else (deallocFor L d oldsz fuel (PGROUNDUP newsz) k).map _) = _
  rw [if_neg (Nat.not_le.mpr hlt), hfor, deallocLoop_eq hsz _ hmod le_rfl k, hvisit]
  rfl

/-- A directory at `0x200000` with one page table and, at address `0x3000`, one user page. -/
def sparse : Kmem where
  mem := ⟨fun t i => if t = 0x200000 ∧ i = 0 then 0x201007 else if t = 0x201000 ∧ i = 3 then 0x202007 else 0, fun _ => 0⟩
  freelist := []
  deny := []

theorem pteAt_sparse (va : Nat) :
    pteAt sparse.mem.entry 0x200000 va = if PDX va = 0 ∧ PTX va = 3 then 0x202007 else 0 := by
  by_cases hd : PDX va = 0
  · have hdir : sparse.mem.entry 0x200000 (PDX va) = 0x201007 := by
      rw [hd]
      rfl
    rw [pteAt_table (by rw [hdir]; decide), hdir]
    by_cases ht : PTX va = 3
    · rw [if_pos ⟨hd, ht⟩, ht]
      rfl
    · have hzero : sparse.mem.entry 0x201000 (PTX va) = 0 := if_neg fun h => ht h.2
      rw [if_neg fun h => ht h.2]
      exact hzero
  · have hdir : sparse.mem.entry 0x200000 (PDX va) = 0 :=
      (if_neg fun h => hd h.2).trans (if_neg fun h => absurd h.1 (by decide))
    rw [pteAt_noTable (by rw [hdir]; decide), if_neg fun h => hd h.1]

theorem userFrames_sparse : UserFrames sampleLayout 0x200000 sparse.mem.entry := by
  have hdir : ∀ i, present (sparse.mem.entry 0x200000 i) → i = 0 ∧ PTE_ADDR (sparse.mem.entry 0x200000 i) = 0x201000 := by
    intro i hp
    by_cases hi : i = 0
    · rw [hi]
      exact ⟨rfl, by decide⟩
    · have hzero : sparse.mem.entry 0x200000 i = 0 :=
        (if_neg fun h => hi h.2).trans (if_neg fun h => absurd h.1 (by decide))
      rw [hzero] at hp
      exact absurd hp not_present_zero
  have hpage : ∀ va, present (pteAt sparse.mem.entry 0x200000 va) → (PDX va = 0 ∧ PTX va = 3) ∧
      PTE_ADDR (pteAt sparse.mem.entry 0x200000 va) = 0x202000 := by
    intro va hp
    rw [pteAt_sparse] at hp ⊢
    split at hp
    case isTrue h =>
      rw [if_pos h]
      exact ⟨h, by decide⟩
    case isFalse => exact absurd hp not_present_zero
  refine ⟨⟨?_, ?_⟩, ?_, ?_, ?_⟩
  · intro i _ hp
    rw [(hdir i hp).2]
    decide
  · intro i _ i' _ hp hp' hne
    exact absurd ((hdir i' hp').1.trans (hdir i hp).1.symm) hne
  · intro va _ hp
    rw [(hpage va hp).2]
    exact ⟨by decide, by decide, by decide⟩
  · intro va _ va' _ hp hp' hne
    obtain ⟨⟨h1, h2⟩, -⟩ := hpage va hp
    obtain ⟨⟨h1', h2'⟩, -⟩ := hpage va' hp'
    exact absurd ⟨h1'.trans h1.symm, h2'.trans h2.symm⟩ hne
  · intro va _ hp
    rw [(hpage va hp).2]
    refine ⟨by decide, fun i _ hpi => ?_⟩
    rw [(hdir i hpi).2]
    decide

/-- From 8 MB down to one page: the skip passes the second page table, which is missing. -/
theorem deallocuvm_exact_sparse : ∃ k',
    Returns (fun fuel => deallocuvmFor fuel sampleLayout 0x200000 0x800000 0x1000 sparse) (.ok (0x1000, k')) ∧
      (visitAll sampleLayout 0x200000 (pagesIn (PGROUNDUP 0x1000) 0x800000) (PGROUNDUP 0x1000)).run sparse =
        .ok ((), k') ∧
      Freed 0x200000 (PGROUNDUP 0x1000) (PGROUNDUP 0x800000) sparse k' :=
  deallocuvm_exact sampleLayout userFrames_sparse (by decide) (by decide)

end Chameleon.Vm
