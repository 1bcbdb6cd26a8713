import Chameleon.Lib.While
import Chameleon.Vm.Boot

/-! The translation that `mappages` defines, for every page directory, and what follows for the page directories that
`setupkvm` builds. -/

namespace Chameleon.Vm
open Hoare Region

/-- The loop of `mappages` as the code has it. It ends after the page `last`, or is still running after `fuel` turns. -/
def mapFor (pgdir perm last : Nat) : Nat → Nat → Nat → Kmem → Option (Except String (Int × Kmem))
  | 0, _, _, _ => none
  | fuel + 1, a, pa, k =>
    match (mappage pgdir perm a pa).run k with
    | .error e => some (.error e)
    | .ok (false, k) => some (.ok (-1, k))
    | .ok (true, k) =>
      if a = last then some (.ok (0, k))
      else mapFor pgdir perm last fuel ((a + PGSIZE) % WORD) ((pa + PGSIZE) % WORD) k

def mappagesFor (fuel pgdir va size pa perm : Nat) (k : Kmem) : Option (Except String (Int × Kmem)) :=
  mapFor pgdir perm (PGROUNDDOWN ((va + size + WORD - 1) % WORD)) fuel (PGROUNDDOWN va) pa k

/-- A page directory whose page tables are pages of their own, and an allocator that holds none of them. -/
structure Directory (d : Nat) (k : Kmem) : Prop where
  tables : Tabled k.mem.entry d
  fresh : ∀ f ∈ k.freelist, f ≠ d ∧ ∀ i < NPDENTRIES, present (k.mem.entry d i) → PTE_ADDR (k.mem.entry d i) ≠ f
  nodup : k.freelist.Nodup
  aligned : ∀ f ∈ k.freelist, f % PGSIZE = 0

/-- The entry for the page of `va`, when the page `first` is to be at `pa`. -/
def targetPte (first pa perm va : Nat) : Nat := (pa + (PGROUNDDOWN va - first)) % WORD ||| perm ||| PTE_P

/-- The pages from `first` below `b` have been mapped. -/
structure MappedTo (d first b pa perm : Nat) (k k' : Kmem) : Prop where
  dir : Directory d k'
  pte : ∀ va < WORD, pteAt k'.mem.entry d va =
    if first ≤ va ∧ va < b then targetPte first pa perm va else pteAt k.mem.entry d va

/-- What has happened when `mappages` is done with the pages from `first` to `last`. -/
inductive Maps (d first last pa perm : Nat) (k : Kmem) : Except String (Int × Kmem) → Prop
  | done {k' : Kmem}
      (new : ∀ a, first ≤ a → a ≤ last → a % PGSIZE = 0 → ∃ t i, walkpgdir k'.mem d a = some (t, i) ∧
        k'.mem.entry t i = (pa + (a - first)) % WORD ||| perm ||| PTE_P ∧
        (perm < PGSIZE → PTE_ADDR (k'.mem.entry t i) = (pa + (a - first)) % WORD ∧
          PTE_FLAGS (k'.mem.entry t i) = perm ||| PTE_P))
      (same : ∀ va < WORD, ¬ (first ≤ va ∧ va < last + PGSIZE) → pteAt k'.mem.entry d va = pteAt k.mem.entry d va) :
      Maps d first last pa perm k (.ok (0, k'))
  | noTable {k₁ k' : Kmem} (a : Nat) (hfirst : first ≤ a) (hlast : a ≤ last)
      (hmapped : MappedTo d first a pa perm k k₁) (hwalk : walkpgdir k₁.mem d a = none)
      (hkalloc : kalloc.run k₁ = .ok (none, k')) : Maps d first last pa perm k (.ok (-1, k'))
  | remap (a : Nat) (hfirst : first ≤ a) (hlast : a ≤ last) (hpresent : present (pteAt k.mem.entry d a)) :
      Maps d first last pa perm k (.error "remap")

section Loop
variable {d perm last : Nat}

/-- The address wraps round to `last` after as many pages as lie between, counted modulo `2 ^ 32`. -/
theorem mapFor_eq (hlast : last < WORD) (hal' : last % PGSIZE = 0) (n : Nat) {a pa : Nat} (ha : a < WORD)
    (hal : a % PGSIZE = 0) (hn : (last + WORD - a) % WORD / PGSIZE = n) (k : Kmem) {fuel : Nat} (hfuel : n < fuel) :
    mapFor d perm last fuel a pa k = some ((mapLoop d perm n a pa).run k) := by
  induction n generalizing a pa k fuel with
  | zero =>
    obtain ⟨fuel, rfl⟩ := Nat.exists_eq_succ_of_ne_zero hfuel.ne'
    have hend : a = last := by
      unfold WORD PGSIZE at *
      omega
    rw [mapFor, mapLoop, StateT.run_bind]
    cases (mappage d perm a pa).run k with
    | error e => rfl
    | ok r =>
      obtain ⟨ok, k'⟩ := r
      cases ok with
      | false => rfl
      | true => exact if_pos hend
  | succ n ih =>
    obtain ⟨fuel, rfl⟩ := Nat.exists_eq_succ_of_ne_zero (Nat.ne_zero_of_lt hfuel)
    have hgo : a ≠ last := by
      unfold WORD PGSIZE at *
      omega
    rw [mapFor, mapLoop, StateT.run_bind]
    cases (mappage d perm a pa).run k with
    | error e => rfl
    | ok r =>
      obtain ⟨ok, k'⟩ := r
      cases ok with
      | false => rfl
      | true =>
        refine (if_neg hgo).trans (ih (Nat.mod_lt _ (by decide)) ?_ ?_ k' (Nat.lt_of_succ_lt_succ hfuel))
        · unfold WORD PGSIZE at *
          omega
        · unfold WORD PGSIZE at *
          omega

theorem mappagesFor_returns {va : Nat} (hva : va < WORD) (size pa : Nat) (k : Kmem) :
    Returns (fun fuel => mappagesFor fuel d va size pa perm k) ((mappages d va size pa perm).run k) := by
  have hdown : ∀ a < WORD, PGROUNDDOWN a < WORD ∧ PGROUNDDOWN a % PGSIZE = 0 := by
    intro a ha
    unfold PGROUNDDOWN WORD PGSIZE at *
    omega
  have hlast := hdown _ (Nat.mod_lt (va + size + WORD - 1) (by decide : 0 < WORD))
  have hfirst := hdown va hva
  exact ⟨_, fun fuel hfuel => mapFor_eq hlast.1 hlast.2 _ hfirst.1 hfirst.2 rfl k (Nat.lt_of_succ_le hfuel)⟩

end Loop

/-! ### One page -/

section Page
variable {d a pa perm : Nat} {k : Kmem} {E : String → Prop}

theorem walkpgdir_table {m : Mem} (h : present (m.entry d (PDX a))) :
    walkpgdir m d a = some (PTE_ADDR (m.entry d (PDX a)), PTX a) := if_pos h

theorem walkpgdir_noTable {m : Mem} (h : ¬ present (m.entry d (PDX a))) : walkpgdir m d a = none := if_neg h

/-- The tables of a directory with a new one. -/
theorem table_of_linkE {e : Entries} {t i w j : Nat} (htd : t ≠ d) (hwt : PTE_ADDR w = t)
    (hp : present (linkE e d i t w d j)) : j = i ∧ PTE_ADDR (linkE e d i t w d j) = t ∨
      j ≠ i ∧ present (e d j) ∧ PTE_ADDR (linkE e d i t w d j) = PTE_ADDR (e d j) := by
  have hdir : linkE e d i t w d = Function.update (e d) i w := by
    rw [linkE, setE_self, Function.update_of_ne htd.symm]
  rw [hdir] at hp ⊢
  by_cases hji : j = i
  · left
    rw [hji, Function.update_self]
    exact ⟨rfl, hwt⟩
  · rw [Function.update_of_ne hji] at hp ⊢
    exact .inr ⟨hji, hp, rfl⟩

theorem tabled_linkE {e : Entries} {t i w : Nat} (he : Tabled e d) (htd : t ≠ d)
    (hfresh : ∀ i < NPDENTRIES, present (e d i) → PTE_ADDR (e d i) ≠ t) (hwt : PTE_ADDR w = t) :
    Tabled (linkE e d i t w) d := by
  constructor
  · intro j hj hp
    rcases table_of_linkE htd hwt hp with ⟨-, heq⟩ | ⟨-, hold, heq⟩
    · rw [heq]
      exact htd
    · rw [heq]
      exact he.ne_dir j hj hold
  · intro j hj j' hj' hp hp' hne
    rcases table_of_linkE htd hwt hp with ⟨hji, heq⟩ | ⟨-, hold, heq⟩
    · rcases table_of_linkE htd hwt hp' with ⟨hji', -⟩ | ⟨-, hold', heq'⟩
      · exact absurd (hji'.trans hji.symm) hne
      · rw [heq, heq']
        exact hfresh j' hj' hold'
    · rcases table_of_linkE htd hwt hp' with ⟨-, heq'⟩ | ⟨-, hold', heq'⟩
      · rw [heq, heq']
        exact (hfresh j hj hold).symm
      · rw [heq, heq']
        exact he.ne_table j hj j' hj' hold hold' hne

theorem Directory.link (hk : Directory d k) {t : Nat} {rest : List Nat} {ds : List Bool} (hfree : k.freelist = t :: rest)
    {i w : Nat} (hwt : PTE_ADDR w = t) :
    Directory d ⟨(k.mem.fill t 0).setEntry d i w, rest, ds⟩ := by
  have hmem : ∀ f ∈ rest, f ∈ k.freelist := fun f hf => hfree ▸ List.mem_cons_of_mem t hf
  obtain ⟨htd, htables⟩ := hk.fresh t (hfree ▸ List.mem_cons_self)
  have hnodup := hk.nodup
  rw [hfree, List.nodup_cons] at hnodup
  refine ⟨tabled_linkE hk.tables htd htables hwt, ?_, hnodup.2, fun f hf => hk.aligned f (hmem f hf)⟩
  intro f hf
  obtain ⟨hfd, hftables⟩ := hk.fresh f (hmem f hf)
  refine ⟨hfd, fun j hj hp => ?_⟩
  rcases table_of_linkE htd hwt hp with ⟨-, heq⟩ | ⟨-, hold, heq⟩
  · intro h
    exact hnodup.1 (heq.symm.trans h ▸ hf)
  · intro h
    exact hftables j hj hold (heq.symm.trans h)

theorem Directory.setEntry (hk : Directory d k) {i j w : Nat} (hi : i < NPDENTRIES) (hp : present (k.mem.entry d i)) :
    Directory d (k.setMem (·.setEntry (PTE_ADDR (k.mem.entry d i)) j w)) := by
  have hdir : (k.mem.setEntry (PTE_ADDR (k.mem.entry d i)) j w).entry d = k.mem.entry d :=
    setE_of_ne (hk.tables.ne_dir i hi hp).symm
  refine ⟨⟨?_, ?_⟩, ?_, hk.nodup, hk.aligned⟩
  · rw [Kmem.setMem_mem, hdir]
    exact hk.tables.ne_dir
  · rw [Kmem.setMem_mem, hdir]
    exact hk.tables.ne_table
  · rw [Kmem.setMem_mem, hdir]
    exact hk.fresh

/-- The entry of a page directory for the page table at `t`. -/
abbrev tablePde (t : Nat) : Nat := t ||| PTE_P ||| PTE_W ||| PTE_U

/-- The memory after `walkpgdir` has made the page table `t`. -/
def linkTable (k : Kmem) (d i t : Nat) (rest : List Nat) : Kmem :=
  ⟨(k.mem.fill t 0).setEntry d i (tablePde t), rest, k.deny.tail⟩

/-- `walkpgdir` with `alloc` finds the page table, makes it, or gets no page for it. -/
theorem walkpgdirAlloc_cases (d a : Nat) (k : Kmem) :
    present (k.mem.entry d (PDX a)) ∧
        (walkpgdirAlloc d a).run k = .ok (some (PTE_ADDR (k.mem.entry d (PDX a)), PTX a), k) ∨
      ¬ present (k.mem.entry d (PDX a)) ∧
        ((∃ t rest, k.freelist = t :: rest ∧
            (walkpgdirAlloc d a).run k = .ok (some (t, PTX a), linkTable k d (PDX a) t rest)) ∨
          ∃ ds, kalloc.run k = .ok (none, { k with deny := ds }) ∧
            (walkpgdirAlloc d a).run k = .ok (none, { k with deny := ds })) := by
  by_cases hp : present (k.mem.entry d (PDX a))
  · refine .inl ⟨hp, ?_⟩
    rw [walkpgdirAlloc, run_get_bind, walkpgdir_table hp]
    rfl
  · have hnone := walkpgdir_noTable hp
    refine .inr ⟨hp, ?_⟩
    rcases kalloc_run k with ⟨ds, hrun⟩ | ⟨t, rest, hfree, hrun⟩
    · refine .inr ⟨ds, hrun, ?_⟩
      rw [walkpgdirAlloc, run_get_bind, hnone]
      dsimp only
      rw [run_bind_of_ok hrun]
      rfl
    · refine .inl ⟨t, rest, hfree, ?_⟩
      rw [walkpgdirAlloc, run_get_bind, hnone]
      dsimp only
      rw [run_bind_of_ok hrun]
      rfl

theorem linkTable_walk (k : Kmem) (d i : Nat) (rest : List Nat) {t : Nat} (ht : t % PGSIZE = 0) :
    present ((linkTable k d i t rest).mem.entry d i) ∧ PTE_ADDR ((linkTable k d i t rest).mem.entry d i) = t := by
  have hdir : (linkTable k d i t rest).mem.entry d i = tablePde t := by
    show setE _ d i (tablePde t) d i = _
    rw [setE_self, Function.update_self]
  rw [hdir]
  exact tableEntry ht

/-- `walkpgdir` with `alloc` finds or makes the page table, or `kalloc` had no page for it. -/
theorem walkpgdirAlloc_exact (hk : Directory d k) : Triple E (fun k' => k' = k) (walkpgdirAlloc d a) fun r k' =>
    match r with
    | none => walkpgdir k.mem d a = none ∧ kalloc.run k = .ok (none, k')
    | some e => walkpgdir k'.mem d a = some e ∧ Directory d k' ∧ pteAt k'.mem.entry d = pteAt k.mem.entry d := by
  intro k' hk'
  subst k'
  rcases walkpgdirAlloc_cases d a k with ⟨hp, hrun⟩ | ⟨habs, ⟨t, rest, hfree, hrun⟩ | ⟨ds, hkalloc, hrun⟩⟩
  · rw [hrun]
    exact ⟨walkpgdir_table hp, hk, rfl⟩
  · rw [hrun]
    have hmem : t ∈ k.freelist := hfree ▸ List.mem_cons_self
    obtain ⟨hpres, haddr⟩ := linkTable_walk k d (PDX a) rest (hk.aligned t hmem)
    obtain ⟨htd, htables⟩ := hk.fresh t hmem
    have hpde := (tableEntry (hk.aligned t hmem)).2
    refine ⟨?_, hk.link hfree hpde, hk.tables.pteAt_linkE htd htables habs hpde⟩
    rw [walkpgdir_table hpres, haddr]
  · rw [hrun]
    exact ⟨walkpgdir_noTable habs, hkalloc⟩

theorem mappage_exact (hk : Directory d k) :
    Triple (fun e => e = "remap" ∧ present (pteAt k.mem.entry d a)) (fun k' => k' = k) (mappage d perm a pa) fun ok k' =>
      if ok then ¬ present (pteAt k.mem.entry d a) ∧ Directory d k' ∧
        ∀ va, pteAt k'.mem.entry d va = if SamePage va a then pa ||| perm ||| PTE_P else pteAt k.mem.entry d va
      else walkpgdir k.mem d a = none ∧ kalloc.run k = .ok (none, k') := by
  apply (walkpgdirAlloc_exact hk).bind
  intro r
  cases r with
  | none => exact Triple.ret fun k' h => h
  | some e =>
    obtain ⟨t, i⟩ := e
    apply Triple.read
    rintro k₁ ⟨hwalk, hk₁, hsame⟩
    obtain ⟨hp, rfl, rfl⟩ := walkpgdir_eq_some hwalk
    have hpte : k₁.mem.entry (PTE_ADDR (k₁.mem.entry d (PDX a))) (PTX a) = pteAt k.mem.entry d a := by
      rw [← hsame, pteAt_table hp]
    apply Triple.ite
    · intro hpres
      rw [hpte] at hpres
      exact Triple.fail ⟨rfl, hpres⟩
    · intro hpres
      rw [hpte] at hpres
      rintro _ rfl
      refine ⟨hpres, hk₁.setEntry (PDX_lt a) hp, fun va => ?_⟩
      rw [← hsame]
      exact hk₁.tables.pteAt_setE hp va

end Page

/-! ### A range -/

section Range
variable {d first pa perm : Nat} {k : Kmem}

theorem targetPte_page {b va : Nat} (hal : b % PGSIZE = 0) (h1 : b ≤ va) (h2 : va < b + PGSIZE) :
    targetPte first pa perm va = targetPte first pa perm b := by
  have hdown : PGROUNDDOWN va = PGROUNDDOWN b := by
    unfold PGROUNDDOWN PGSIZE at *
    omega
  rw [targetPte, targetPte, hdown]

theorem MappedTo.start (hk : Directory d k) : MappedTo d first first pa perm k k := by
  refine ⟨hk, fun va _ => ?_⟩
  rw [if_neg]
  exact fun h => absurd h.2 (Nat.not_lt.mpr h.1)

theorem MappedTo.page {b : Nat} {k₁ : Kmem} (h : MappedTo d first b pa perm k k₁) (hle : first ≤ b)
    (hal : b % PGSIZE = 0) (hb : b < WORD) :
    Triple (fun e => e = "remap" ∧ present (pteAt k.mem.entry d b)) (fun k' => k' = k₁)
      (mappage d perm b ((pa + (b - first)) % WORD)) fun ok k' =>
        if ok then MappedTo d first (b + PGSIZE) pa perm k k'
        else walkpgdir k₁.mem d b = none ∧ kalloc.run k₁ = .ok (none, k') := by
  have hold : pteAt k₁.mem.entry d b = pteAt k.mem.entry d b := by
    rw [h.pte b hb, if_neg]
    exact fun hin => absurd hin.2 (Nat.lt_irrefl b)
  have htarget : (pa + (b - first)) % WORD ||| perm ||| PTE_P = targetPte first pa perm b := by
    rw [targetPte, PGROUNDDOWN_of_aligned hal]
  have hturn : Triple _ _ (mappage d perm b ((pa + (b - first)) % WORD)) _ := mappage_exact h.dir
  rw [hold, htarget] at hturn
  apply hturn.post
  intro ok k' hok
  cases ok with
  | false => exact hok
  | true =>
    obtain ⟨-, hdir, hpte⟩ := hok
    refine ⟨hdir, fun va hva => ?_⟩
    rw [hpte va]
    exact ite_range_page h.pte hle hal hb (fun va h1 h2 => targetPte_page hal h1 h2) hva

/-- The loop from page `b` on, with `n` pages behind it. -/
theorem mapLoop_exact (n : Nat) {b : Nat} {k₁ : Kmem} (h : MappedTo d first b pa perm k k₁) (hle : first ≤ b)
    (hal : b % PGSIZE = 0) (hlast : b + n * PGSIZE < WORD) :
    Triple (fun e => e = "remap" ∧ ∃ a, first ≤ a ∧ a ≤ b + n * PGSIZE ∧ present (pteAt k.mem.entry d a))
      (fun k' => k' = k₁) (mapLoop d perm n b ((pa + (b - first)) % WORD)) fun r k' =>
        r = 0 ∧ MappedTo d first (b + n * PGSIZE + PGSIZE) pa perm k k' ∨
          r = -1 ∧ ∃ a k₂, first ≤ a ∧ a ≤ b + n * PGSIZE ∧ MappedTo d first a pa perm k k₂ ∧
            walkpgdir k₂.mem d a = none ∧ kalloc.run k₂ = .ok (none, k') := by
  induction n generalizing b k₁ with
  | zero =>
    rw [Nat.zero_mul, Nat.add_zero] at hlast ⊢
    have hpage := (h.page hle hal hlast).stops fun e he =>
      (⟨he.1, b, hle, le_rfl, he.2⟩ : e = "remap" ∧ ∃ a, first ≤ a ∧ a ≤ b ∧ present (pteAt k.mem.entry d a))
    apply hpage.bind
    intro ok
    cases ok with
    | true => exact Triple.ret fun k' hk' => .inl ⟨rfl, hk'⟩
    | false => exact Triple.ret fun k' hk' => .inr ⟨rfl, b, k₁, hle, le_rfl, h, hk'⟩
  | succ n ih =>
    have hsum : b + (n + 1) * PGSIZE = b + PGSIZE + n * PGSIZE := by
      rw [Nat.succ_mul]
      omega
    rw [hsum] at hlast ⊢
    have hb : b ≤ b + PGSIZE + n * PGSIZE := by omega
    have hpage := (h.page hle hal (lt_of_le_of_lt hb hlast)).stops fun e he =>
      (⟨he.1, b, hle, hb, he.2⟩ :
        e = "remap" ∧ ∃ a, first ≤ a ∧ a ≤ b + PGSIZE + n * PGSIZE ∧ present (pteAt k.mem.entry d a))
    apply hpage.bind
    intro ok
    cases ok with
    | false => exact Triple.ret fun k' hk' => .inr ⟨rfl, b, k₁, hle, hb, h, hk'⟩
    | true =>
      have hnext : (b + PGSIZE) % WORD = b + PGSIZE := Nat.mod_eq_of_lt (by omega)
      have hpa : ((pa + (b - first)) % WORD + PGSIZE) % WORD = (pa + (b + PGSIZE - first)) % WORD := by
        have hdist : pa + (b - first) + PGSIZE = pa + (b + PGSIZE - first) := by omega
        rw [Nat.mod_add_mod, hdist]
      rw [if_pos rfl, hnext, hpa]
      intro k' hk'
      refine ih hk' (by omega) ?_ hlast k' rfl
      unfold PGSIZE at *
      omega

/-- A mapped range in terms of the two-level walk. -/
theorem MappedTo.maps {last : Nat} {k' : Kmem} (h : MappedTo d first (last + PGSIZE) pa perm k k')
    (hpa : pa % PGSIZE = 0) (hfirst : first % PGSIZE = 0) (hlast : last < WORD) :
    Maps d first last pa perm k (.ok (0, k')) := by
  apply Maps.done
  · intro a h1 h2 hal
    have hin : first ≤ a ∧ a < last + PGSIZE := ⟨h1, by unfold PGSIZE at *; omega⟩
    have hpte := h.pte a (lt_of_le_of_lt h2 hlast)
    rw [if_pos hin, targetPte, PGROUNDDOWN_of_aligned hal] at hpte
    have hpage : (pa + (a - first)) % WORD % PGSIZE = 0 := by
      unfold WORD PGSIZE at *
      omega
    have htable : present (k'.mem.entry d (PDX a)) := by
      apply table_of_pteAt
      rw [hpte]
      exact present_or_P _
    rw [pteAt_table htable] at hpte
    refine ⟨_, _, walkpgdir_table htable, hpte, fun hperm => ?_⟩
    rw [hpte]
    exact ⟨PTE_ADDR_entry hpage hperm, PTE_FLAGS_entry hpage hperm⟩
  · intro va hva hout
    rw [h.pte va hva, if_neg hout]

/-- `mappages` is the loop from the first page on. -/
theorem mappages_exact {va size : Nat} (hk : Directory d k) (hpaw : pa < WORD) (hsize : 0 < size)
    (hwrap : va + size - 1 < WORD) :
    Triple (fun e => e = "remap" ∧ ∃ a, PGROUNDDOWN va ≤ a ∧ a ≤ PGROUNDDOWN (va + size - 1) ∧
        present (pteAt k.mem.entry d a)) (fun k' => k' = k) (mappages d va size pa perm) fun r k' =>
      r = 0 ∧ MappedTo d (PGROUNDDOWN va) (PGROUNDDOWN (va + size - 1) + PGSIZE) pa perm k k' ∨
        r = -1 ∧ ∃ a k₂, PGROUNDDOWN va ≤ a ∧ a ≤ PGROUNDDOWN (va + size - 1) ∧
          MappedTo d (PGROUNDDOWN va) a pa perm k k₂ ∧ walkpgdir k₂.mem d a = none ∧
          kalloc.run k₂ = .ok (none, k') := by
  have hmod : (va + size + WORD - 1) % WORD = va + size - 1 := by
    unfold WORD at *
    omega
  obtain ⟨n, hn, hlast, hfirst⟩ : ∃ n, (PGROUNDDOWN (va + size - 1) + WORD - PGROUNDDOWN va) % WORD / PGSIZE = n ∧
      PGROUNDDOWN va + n * PGSIZE = PGROUNDDOWN (va + size - 1) ∧ PGROUNDDOWN va % PGSIZE = 0 := by
    refine ⟨_, rfl, ?_⟩
    unfold PGROUNDDOWN WORD PGSIZE at *
    omega
  have hlt : PGROUNDDOWN (va + size - 1) < WORD := lt_of_le_of_lt (Nat.div_mul_le_self _ _) hwrap
  have hstart : (pa + (PGROUNDDOWN va - PGROUNDDOWN va)) % WORD = pa := by
    rw [Nat.sub_self, Nat.add_zero, Nat.mod_eq_of_lt hpaw]
  have hbegin : MappedTo d (PGROUNDDOWN va) (PGROUNDDOWN va) pa perm k k := .start hk
  have hloop := mapLoop_exact n hbegin le_rfl hfirst (by rw [hlast]; exact hlt)
  rw [hstart, hlast] at hloop
  rw [mappages, hmod, hn]
  exact hloop

theorem mappages_maps {va size : Nat} (hk : Directory d k) (hpa : pa % PGSIZE = 0) (hpaw : pa < WORD) (hsize : 0 < size)
    (hwrap : va + size - 1 < WORD) :
    Maps d (PGROUNDDOWN va) (PGROUNDDOWN (va + size - 1)) pa perm k ((mappages d va size pa perm).run k) := by
  have hlt : PGROUNDDOWN (va + size - 1) < WORD := lt_of_le_of_lt (Nat.div_mul_le_self _ _) hwrap
  have hexact : Triple _ _ (mappages d va size pa perm) _ := mappages_exact hk hpaw hsize hwrap
  have hend := hexact k rfl
  cases hrun : (mappages d va size pa perm).run k with
  | error e =>
    rw [hrun] at hend
    obtain ⟨rfl, a, h1, h2, hpres⟩ := hend
    exact .remap a h1 h2 hpres
  | ok r =>
    obtain ⟨r, k'⟩ := r
    rw [hrun] at hend
    rcases hend with ⟨rfl, hmapped⟩ | ⟨rfl, a, k₂, h1, h2, hmapped, hwalk, hkalloc⟩
    · exact hmapped.maps hpa (Nat.mul_mod_left _ _) hlt
    · exact .noTable a h1 h2 hmapped hwalk hkalloc

end Range

/-! ### The kernel half of every page directory -/

section Rows
variable {d : Nat}

/-- The rows of `kmap` in a directory that has nothing at their addresses yet: no page of them is there twice. -/
theorem mapRows_exact (rows : List Kmap) {a : Nat} {k : Kmem} (hk : Directory d k) (hrise : Rising a rows)
    (hrows : ∀ e ∈ rows, e.Ok) (hphys : ∀ e ∈ rows, e.phys_start < WORD)
    (hzero : ∀ va, a ≤ va → va < WORD → pteAt k.mem.entry d va = 0) :
    Triple (fun _ => False) (fun k' => k' = k) (mapRows d rows) fun r k' =>
      r = 0 ∧ Directory d k' ∧ (∀ va < WORD, pteAt k'.mem.entry d va =
        if a ≤ va then rowsPte rows va else pteAt k.mem.entry d va) ∨ r = -1 := by
  induction rows generalizing a k with
  | nil =>
    apply Triple.ret
    intro k' hk'
    subst k'
    refine .inl ⟨rfl, hk, fun va hva => ?_⟩
    split
    case isTrue h => exact hzero va h hva
    case isFalse => rfl
  | cons e es ih =>
    have he := hrows e List.mem_cons_self
    obtain ⟨n, hlast, hnext, hmap⟩ := mappages_row (d := d) he
    have hpa : (e.phys_start + (e.virt - e.virt)) % WORD = e.phys_start := by
      rw [Nat.sub_self, Nat.add_zero, Nat.mod_eq_of_lt (hphys e List.mem_cons_self)]
    have hbegin : MappedTo d e.virt e.virt e.phys_start e.perm k k := .start hk
    have hrow := mapLoop_exact n hbegin le_rfl he.virt hlast
    rw [hpa] at hrow
    have hfresh := hrow.stops fun m hm => by
      obtain ⟨-, b, h1, h2, hpres⟩ := hm
      rw [hzero b (le_trans hrise.1 h1) (lt_of_le_of_lt h2 hlast)] at hpres
      exact not_present_zero hpres
    rw [mapRows, hmap]
    apply hfresh.bind
    intro r
    apply Triple.ite
    · intro hr
      exact Triple.ret fun _ _ => .inr rfl
    · rintro hr k₁ (⟨rfl, hdir, hpte⟩ | ⟨rfl, -⟩)
      · rw [hnext] at hpte
        have hzero₁ : ∀ va, e.virt + e.size ≤ va → va < WORD → pteAt k₁.mem.entry d va = 0 := by
          intro va h1 h2
          rw [hpte va h2, if_neg fun h => absurd h.2 (Nat.not_lt.mpr h1)]
          exact hzero va (le_trans hrise.1 (le_trans (Nat.le_add_right _ _) h1)) h2
        have hrest := ih hdir hrise.2 (fun e' he' => hrows e' (List.mem_cons_of_mem _ he'))
          (fun e' he' => hphys e' (List.mem_cons_of_mem _ he')) hzero₁
        refine (hrest.post fun r k' hk' => ?_) k₁ rfl
        rcases hk' with ⟨rfl, hdir', hpte'⟩ | hfail
        · exact .inl ⟨rfl, hdir', fun va hva => rowsPte_cons hrise.1 hrise.2 hzero hpte hpte' hva⟩
        · exact .inr hfail
      · exact absurd (by decide : (-1 : Int) < 0) hr

end Rows

/-- A page directory in use, for `data` at a physical address: the rows of `kmap` were entered in an empty one, then
user pages were mapped, user entries were written, and the rest of the memory changed. -/
inductive InUse (data d : Nat) : Kmem → Prop
  | built {k k' : Kmem} (hk : Directory d k) (hempty : k.mem.entry d = fun _ => 0)
      (hrun : (mapRows d (kmapAt data)).run k = .ok (0, k')) : InUse data d k'
  | map {k k' : Kmem} {r : Int} {va size pa perm : Nat} (h : InUse data d k) (hpa : pa < WORD) (hsize : 0 < size)
      (huser : va + size ≤ KERNBASE) (hrun : (mappages d va size pa perm).run k = .ok (r, k')) : InUse data d k'
  | write {k : Kmem} {va t i w : Nat} (h : InUse data d k) (huser : va < KERNBASE)
      (hwalk : walkpgdir k.mem d va = some (t, i)) : InUse data d (k.setMem (·.setEntry t i w))
  | other {k k' : Kmem} (h : InUse data d k) (hk' : Directory d k') (hdir : k'.mem.entry d = k.mem.entry d)
      (htables : ∀ i < NPDENTRIES, present (k.mem.entry d i) →
        k'.mem.entry (PTE_ADDR (k.mem.entry d i)) = k.mem.entry (PTE_ADDR (k.mem.entry d i))) : InUse data d k'

section Agree
variable {data d : Nat} (hdata : data % PGSIZE = 0) (hlo : EXTMEM < data) (hhi : data < PHYSTOP)
include hdata hlo hhi

/-- The rows of `kmap` never meet a page that is present. -/
theorem kmapAt_exact {k : Kmem} (hk : Directory d k) (hempty : k.mem.entry d = fun _ => 0) :
    Triple (fun _ => False) (fun k' => k' = k) (mapRows d (kmapAt data)) fun r k' =>
      r = 0 ∧ Directory d k' ∧ (∀ va < WORD, pteAt k'.mem.entry d va = rowsPte (kmapAt data) va) ∨ r = -1 := by
  have hnone : ∀ va, pteAt k.mem.entry d va = 0 := by
    intro va
    apply pteAt_noTable
    rw [hempty]
    exact not_present_zero
  have hrise := kmapAt_rising hdata hlo hhi
  apply (mapRows_exact (kmapAt data) hk hrise (kmapAt_ok hdata hlo hhi) (kmapAt_phys hhi) fun va _ _ => hnone va).post
  rintro r k' (⟨rfl, hdir, hpte⟩ | hfail)
  · refine .inl ⟨rfl, hdir, fun va hva => ?_⟩
    rw [hpte va hva]
    split
    case isTrue => rfl
    case isFalse h =>
      rw [hnone va, rowsPte_below hrise (Nat.not_le.mp h)]
  · exact .inr hfail

/-- Its kernel half is the one of `kmap`. -/
theorem InUse.kernel {k : Kmem} (h : InUse data d k) : Directory d k ∧
    ∀ va, KERNBASE ≤ va → va < WORD → pteAt k.mem.entry d va = rowsPte (kmapAt data) va := by
  induction h with
  | built hk hempty hrun =>
    have hrows := kmapAt_exact hdata hlo hhi hk hempty _ rfl
    rw [hrun] at hrows
    rcases hrows with ⟨-, hdir, hpte⟩ | hfail
    · exact ⟨hdir, fun va _ hva => hpte va hva⟩
    · exact absurd hfail (by decide)
  | @map k k' r va size pa perm h hpa hsize huser hrun ih =>
    obtain ⟨hdir, hkernel⟩ := ih
    have hwrap : va + size - 1 < WORD := by
      unfold WORD KERNBASE at *
      omega
    have hexact : Triple _ _ (mappages d va size pa perm) _ := mappages_exact hdir hpa hsize hwrap
    have hend := hexact k rfl
    rw [hrun] at hend
    -- Neither a full run of `mappages` nor one that stops early goes past the last user page.
    have hbelow : ∀ {b k'}, b ≤ KERNBASE → MappedTo d (PGROUNDDOWN va) b pa perm k k' → Directory d k' ∧
        ∀ va, KERNBASE ≤ va → va < WORD → pteAt k'.mem.entry d va = rowsPte (kmapAt data) va := by
      intro b k' hb hmapped
      refine ⟨hmapped.dir, fun va h1 h2 => ?_⟩
      rw [hmapped.pte va h2, if_neg fun hin => absurd (lt_of_lt_of_le hin.2 hb) (Nat.not_lt.mpr h1)]
      exact hkernel va h1 h2
    have hlast : PGROUNDDOWN (va + size - 1) + PGSIZE ≤ KERNBASE := by
      unfold PGROUNDDOWN PGSIZE KERNBASE at *
      omega
    rcases hend with ⟨-, hmapped⟩ | ⟨-, a, k₂, -, ha, hmapped, -, hkalloc⟩
    · exact hbelow hlast hmapped
    · -- a refused `kalloc` leaves the memory as it is
      obtain ⟨hdir₂, hkernel₂⟩ := hbelow (by unfold PGSIZE at *; omega) hmapped
      rcases kalloc_run k₂ with ⟨ds, hrefused⟩ | ⟨t, rest, -, htaken⟩
      · rw [hrefused] at hkalloc
        cases hkalloc
        exact ⟨⟨hdir₂.tables, hdir₂.fresh, hdir₂.nodup, hdir₂.aligned⟩, hkernel₂⟩
      · rw [htaken] at hkalloc
        cases hkalloc
  | @write k va t i w h huser hwalk ih =>
    obtain ⟨hdir, hkernel⟩ := ih
    obtain ⟨hp, rfl, rfl⟩ := walkpgdir_eq_some hwalk
    refine ⟨hdir.setEntry (PDX_lt va) hp, fun va' h1 h2 => ?_⟩
    have hother : ¬ SamePage va' va := by
      intro hsame
      have hlow := PDX_user huser
      rw [← hsame.1] at hlow
      exact absurd hlow (Nat.not_lt.mpr (PDX_kernel h1 h2))
    refine (hdir.tables.pteAt_setE hp va').trans ?_
    rw [if_neg hother]
    exact hkernel va' h1 h2
  | @other k k' h hk' hdir htables ih =>
    refine ⟨hk', fun va h1 h2 => ?_⟩
    rw [pteAt_congr hdir htables]
    exact ih.2 va h1 h2

end Agree

/-- `mappages` ends and defines the translation it was asked for, the rows of `kmap` never make it panic, and all page
directories agree on every kernel address. -/
theorem mappages_defines :
    (∀ d va size pa perm k, Directory d k → pa % PGSIZE = 0 → pa < WORD → 0 < size → va + size - 1 < WORD →
      Returns (fun fuel => mappagesFor fuel d va size pa perm k) ((mappages d va size pa perm).run k) ∧
      Maps d (PGROUNDDOWN va) (PGROUNDDOWN (va + size - 1)) pa perm k ((mappages d va size pa perm).run k)) ∧
    ∀ data, data % PGSIZE = 0 → EXTMEM < data → data < PHYSTOP →
      (∀ d k, Directory d k → (k.mem.entry d = fun _ => 0) → ∀ e, (mapRows d (kmapAt data)).run k ≠ .error e) ∧
      ∀ d k d' k', InUse data d k → InUse data d' k' → ∀ va, KERNBASE ≤ va → va < WORD →
        pteAt k.mem.entry d va = pteAt k'.mem.entry d' va := by
  refine ⟨?_, ?_⟩
  · intro d va size pa perm k hk hpa hpaw hsize hwrap
    have hva : va < WORD := by omega
    exact ⟨mappagesFor_returns hva size pa k, mappages_maps hk hpa hpaw hsize hwrap⟩
  · intro data hdata hlo hhi
    refine ⟨?_, ?_⟩
    · intro d k hk hempty e hrun
      have hrows := kmapAt_exact hdata hlo hhi hk hempty k rfl
      rw [hrun] at hrows
      exact hrows
    · intro d k d' k' h h' va h1 h2
      rw [(h.kernel hdata hlo hhi).2 va h1 h2, (h'.kernel hdata hlo hhi).2 va h1 h2]

/-- An empty page directory at `d`, and the `n` pages behind it free. -/
def blank (d n : Nat) : Kmem := ⟨⟨fun _ _ => 0, fun _ => 0⟩, framesFrom (d + PGSIZE) n, []⟩

theorem directory_blank {d n : Nat} (hd : d % PGSIZE = 0) : Directory d (blank d n) := by
  have hbehind : ∀ f ∈ (blank d n).freelist, d < f ∧ f % PGSIZE = 0 := by
    intro f hf
    obtain ⟨i, -, rfl⟩ := mem_framesFrom.mp hf
    unfold PGSIZE at *
    omega
  refine ⟨⟨fun i _ hp => absurd hp not_present_zero, fun i _ j _ hp => absurd hp not_present_zero⟩, fun f hf => ?_,
    nodup_framesFrom _ _, fun f hf => (hbehind f hf).2⟩
  exact ⟨(hbehind f hf).1.ne', fun i _ hp => absurd hp not_present_zero⟩

/-- With enough pages, the rows of `kmap` can be entered, and then a user page at address 0. -/
theorem inUse_blank {d n : Nat} (hd : d % PGSIZE = 0) (hlo : 0x400000 ≤ d) (hn : 513 ≤ n)
    (hhi : d + n * PGSIZE < PHYSTOP) : ∃ k r k', InUse 0x108000 d k ∧
      (mappages d 0 PGSIZE 0x300000 (PTE_W ||| PTE_U)).run k = .ok (r, k') ∧ InUse 0x108000 d k' := by
  have hF : ∀ f ∈ (framesFrom d (n + 1) : Multiset Nat), IsFrame sampleLayout f := by
    intro f hf
    obtain ⟨i, hi, rfl⟩ := mem_framesFrom.mp hf
    have hi' : i * PGSIZE ≤ n * PGSIZE := Nat.mul_le_mul_right _ (Nat.lt_succ_iff.mp hi)
    refine ⟨by unfold PGSIZE at *; omega, le_trans (show _ ≤ 0x400000 by decide) (by omega), lt_of_le_of_lt (Nat.add_le_add_left hi' d) hhi⟩
  have hacct : Acct (framesFrom d (n + 1)) (space d + fixed 0) (blank d n) := by
    refine ⟨?_, kernelOnly_of_zero rfl, trivial⟩
    rw [framesFrom_succ, cells_add, cells_space, spaceCells_of_zero rfl, fixed_zero]
    rfl
  have hready : Ready d KERNBASE 1 (blank d n) := by
    refine ready_zeroed rfl rfl ?_
    rw [blank, framesFrom, List.length_map, List.length_range]
    exact hn
  obtain ⟨r, k, hrun, hr, -⟩ := (mapRows_total (Multiset.coe_nodup.mpr (nodup_framesFrom d (n + 1))) hF).ends ⟨hacct, hready⟩
  have hexact := kmapAt_exact (show 0x108000 % PGSIZE = 0 by decide) (by decide) (by decide) (directory_blank (n := n) hd) rfl _
    rfl
  rw [show (mapRows d (kmapAt 0x108000)).run (blank d n) = .ok (r, k) from hrun] at hexact
  obtain ⟨rfl, hdir, hpte⟩ := hexact.resolve_right fun h => hr (h ▸ by decide)
  have huse : InUse 0x108000 d k := .built (directory_blank hd) rfl hrun
  have hexact : Triple _ _ (mappages d 0 PGSIZE 0x300000 (PTE_W ||| PTE_U)) _ :=
    mappages_exact hdir (by decide) (by decide) (by decide)
  have hmap := hexact k rfl
  cases hrun' : (mappages d 0 PGSIZE 0x300000 (PTE_W ||| PTE_U)).run k with
  | error e =>
    rw [hrun'] at hmap
    obtain ⟨-, a, -, ha, hp⟩ := hmap
    have hlt : a < KERNBASE := lt_of_le_of_lt ha (by decide)
    rw [hpte a (lt_trans hlt (by decide)), rowsPte_below (kmapAt_rising (by decide) (by decide) (by decide)) hlt] at hp
    exact absurd hp not_present_zero
  | ok x => exact ⟨k, x.1, x.2, huse, hrun', huse.map (by decide) (by decide) (by decide) hrun'⟩

/-- The last page of the address space; and two page directories, of which one has got a user page. -/
theorem mappages_defines_top :
    (∃ k r k₁ k', (mappages 0x400000 0 PGSIZE 0x300000 (PTE_W ||| PTE_U)).run k = .ok (r, k₁) ∧
      InUse 0x108000 0x400000 k₁ ∧ InUse 0x108000 0x800000 k' ∧ ∀ va, KERNBASE ≤ va → va < WORD →
        pteAt k₁.mem.entry 0x400000 va = pteAt k'.mem.entry 0x800000 va) ∧
    Returns (fun fuel => mappagesFor fuel 0x1000 0xFFFFF000 PGSIZE 0xFFFFF000 PTE_W (blank 0x1000 1))
      ((mappages 0x1000 0xFFFFF000 PGSIZE 0xFFFFF000 PTE_W).run (blank 0x1000 1)) ∧
    Maps 0x1000 0xFFFFF000 0xFFFFF000 0xFFFFF000 PTE_W (blank 0x1000 1)
      ((mappages 0x1000 0xFFFFF000 PGSIZE 0xFFFFF000 PTE_W).run (blank 0x1000 1)) := by
  obtain ⟨k, r, k₁, -, hrun, h₁⟩ := inUse_blank (d := 0x400000) (n := 513) (by decide) le_rfl le_rfl (by decide)
  obtain ⟨k', -, -, h', -⟩ := inUse_blank (d := 0x800000) (n := 513) (by decide) (by decide) le_rfl (by decide)
  refine ⟨⟨k, r, k₁, k', hrun, h₁, h', ?_⟩, ?_⟩
  · exact (mappages_defines.2 0x108000 (by decide) (by decide) (by decide)).2 _ _ _ _ h₁ h'
  · exact mappages_defines.1 0x1000 0xFFFFF000 PGSIZE 0xFFFFF000 PTE_W _ (directory_blank rfl) (by decide) (by decide)
      (by decide) (by decide)

end Chameleon.Vm
