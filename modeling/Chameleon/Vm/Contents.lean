import Chameleon.Vm.Exec
import Chameleon.Vm.View

/-! What `kalloc`, `mappages`, `deallocuvm` and `allocuvm` do to what an address space shows.
`R` is everything else in the system, with what it holds. -/

namespace Chameleon.Vm
open Region Hoare

section
variable {L : Layout} {T : Multiset Nat} {R : Region Nat Page} {S : View} {d : Nat} {E : String → Prop}

/-- What is owned after `kalloc` has returned `r`. -/
def Took (T : Multiset Nat) (A : Region Nat Page) : Option Nat → Kmem → Prop
  | none => Owns T A
  | some f => Owns T (single f + A)

theorem kalloc_owns {A : Region Nat Page} (P : Mem → Prop) :
    Triple E (fun k => Owns T A k ∧ P k.mem) kalloc fun r k => Took T A r k ∧ P k.mem := by
  intro k hk
  rcases kalloc_run k with ⟨ds, hrun⟩ | ⟨r, rs, hfree, hrun⟩
  · rw [hrun]
    exact hk
  · rw [hrun]
    have hk' : Balanced T A (pages k.mem) (r ::ₘ (rs : Multiset Nat)) := by
      rw [Multiset.cons_coe, ← hfree]
      exact hk.1
    exact ⟨hk'.take, hk.2⟩

theorem kalloc_took {A : Region Nat Page} : Triple E (Owns T A) kalloc (Took T A) :=
  (kalloc_owns fun _ => True).conseq (fun _ h => ⟨h, trivial⟩) fun _ _ h => h.1

variable (hT : T.Nodup) (hF : ∀ f ∈ T, IsFrame L f)

include hF in
theorem isFrame_of_owned {v : Nat} {A : Region Nat Page} {k : Kmem} (hk : Owns T A k)
    (hv : v ∈ A.cells (pages k.mem)) : IsFrame L v := hF v (hk.mem_total hv)

include hT in
/-- Whatever happens to a page on its way to the free list. -/
theorem balanced_freed {A : Region Nat Page} {v : Nat} {s s' : Nat → Page} {free : Multiset Nat}
    (h : Balanced T (single v + A) s free) (hs : ∀ q, q ≠ v → s' q = s q) : Balanced T A s' (v ::ₘ free) := by
  have hex : Balanced T (single v + A) s' free :=
    h.exchange hT (fun q hq => hs q fun eq => hq (Multiset.mem_singleton.mpr eq)) rfl id
  exact hex.give

include hT hF

theorem kfree_owns {v : Nat} : Triple E (Owns T (single v + R)) (kfree L v) fun _ => Owns T R := by
  intro k hk
  have hv := isFrame_of_owned hF hk (Multiset.mem_add.mpr (.inl (Multiset.mem_singleton_self v)))
  rw [kfree_run hv]
  exact balanced_freed hT hk fun q hq => pages_fill_of_ne k.mem 1 hv.1 hq

theorem fill_owns {pg : Nat} (c : UInt8) {k : Kmem} (hk : Owns T (single pg + R) k) :
    Owns T (holding pg (fun _ => c) + R) (k.setMem (·.fill pg c)) := by
  have hpg := (isFrame_of_owned hF hk (Multiset.mem_add.mpr (.inl (Multiset.mem_singleton_self pg)))).1
  exact holding_write hT hk (fun q hq => pages_fill_of_ne k.mem c hpg hq) fun o ho => pages_fill_self k.mem c hpg ho

omit hF in
theorem Owns.forget {pg : Nat} {c : Nat → UInt8} {k : Kmem} (hk : Owns T (holding pg c + R) k) :
    Owns T (single pg + R) k := hk.exchange hT (fun _ _ => rfl) rfl fun _ => trivial

omit hT hF in
theorem pte_of_walk {k : Kmem} (hk : Owns T (view d S + R) k) {a : Nat} (hp : present (k.mem.entry d (PDX a))) :
    k.mem.entry (PTE_ADDR (k.mem.entry d (PDX a))) (PTX a) = S.pte a :=
  (pteAt_table hp).symm.trans (congrFun hk.sound.1.pte a)

/-- A new page table changes nothing about what is shown. -/
theorem walkpgdirAlloc_view (a : Nat) : Triple E (Owns T (view d S + R)) (walkpgdirAlloc d a)
    fun r k => Owns T (view d S + R) k ∧ ∀ t i, r = some (t, i) → walkpgdir k.mem d a = some (t, i) := by
  refine Triple.read fun k hk => ?_
  cases hw : walkpgdir k.mem d a with
  | some e =>
    refine Triple.ret ?_
    rintro _ rfl
    exact ⟨hk, fun t i h => hw.trans h⟩
  | none =>
    have habs := walkpgdir_eq_none hw
    refine Triple.bind ((kalloc_owns (T := T) (A := view d S + R) (· = k.mem)).pre ?_) fun r => ?_
    · rintro _ rfl
      exact ⟨hk, rfl⟩
    cases r with
    | none => exact Triple.ret fun k' hk' => ⟨hk'.1, fun t i h => nomatch h⟩
    | some t =>
      refine Triple.upd (fun k' => Owns T (view d S + R) k' ∧ walkpgdir k'.mem d a = some (t, PTX a)) ?_
        (Triple.ret ?_)
      · rintro k' ⟨hk', hm⟩
        have ht := (isFrame_of_owned hF hk' (Multiset.mem_add.mpr (.inl (Multiset.mem_singleton_self t)))).1
        obtain ⟨hpres, haddr⟩ := tableEntry ht
        constructor
        · refine view_link hT (a := a) hk' ?_ hpres haddr rfl fun q hq => ?_
          · rw [entriesOf_pages, hm]
            exact habs
          · rw [Kmem.setMem_mem, pages_setEntry_snd, pages_fill_of_ne k'.mem 0 ht hq]
        · have hdir : ((k'.mem.fill t 0).setEntry d (PDX a) (t ||| PTE_P ||| PTE_W ||| PTE_U)).entry d (PDX a) =
              t ||| PTE_P ||| PTE_W ||| PTE_U := by
            rw [Mem.setEntry_entry, setE_self, Function.update_self]
          rw [Kmem.setMem_mem, walkpgdir, hdir, if_pos hpres, haddr]
      · rintro k' ⟨hk', hwalk⟩
        exact ⟨hk', fun t' i h => hwalk.trans h⟩

/-! ### Mapping -/

/-- `mappage` at a user address, which panics if there is a page already. -/
theorem mappage_view {pg perm a : Nat} {c : Nat → UInt8} (ha : a < KERNBASE) (hperm : perm < PGSIZE)
    (hremap : present (S.pte a) → E "remap") :
    Triple E (Owns T (holding pg c + (view d S + R))) (mappage d perm a pg)
      fun ok => Owns T (if ok then view d (S.map a (pg ||| perm ||| PTE_P) c) + R
        else holding pg c + (view d S + R)) := by
  have hwalk := walkpgdirAlloc_view (E := E) hT hF (R := holding pg c + R) (S := S) (d := d) a
  rw [add_left_comm] at hwalk
  refine hwalk.bind fun r => ?_
  cases r with
  | none => exact Triple.ret fun k hk => hk.1
  | some ti =>
    refine Triple.read fun k hk => ?_
    obtain ⟨hp, ht, hi⟩ := walkpgdir_eq_some (hk.2 ti.1 ti.2 rfl)
    have hk' : Owns T (view d S + (holding pg c + R)) k := by
      rw [add_left_comm]
      exact hk.1
    rw [ht, hi, pte_of_walk hk' hp]
    refine Triple.ite (fun h => Triple.fail (hremap h)) fun habs => ?_
    have hpg := (isFrame_of_owned hF hk.1 (Multiset.mem_add.mpr (.inl (Multiset.mem_singleton_self pg)))).1
    refine Triple.upd (Owns T (view d (S.map a (pg ||| perm ||| PTE_P) c) + R)) ?_ (Triple.ret fun _ h => h)
    rintro _ rfl
    exact view_map hT hk.1 ha hp habs (present_or_P _) (PTE_ADDR_entry hpg hperm) rfl fun q => rfl

theorem mappages_view {pg perm a : Nat} {c : Nat → UInt8} (hal : a % PGSIZE = 0) (ha : a < KERNBASE)
    (hperm : perm < PGSIZE) (hremap : present (S.pte a) → E "remap") :
    Triple E (Owns T (holding pg c + (view d S + R))) (mappages d a PGSIZE pg perm)
      fun r => Owns T (if r < 0 then holding pg c + (view d S + R)
        else view d (S.map a (pg ||| perm ||| PTE_P) c) + R) := by
  rw [mappages_one hal ha]
  refine (mappage_view hT hF ha hperm hremap).bind fun ok => ?_
  cases ok with
  | true => exact Triple.ret fun _ h => h
  | false => exact Triple.ret fun _ h => h

theorem mappage_kernel_view {pa perm a : Nat} (ha : KERNBASE ≤ a) (hlt : a < WORD) (hpa : pa % PGSIZE = 0)
    (hperm : perm < PGSIZE) (hu : ¬ user (perm ||| PTE_P)) (hremap : present (S.pte a) → E "remap") :
    Triple E (Owns T (view d S + R)) (mappage d perm a pa)
      fun ok => Owns T (view d (if ok then S.setPte a (pa ||| perm ||| PTE_P) else S) + R) := by
  refine (walkpgdirAlloc_view hT hF a).bind fun r => ?_
  cases r with
  | none => exact Triple.ret fun k hk => hk.1
  | some ti =>
    refine Triple.read fun k hk => ?_
    obtain ⟨hp, ht, hi⟩ := walkpgdir_eq_some (hk.2 ti.1 ti.2 rfl)
    rw [ht, hi, pte_of_walk hk.1 hp]
    refine Triple.ite (fun h => Triple.fail (hremap h)) fun _ => ?_
    refine Triple.upd (Owns T (view d (S.setPte a (pa ||| perm ||| PTE_P)) + R)) ?_ (Triple.ret fun _ h => h)
    rintro _ rfl
    refine view_kernel hT hk.1 ha hlt hp ?_ rfl fun q => rfl
    rw [user_entry hpa hperm]
    exact hu

/-! ### Freeing -/

omit hT hF in
/-- Two views that differ between `lo` and `hi` only. -/
def AgreeOff (lo hi : Nat) (S S' : View) : Prop :=
  ∀ va < WORD, ¬ (lo ≤ va ∧ va < hi) → S'.pte va = S.pte va ∧ S'.byte va = S.byte va

omit hT hF in
theorem AgreeOff.mono {lo a hi : Nat} {S S' : View} (h : AgreeOff lo a S S') (hle : a ≤ hi) : AgreeOff lo hi S S' :=
  fun va hva hout => h va hva fun hin => hout ⟨hin.1, lt_of_lt_of_le hin.2 hle⟩

/-- `S'` is `S` with nothing mapped between `lo` and `b`, where it differs below `hi` only. -/
structure Dropped (lo b hi : Nat) (S S' : View) : Prop where
  off : AgreeOff lo hi S S'
  gone : ∀ va, lo ≤ va → va < b → ¬ present (S'.pte va)

omit hT hF in
theorem samePage_page {a va : Nat} (hal : a % PGSIZE = 0) (ha : a < KERNBASE) (hva : va < WORD) :
    SamePage va a ↔ a ≤ va ∧ va < a + PGSIZE := by
  rw [samePage_iff hva (lt_trans ha (by decide))]
  unfold PGSIZE at *
  omega

omit hT hF in
theorem Dropped.unmap {lo a hi : Nat} {S S' : View} (h : Dropped lo a hi S S') (hal : a % PGSIZE = 0) (hlo : lo ≤ a)
    (hhi : a + PGSIZE ≤ hi) (hk : hi ≤ KERNBASE) : Dropped lo (a + PGSIZE) hi S (S'.setPte a 0) := by
  have ha : a < KERNBASE := by unfold PGSIZE at *; omega
  refine ⟨fun va hva hout => ?_, fun va h1 h2 => ?_⟩
  · have hne : ¬ SamePage va a := by
      rw [samePage_page hal ha hva]
      exact fun hin => hout ⟨le_trans hlo hin.1, lt_of_lt_of_le hin.2 hhi⟩
    show (if _ then _ else _) = _ ∧ _
    rw [if_neg hne]
    exact h.off va hva hout
  · have hva : va < WORD := by unfold KERNBASE PGSIZE WORD at *; omega
    show ¬ present (if _ then _ else _)
    by_cases hsame : SamePage va a
    · rw [if_pos hsame]
      exact not_present_zero
    · rw [if_neg hsame]
      rw [samePage_page hal ha hva] at hsame
      exact h.gone va h1 (by omega)

omit hT hF in
/-- A page that is not mapped needs no unmapping. -/
theorem Dropped.skip {lo a b hi : Nat} {S S' : View} (h : Dropped lo a hi S S')
    (habs : ∀ va, a ≤ va → va < b → ¬ present (S'.pte va)) : Dropped lo b hi S S' := by
  refine ⟨h.off, fun va h1 h2 => ?_⟩
  rcases Nat.lt_or_ge va a with hlt | hge
  · exact h.gone va h1 hlt
  · exact habs va hge h2

/-- What one turn of the loop of `deallocuvm` does to a mapped page. -/
theorem dealloc_page_view {k : Kmem} (hk : Owns T (view d S + R) k) {a : Nat} (ha : a < KERNBASE)
    (hpte : present (S.pte a)) {t v : Nat} (ht : t = PTE_ADDR (k.mem.entry d (PDX a))) (hv : v = PTE_ADDR (S.pte a)) :
    Triple E (fun k' => k' = k)
      (do
        kfree L v
        modify fun k' : Kmem => k'.setMem (·.setEntry t (PTX a) 0))
      fun _ => Owns T (view d (S.setPte a 0) + R) := by
  -- first the entry goes, then the page it pointed to
  have hun : Balanced _ _ (pages (k.mem.setEntry t (PTX a) 0)) _ :=
    view_unmap hT hk ha hpte (by rw [ht]; rfl) fun q => rfl
  rw [← hv] at hun
  have hframe := hF v (hun.mem_total (Multiset.mem_add.mpr (.inl (Multiset.mem_singleton_self v))))
  have hp : present (k.mem.entry d (PDX a)) := by
    refine table_of_pteAt (d := d) ?_
    rw [show pteAt k.mem.entry d a = S.pte a from congrFun hk.sound.1.pte a]
    exact hpte
  have hvt : v ≠ t := by
    have hn : (spaceCells k.mem.entry d).Nodup := (Multiset.nodup_add.mp (hk.nodup_cells hT)).1
    have hdisj := (Multiset.nodup_add.mp (hun.nodup_cells hT)).2.2
    intro heq
    refine Multiset.singleton_disjoint.mp hdisj (Multiset.mem_add.mpr (.inl ?_))
    have htab := mem_spaceCells_table (e := setE k.mem.entry t (PTX a) 0) (d := d) (PDX_lt a)
    rw [ht, setE_dir hn (PDX_lt a) hp] at htab
    rw [heq, ht]
    exact htab hp
  intro k' hk'
  subst hk'
  rw [StateT.run_bind, kfree_run hframe]
  show Balanced T _ (pages ((k'.mem.fill v 1).setEntry t (PTX a) 0)) (v ::ₘ (k'.freelist : Multiset Nat))
  refine balanced_freed hT hun fun q hq => Prod.ext ?_ ?_
  · show setE (Function.update k'.mem.entry v _) t (PTX a) 0 q = setE k'.mem.entry t (PTX a) 0 q
    rw [setE_update_comm hvt, Function.update_of_ne hq]
  · rw [pages_setEntry_snd, pages_setEntry_snd, pages_fill_of_ne _ 1 hframe.1 hq]

/-- The loop of `deallocuvm` from page `a` on. -/
theorem deallocLoop_view {oldsz lo hi : Nat} (hsz : oldsz ≤ hi) (hhi : hi ≤ KERNBASE) (hal : hi % PGSIZE = 0)
    (hsmall : hi < oldsz + PGSIZE) (n : Nat) {a : Nat} (ha : a % PGSIZE = 0) (hlo : lo ≤ a)
    (hn : oldsz ≤ a + n * PGSIZE) {S' : View} (hS' : Dropped lo a hi S S') :
    Triple E (Owns T (view d S' + R)) (deallocLoop L d oldsz n a)
      fun _ k => ∃ S', Dropped lo hi hi S S' ∧ Owns T (view d S' + R) k := by
  have hdone : ∀ {a S'}, a % PGSIZE = 0 → oldsz ≤ a → Dropped lo a hi S S' → Dropped lo hi hi S S' := by
    intro a S' hal' hle h
    refine ⟨h.off, fun va h1 h2 => h.gone va h1 ?_⟩
    unfold PGSIZE at *
    omega
  induction n generalizing a S' with
  | zero => exact Triple.ret fun k hk => ⟨S', hdone ha (by omega) hS', hk⟩
  | succ n ih =>
    rw [Nat.succ_mul, ← Nat.add_assoc] at hn
    refine Triple.ite (fun hlt => ?_) fun hge => Triple.ret fun k hk => ⟨S', hdone ha (by omega) hS', hk⟩
    have hnext : (a + PGSIZE) % PGSIZE = 0 := by unfold PGSIZE at *; omega
    have hfit : a + PGSIZE ≤ hi := by unfold PGSIZE at *; omega
    have hlt' : a < KERNBASE := by omega
    refine Triple.read fun k hk => ?_
    cases hw : walkpgdir k.mem d a with
    | none =>
      -- no page table: nothing is mapped up to the next multiple of 4 MB
      have habs := walkpgdir_eq_none hw
      rw [PGADDR_next ha hlt']
      refine (ih ?_ ?_ ?_ (hS'.skip fun va h1 h2 => ?_)).pre ?_
      · unfold PGSIZE; omega
      · omega
      · unfold PGSIZE at *; omega
      · have hsame : PDX va = PDX a := by unfold PDX; omega
        rw [← hk.sound.1.pte, entriesOf_pages, pteAt_noTable (by rw [hsame]; exact habs)]
        exact not_present_zero
      · rintro _ rfl
        exact hk
    | some ti =>
      obtain ⟨hp, ht, hi'⟩ := walkpgdir_eq_some hw
      have hpte := pte_of_walk hk hp
      simp only [ht, hi', hpte]
      refine Triple.ite (fun hpres => ?_) fun hpres => ?_
      · have hframe := isFrame_of_owned hF hk (Multiset.mem_add.mpr (.inl (hk.sound.1.mem_cells hlt' hpres)))
        have hpos : EXTMEM < L.endp := lt_of_lt_of_le L.extmem_lt_data L.data_le_endp
        refine Triple.ite (fun hzero => ?_) fun _ => ?_
        · have hle := hframe.2.1
          rw [hzero] at hle
          exact absurd (lt_of_lt_of_le hpos hle) (by decide)
        · have hturn := dealloc_page_view (E := E) hT hF hk hlt' hpres rfl rfl
          have hrest := hturn.bind fun _ => ih hnext (by omega) (by omega) (hS'.unmap ha hlo hfit hhi)
          rw [bind_assoc] at hrest
          exact hrest
      · refine (ih hnext (by omega) (by omega) (hS'.skip fun va h1 h2 => ?_)).pre ?_
        · have hva : va < WORD := by unfold KERNBASE PGSIZE WORD at *; omega
          rw [← hk.sound.1.pte, pteAt_of_samePage ((samePage_page ha hlt' hva).mpr ⟨h1, h2⟩), hk.sound.1.pte]
          exact hpres
        · rintro _ rfl
          exact hk

theorem deallocuvm_view {oldsz newsz : Nat} (hnew : newsz < oldsz) (hsz : oldsz ≤ KERNBASE) :
    Triple E (Owns T (view d S + R)) (deallocuvm L d oldsz newsz)
      fun r k => r = newsz ∧ ∃ S', Dropped (PGROUNDUP newsz) (PGROUNDUP oldsz) (PGROUNDUP oldsz) S S' ∧
        Owns T (view d S' + R) k := by
  have hup := PGROUNDUP_le hsz
  refine Triple.ite (fun hge => absurd hnew (Nat.not_lt.mpr hge)) fun _ => ?_
  have hstart : Dropped (PGROUNDUP newsz) (PGROUNDUP newsz) (PGROUNDUP oldsz) S S :=
    ⟨fun _ _ _ => ⟨rfl, rfl⟩, fun va h1 h2 => absurd h2 (Nat.not_lt.mpr h1)⟩
  refine (deallocLoop_view hT hF hup.2 hup.1 (PGROUNDUP_mod oldsz) (PGROUNDUP_lt hsz) _ (PGROUNDUP_mod newsz) le_rfl
    (le_pagesIn _ _) hstart).bind fun _ => ?_
  exact Triple.ret fun k hk => ⟨rfl, hk⟩

theorem freeTables_owns (n : Nat) {i : Nat} (hi : i + n = NPDENTRIES) :
    Triple E (Owns T (lift (tablesFrom d i) + R)) (freeTables L d n i) fun _ => Owns T (single d + R) := by
  induction n generalizing i with
  | zero =>
    obtain rfl : i = NPDENTRIES := hi
    refine Triple.ret fun k hk => hk.exchange hT (fun _ _ => rfl) ?_ fun _ => trivial
    exact dirTables_end.symm
  | succ n ih =>
    refine Triple.read fun k hk => ?_
    have hcells := dirTables_succ (d := d) (e := k.mem.entry) (i := i) (by omega)
    refine Triple.ite (fun hp => ?_) fun hp => (ih (by omega)).pre ?_
    · rw [pageOf_present hp] at hcells
      refine ((kfree_owns hT hF (R := lift (tablesFrom d (i + 1)) + R)).pre ?_).bind fun _ => ih (by omega)
      rintro _ rfl
      unfold Owns
      rw [← add_assoc]
      exact hk.exchange hT (fun _ _ => rfl) hcells.symm fun _ => ⟨trivial, trivial⟩
    · rw [pageOf_absent hp, zero_add] at hcells
      rintro _ rfl
      exact hk.exchange hT (fun _ _ => rfl) hcells.symm id

/-- `freevm` leaves everything else as it was, with what it holds. -/
theorem freevm_owns : Triple E (Owns T (view d S + R)) (freevm L d) fun _ => Owns T R := by
  refine (deallocuvm_view hT hF (by decide) le_rfl).bind fun _ => Triple.assume fun _ =>
    Triple.exists_pre fun S' => Triple.assume fun hdrop => ?_
  refine ((freeTables_owns hT hF NPDENTRIES (i := 0) (Nat.zero_add _)).pre fun k hk => ?_).bind fun _ =>
    kfree_owns hT hF
  have hnone : ∀ va < KERNBASE, mapped k.mem.entry d va = false := by
    intro va hva
    have hpte : pteAt k.mem.entry d va = S'.pte va := congrFun hk.sound.1.pte va
    rw [mapped_eq, hpte]
    exact Bool.eq_false_iff.mpr (hdrop.gone va (Nat.zero_le va) hva)
  exact hk.exchange hT (fun _ _ => rfl) (spaceCells_unmapped hnone).symm fun _ => trivial

/-! ### Growing -/

omit hT hF in
/-- `S'` is `S` with zeroed user pages between `lo` and `hi`. -/
structure Grown (lo hi : Nat) (S S' : View) : Prop where
  off : AgreeOff lo hi S S'
  new : ∀ va, lo ≤ va → va < hi → present (S'.pte va) ∧ PTE_FLAGS (S'.pte va) = (PTE_W ||| PTE_U ||| PTE_P) ∧
    S'.byte va = 0

omit hT hF in
theorem Grown.map {lo a : Nat} {S S' : View} (h : Grown lo a S S') (hal : a % PGSIZE = 0) (ha : a < KERNBASE)
    (hlo : lo ≤ a) {pg : Nat} (hpg : pg % PGSIZE = 0) :
    Grown lo (a + PGSIZE) S (S'.map a (pg ||| (PTE_W ||| PTE_U) ||| PTE_P) fun _ => 0) := by
  refine ⟨fun va hva hout => ?_, fun va h1 h2 => ?_⟩
  · have hne : ¬ SamePage va a := by
      rw [samePage_page hal ha hva]
      exact fun hin => hout ⟨le_trans hlo hin.1, hin.2⟩
    show (if _ then _ else _) = _ ∧ (if _ then _ else _) = _
    rw [if_neg hne, if_neg hne]
    exact h.off va hva fun hin => hout ⟨hin.1, lt_of_lt_of_le hin.2 (Nat.le_add_right _ _)⟩
  · have hva : va < WORD := by unfold KERNBASE PGSIZE WORD at *; omega
    show present (if _ then _ else _) ∧ PTE_FLAGS (if _ then _ else _) = _ ∧ (if _ then _ else _) = _
    by_cases hsame : SamePage va a
    · rw [if_pos hsame, if_pos hsame]
      exact ⟨present_or_P _, PTE_FLAGS_entry hpg (by decide), rfl⟩
    · rw [if_neg hsame, if_neg hsame]
      rw [samePage_page hal ha hva] at hsame
      exact h.new va h1 (by omega)

omit hT hF in
/-- Dropping what has been added so far. -/
theorem Grown.dropped {lo a hi : Nat} {S S' S'' : View} (h : Grown lo a S S') (hle : a ≤ hi)
    (h' : Dropped lo hi hi S' S'') : Dropped lo hi hi S S'' := by
  refine ⟨fun va hva hout => ?_, h'.gone⟩
  have hout' : ¬ (lo ≤ va ∧ va < a) := fun hin => hout ⟨hin.1, lt_of_lt_of_le hin.2 hle⟩
  exact ⟨(h'.off va hva hout).1.trans (h.off va hva hout').1, (h'.off va hva hout).2.trans (h.off va hva hout').2⟩

/-- What `allocuvm` has done when it returns `r`. -/
def Alloced (T : Multiset Nat) (R : Region Nat Page) (d oldsz newsz : Nat) (S : View) (r : Nat) (k : Kmem) : Prop :=
  ∃ S', Owns T (view d S' + R) k ∧ (r = newsz ∧ Grown (PGROUNDUP oldsz) (PGROUNDUP newsz) S S' ∨
    r = 0 ∧ Dropped (PGROUNDUP oldsz) (PGROUNDUP newsz) (PGROUNDUP newsz) S S')

omit hT hF in
/-- The watch `w` passes where the address space shows a view in `p`. -/
def Passes (T : Multiset Nat) (d : Nat) (w : Kern Unit) (p : View → Prop) : Prop :=
  ∀ S R k, p S → Owns T (view d S + R) k → w.run k = .ok ((), k)

omit hT hF in
theorem Passes.next {β : Type} {w : Kern Unit} {p : View → Prop} {P : Kmem → Prop} {y : Kern β} {Q : β → Kmem → Prop}
    {R : Region Nat Page} (hw : Passes T d w p) (hp : p S) (hP : ∀ k, P k → Owns T (view d S + R) k)
    (hy : Triple E P y Q) : Triple E P (w >>= fun _ => y) Q := by
  intro k hk
  rw [run_bind_of_ok (hw S R k hp (hP k hk))]
  exact hy k hk

theorem allocLoop_view {w : Kern Unit} {oldsz newsz : Nat} (hnew : newsz < KERNBASE)
    (hw : Passes T d w (AgreeOff (PGROUNDUP oldsz) (PGROUNDUP newsz) S))
    (hremap : ∀ va, PGROUNDUP oldsz ≤ va → va < PGROUNDUP newsz → present (S.pte va) → E "remap") (n : Nat) {a : Nat}
    (hal : a % PGSIZE = 0) (hlo : PGROUNDUP oldsz ≤ a) (hold : oldsz ≤ a) (hn : a + n * PGSIZE = PGROUNDUP newsz)
    {S' : View} (hS' : Grown (PGROUNDUP oldsz) a S S') :
    Triple E (Owns T (view d S' + R)) (Watched.allocLoop w L d oldsz newsz n a) (Alloced T R d oldsz newsz S) := by
  have hup := PGROUNDUP_lt hnew.le
  induction n generalizing a S' with
  | zero =>
    rw [Nat.zero_mul, Nat.add_zero] at hn
    subst hn
    exact Triple.ret fun k hk => ⟨S', hk, .inl ⟨rfl, hS'⟩⟩
  | succ n ih =>
    rw [Nat.succ_mul, ← Nat.add_assoc] at hn
    have hle : a + PGSIZE ≤ PGROUNDUP newsz := by
      rw [← hn]
      exact Nat.add_le_add_right (Nat.le_add_right a _) PGSIZE
    have hlt : a < newsz := by unfold PGSIZE at *; omega
    -- Both ways to fail call `deallocuvm(pgdir, newsz, oldsz)`, which drops all that was added.
    have hdealloc : ∀ {R : Region Nat Page}, Triple E (Owns T (view d S' + R)) (deallocuvm L d newsz oldsz)
        fun _ k => ∃ S', Dropped (PGROUNDUP oldsz) (PGROUNDUP newsz) (PGROUNDUP newsz) S S' ∧
          Owns T (view d S' + R) k :=
      (deallocuvm_view hT hF (lt_of_le_of_lt hold hlt) hnew.le).post fun r k hk => by
        obtain ⟨-, S'', hdrop, hk⟩ := hk
        exact ⟨S'', hS'.dropped (by omega) hdrop, hk⟩
    refine kalloc_took.bind fun r => ?_
    cases r with
    | none =>
      refine hdealloc.bind fun _ => Triple.exists_pre fun S'' => Triple.assume fun hdrop => ?_
      exact hw.next hdrop.off (fun _ h => h) (Triple.ret fun k hk => ⟨S'', hk, .inr ⟨rfl, hdrop⟩⟩)
    | some mem =>
      have hremap' : present (S'.pte a) → E "remap" := by
        rw [(hS'.off a (by unfold WORD KERNBASE at *; omega) (by omega)).1]
        exact hremap a hlo (by unfold PGSIZE at *; omega)
      refine Triple.given (fun k hk => (isFrame_of_owned hF hk
        (Multiset.mem_add.mpr (.inl (Multiset.mem_singleton_self mem)))).1) fun hmem => ?_
      have hoff : AgreeOff (PGROUNDUP oldsz) (PGROUNDUP newsz) S S' := hS'.off.mono (by omega)
      refine Triple.upd _ (fun k hk => fill_owns hT hF 0 hk) (hw.next hoff (fun k hk => by rwa [add_left_comm] at hk) ?_)
      refine (mappages_view hT hF hal (lt_trans hlt hnew) (by decide) hremap').bind fun r => ?_
      by_cases hr : r < 0
      · rw [if_pos hr, if_pos hr, add_left_comm]
        refine hw.next hoff (fun _ h => h) (hdealloc.bind fun _ => Triple.exists_pre fun S'' => Triple.assume fun hdrop => ?_)
        refine hw.next hdrop.off (fun _ h => h) (((kfree_owns hT hF (R := view d S'' + R)).pre fun k hk => ?_).bind fun _ =>
          hw.next hdrop.off (fun _ h => h) (Triple.ret fun k hk => ⟨S'', hk, .inr ⟨rfl, hdrop⟩⟩))
        rw [add_left_comm] at hk
        exact hk.forget hT
      · rw [if_neg hr, if_neg hr]
        have hnext := hS'.map hal (lt_trans hlt hnew) hlo hmem
        exact hw.next (hnext.off.mono hle) (fun _ h => h)
          (ih (by unfold PGSIZE at *; omega) (by omega) (by omega) (by omega) hnext)

theorem allocuvm_watched {w : Kern Unit} {oldsz newsz : Nat} (hle : oldsz ≤ newsz) (hnew : newsz < KERNBASE)
    (hw : Passes T d w (AgreeOff (PGROUNDUP oldsz) (PGROUNDUP newsz) S))
    (hremap : ∀ va, PGROUNDUP oldsz ≤ va → va < PGROUNDUP newsz → present (S.pte va) → E "remap") :
    Triple E (Owns T (view d S + R)) (Watched.allocuvm w L d oldsz newsz) (Alloced T R d oldsz newsz S) := by
  refine Triple.ite (fun hge => absurd hnew (Nat.not_lt.mpr hge)) fun _ => ?_
  refine Triple.ite (fun hlt => absurd hlt (Nat.not_lt.mpr hle)) fun _ => ?_
  refine allocLoop_view hT hF hnew hw hremap _ (PGROUNDUP_mod oldsz) le_rfl
    (PGROUNDUP_le (le_trans hle hnew.le)).2 (PGROUNDUP_grow hle hnew) ⟨fun _ _ _ => ⟨rfl, rfl⟩, fun va h1 h2 => ?_⟩
  exact absurd h2 (Nat.not_lt.mpr h1)

theorem allocuvm_view {oldsz newsz : Nat} (hle : oldsz ≤ newsz) (hnew : newsz < KERNBASE)
    (hremap : ∀ va, PGROUNDUP oldsz ≤ va → va < PGROUNDUP newsz → present (S.pte va) → E "remap") :
    Triple E (Owns T (view d S + R)) (allocuvm L d oldsz newsz) (Alloced T R d oldsz newsz S) := by
  rw [← Watched.allocuvm_unwatched]
  exact allocuvm_watched hT hF hle hnew (fun _ _ _ _ _ => rfl) hremap

/-! ### The kernel half -/

omit hT hF in
def Kmap.size (e : Kmap) : Nat := (e.phys_end + WORD - e.phys_start) % WORD

/-- A row of whole pages at kernel addresses, without `PTE_U`. -/
structure Kmap.Ok (e : Kmap) : Prop where
  virt : e.virt % PGSIZE = 0
  kernel : KERNBASE ≤ e.virt
  phys : e.phys_start % PGSIZE = 0
  perm : e.perm < PGSIZE
  noUser : ¬ user (e.perm ||| PTE_P)
  pos : 0 < e.size
  whole : e.size % PGSIZE = 0
  last : e.virt + e.size ≤ WORD

/-- Rows in the order of their addresses, from `a` on. -/
def Rising : Nat → List Kmap → Prop
  | _, [] => True
  | a, e :: es => a ≤ e.virt ∧ Rising (e.virt + e.size) es

omit hT hF in
/-- The table `kmap`, for `V2P(data)`. -/
def kmapAt (data : Nat) : List Kmap :=
  [⟨KERNBASE, 0, EXTMEM, PTE_W⟩,
   ⟨KERNLINK, EXTMEM, data, 0⟩,
   ⟨data + KERNBASE, data, PHYSTOP, PTE_W⟩,
   ⟨DEVSPACE, DEVSPACE, 0, PTE_W⟩]

section Rows
omit hT hF
variable {data : Nat} (hdata : data % PGSIZE = 0) (hlo : EXTMEM < data) (hhi : data < PHYSTOP)
include hdata hlo hhi

theorem kmapAt_ok : ∀ e ∈ kmapAt data, e.Ok := by
  simp only [kmapAt, List.forall_mem_cons, List.not_mem_nil, false_imp_iff, implies_true, and_true]
  refine ⟨⟨by decide, by decide, by decide, by decide, by decide, by decide, by decide, by decide⟩,
    ⟨(by decide : KERNLINK % PGSIZE = 0), (by decide : KERNBASE ≤ KERNLINK), (by decide : EXTMEM % PGSIZE = 0),
      (by decide : 0 < PGSIZE), (by decide : ¬ user (0 ||| PTE_P)), ?_, ?_, ?_⟩,
    ⟨?_, ?_, hdata, (by decide : PTE_W < PGSIZE), (by decide : ¬ user (PTE_W ||| PTE_P)), ?_, ?_, ?_⟩,
    ⟨by decide, by decide, by decide, by decide, by decide, by decide, by decide, by decide⟩⟩ <;>
  (simp only [Kmap.size, PGSIZE, WORD, KERNBASE, KERNLINK, EXTMEM, PHYSTOP] at *; omega)

theorem kmapAt_rising : Rising KERNBASE (kmapAt data) := by
  refine ⟨le_rfl, ?_, ?_, ?_, trivial⟩ <;>
  (simp only [Kmap.size, PGSIZE, WORD, KERNBASE, KERNLINK, EXTMEM, PHYSTOP, DEVSPACE] at *; omega)

end Rows

omit hT hF in
theorem data_lt_PHYSTOP (L : Layout) : L.data < PHYSTOP :=
  lt_of_le_of_lt (le_trans L.data_le_endp L.endp_le) (by decide)

omit hT hF in
theorem kmap_ok (L : Layout) : ∀ e ∈ kmap L, e.Ok := kmapAt_ok L.data_aligned L.extmem_lt_data (data_lt_PHYSTOP L)

omit hT hF in
theorem kmap_rising (L : Layout) : Rising KERNBASE (kmap L) :=
  kmapAt_rising L.data_aligned L.extmem_lt_data (data_lt_PHYSTOP L)

omit hT hF in
/-- One row is one run of the loop of `mappages`. -/
theorem mappages_row {e : Kmap} (he : e.Ok) : ∃ n, e.virt + n * PGSIZE < WORD ∧
    e.virt + n * PGSIZE + PGSIZE = e.virt + e.size ∧
    mappages d e.virt ((e.phys_end + WORD - e.phys_start) % WORD) e.phys_start e.perm =
      mapLoop d e.perm n e.virt e.phys_start := by
  obtain ⟨n, hn, hlast, hnext⟩ : ∃ n, (PGROUNDDOWN ((e.virt + e.size + WORD - 1) % WORD) + WORD - e.virt) %
      WORD / PGSIZE = n ∧ e.virt + n * PGSIZE < WORD ∧ e.virt + n * PGSIZE + PGSIZE = e.virt + e.size := by
    refine ⟨_, rfl, ?_⟩
    obtain ⟨hvirt, hkernel, -, -, -, hpos, hwhole, hlast⟩ := he
    generalize e.size = size at *
    unfold PGROUNDDOWN PGSIZE WORD KERNBASE at *
    omega
  refine ⟨n, hlast, hnext, ?_⟩
  rw [mappages, PGROUNDDOWN_of_aligned he.virt, ← hn]
  rfl

omit hT hF in
/-- The entry `setupkvm` makes for address `va`, in a row of `kmap`. -/
def Kmap.pte (e : Kmap) (va : Nat) : Nat :=
  (e.phys_start + (PGROUNDDOWN va - e.virt)) % WORD ||| e.perm ||| PTE_P

omit hT hF in
def Kmap.covers (e : Kmap) (va : Nat) : Bool := decide (e.virt ≤ va ∧ va < e.virt + e.size)

omit hT hF in
/-- The mapping that the rows of `kmap` describe. -/
def rowsPte (rows : List Kmap) (va : Nat) : Nat := ((rows.find? (·.covers va)).map (·.pte va)).getD 0

omit hT hF in
def kvmPte (L : Layout) (va : Nat) : Nat := rowsPte (kmap L) va

omit hT hF in
/-- `S'` is `S` with the entries `f` between `a` and `b`. -/
structure Entered (a b : Nat) (f : Nat → Nat) (S S' : View) : Prop where
  byte : S'.byte = S.byte
  pte : ∀ va < WORD, S'.pte va = if a ≤ va ∧ va < b then f va else S.pte va

omit hT hF in
theorem samePage_range {a va : Nat} (hal : a % PGSIZE = 0) (ha : a < WORD) (hva : va < WORD) :
    SamePage va a ↔ a ≤ va ∧ va < a + PGSIZE := by
  rw [samePage_iff hva ha]
  unfold PGSIZE at *
  omega

omit hT hF in
/-- A range and the page behind it. -/
theorem ite_range_page {a b : Nat} {f g h : Nat → Nat} (hg : ∀ va < WORD, g va = if a ≤ va ∧ va < b then f va else h va)
    (hle : a ≤ b) (hal : b % PGSIZE = 0) (hb : b < WORD) (hf : ∀ va, b ≤ va → va < b + PGSIZE → f va = f b) {va : Nat}
    (hva : va < WORD) :
    (if SamePage va b then f b else g va) = if a ≤ va ∧ va < b + PGSIZE then f va else h va := by
  rw [hg va hva]
  by_cases hsame : SamePage va b
  · have hin := (samePage_range hal hb hva).mp hsame
    rw [if_pos hsame, if_pos ⟨le_trans hle hin.1, hin.2⟩, hf va hin.1 hin.2]
  · have hout := mt (samePage_range hal hb hva).mpr hsame
    rw [if_neg hsame]
    by_cases hold : a ≤ va ∧ va < b
    · rw [if_pos hold, if_pos ⟨hold.1, by omega⟩]
    · rw [if_neg hold, if_neg (by omega)]

omit hT hF in
theorem Entered.setPte {a b : Nat} {f : Nat → Nat} {S S' : View} (h : Entered a b f S S') (hle : a ≤ b)
    (hal : b % PGSIZE = 0) (hb : b < WORD) (hf : ∀ va, b ≤ va → va < b + PGSIZE → f va = f b) :
    Entered a (b + PGSIZE) f S (S'.setPte b (f b)) :=
  ⟨h.byte, fun _ hva => ite_range_page h.pte hle hal hb hf hva⟩

omit hT hF in
/-- The loop of `mappages` at kernel addresses below `hi`, for any invariant that its turns keep: `P a pa`
holds when page `a` comes next, `Q` when a page could not be mapped. -/
theorem mapLoop_rule (perm : Nat) {hi : Nat} {P : Nat → Nat → Kmem → Prop} {Q : Kmem → Prop} (hhi : hi ≤ WORD)
    (hpage : ∀ a pa, KERNBASE ≤ a → a + PGSIZE ≤ hi → a % PGSIZE = 0 → pa % PGSIZE = 0 →
      Triple E (P a pa) (mappage d perm a pa) fun ok => if ok then P (a + PGSIZE) ((pa + PGSIZE) % WORD) else Q)
    (n : Nat) {a pa : Nat} (ha : KERNBASE ≤ a) (hlast : a + n * PGSIZE + PGSIZE = hi) (hal : a % PGSIZE = 0)
    (hpa : pa % PGSIZE = 0) :
    Triple E (P a pa) (mapLoop d perm n a pa) fun r => if r < 0 then Q else fun k => ∃ pa, P hi pa k := by
  induction n generalizing a pa with
  | zero =>
    rw [Nat.zero_mul, Nat.add_zero] at hlast
    refine (hpage a pa ha hlast.le hal hpa).bind fun ok => ?_
    cases ok with
    | true => exact Triple.ret fun _ h => ⟨_, hlast ▸ h⟩
    | false => exact Triple.ret fun _ h => h
  | succ n ih =>
    rw [Nat.succ_mul] at hlast
    refine (hpage a pa ha (by omega) hal hpa).bind fun ok => ?_
    cases ok with
    | false => exact Triple.ret fun _ h => h
    | true =>
      have hnext : (a + PGSIZE) % WORD = a + PGSIZE := Nat.mod_eq_of_lt (by unfold PGSIZE at *; omega)
      rw [if_pos rfl, hnext]
      refine ih (by omega) (by omega) ?_ ?_
      · unfold PGSIZE at *
        omega
      · unfold PGSIZE WORD at *
        omega

theorem mapLoop_view {e : Kmap} (he : e.Ok) {n : Nat} (hn : e.virt + n * PGSIZE + PGSIZE = e.virt + e.size)
    (hphys : e.phys_start < WORD) (habs : ∀ va, e.virt ≤ va → va < e.virt + e.size → ¬ present (S.pte va)) :
    Triple E (Owns T (view d S + R)) (mapLoop d e.perm n e.virt e.phys_start) fun r k => ∃ S', Owns T (view d S' + R) k ∧
      (0 ≤ r → Entered e.virt (e.virt + e.size) e.pte S S') := by
  refine (mapLoop_rule e.perm (Q := fun k => ∃ S', Owns T (view d S' + R) k) (P := fun b pa k => ∃ S', Owns T (view d S' + R) k ∧
      Entered e.virt b e.pte S S' ∧ e.virt ≤ b ∧ pa = (e.phys_start + (b - e.virt)) % WORD) he.last
    (fun b pa hb hfit hal hpaal => ?_) n he.kernel hn he.virt he.phys).conseq (fun k hk => ⟨S, hk, ?_, le_rfl, ?_⟩)
      fun r k hk => ?_
  · refine Triple.exists_pre fun S' => Triple.given (fun k hk => hk.2) fun ⟨hent, hle, hpa⟩ => ?_
    have hlt : b < WORD := lt_of_lt_of_le (by unfold PGSIZE at *; omega) he.last
    have hpte : S'.pte b = S.pte b := by rw [hent.pte b hlt, if_neg (by omega)]
    have hentry : pa ||| e.perm ||| PTE_P = e.pte b := by
      rw [Kmap.pte, PGROUNDDOWN_of_aligned hal, hpa]
    refine (mappage_kernel_view hT hF hb hlt hpaal he.perm he.noUser fun h =>
      absurd (hpte ▸ h) (habs b hle (by unfold PGSIZE at *; omega))).conseq (fun k hk => hk.1) fun ok k hk => ?_
    cases ok with
    | false => exact ⟨_, hk⟩
    | true =>
      refine ⟨_, hk, ?_, by omega, ?_⟩
      · rw [if_pos rfl, hentry]
        refine hent.setPte hle hal hlt fun va h1 h2 => ?_
        have hdown : PGROUNDDOWN va = PGROUNDDOWN b := by
          unfold PGROUNDDOWN PGSIZE at *
          omega
        rw [Kmap.pte, Kmap.pte, hdown]
      · rw [hpa]
        unfold PGSIZE WORD at *
        omega
  · exact ⟨rfl, fun va _ => by rw [if_neg (by omega)]⟩
  · rw [Nat.sub_self, Nat.add_zero, Nat.mod_eq_of_lt hphys]
  · by_cases hr : r < 0
    · rw [if_pos hr] at hk
      exact hk.imp fun _ hk => ⟨hk, fun h => absurd hr (Int.not_lt.mpr h)⟩
    · rw [if_neg hr] at hk
      obtain ⟨-, S', hk, hent, -, -⟩ := hk
      exact ⟨S', hk, fun _ => hent⟩

omit hT hF in
theorem rowsPte_cons_covered {e : Kmap} {es : List Kmap} {va : Nat} (h : e.virt ≤ va ∧ va < e.virt + e.size) :
    rowsPte (e :: es) va = e.pte va := by
  have hcov : e.covers va = true := decide_eq_true h
  unfold rowsPte
  rw [List.find?_cons_of_pos (p := fun x : Kmap => x.covers va) hcov]
  rfl

omit hT hF in
theorem rowsPte_cons_uncovered {e : Kmap} {es : List Kmap} {va : Nat} (h : ¬ (e.virt ≤ va ∧ va < e.virt + e.size)) :
    rowsPte (e :: es) va = rowsPte es va := by
  have hcov : ¬ e.covers va = true := decide_eq_true_iff.not.mpr h
  unfold rowsPte
  rw [List.find?_cons_of_neg (p := fun x : Kmap => x.covers va) hcov]

omit hT hF in
/-- Below the rows nothing is mapped. -/
theorem rowsPte_below {rows : List Kmap} {a va : Nat} (hrise : Rising a rows) (hva : va < a) : rowsPte rows va = 0 := by
  induction rows generalizing a with
  | nil => rfl
  | cons e es ih =>
    have hbelow : va < e.virt := lt_of_lt_of_le hva hrise.1
    rw [rowsPte_cons_uncovered fun h => absurd h.1 (Nat.not_le.mpr hbelow)]
    exact ih hrise.2 (by omega)

omit hT hF in
/-- The entries of the first row and then those of the others. -/
theorem rowsPte_cons {e : Kmap} {es : List Kmap} {a va : Nat} {f g h : Nat → Nat} (hle : a ≤ e.virt)
    (hrise : Rising (e.virt + e.size) es) (hzero : ∀ va, a ≤ va → va < WORD → f va = 0)
    (hfirst : ∀ va < WORD, g va = if e.virt ≤ va ∧ va < e.virt + e.size then e.pte va else f va)
    (hrest : ∀ va < WORD, h va = if e.virt + e.size ≤ va then rowsPte es va else g va) (hva : va < WORD) :
    h va = if a ≤ va then rowsPte (e :: es) va else f va := by
  rw [hrest va hva, hfirst va hva]
  by_cases hcov : e.virt ≤ va ∧ va < e.virt + e.size
  · rw [if_neg (by omega), if_pos hcov, if_pos (by omega), rowsPte_cons_covered hcov]
  · rw [if_neg hcov, rowsPte_cons_uncovered hcov]
    by_cases hhigh : e.virt + e.size ≤ va
    · rw [if_pos hhigh, if_pos (by omega)]
    · rw [if_neg hhigh]
      split
      case isTrue h =>
        rw [rowsPte_below hrise (by omega)]
        exact hzero va h hva
      case isFalse => rfl

theorem mapRows_view (rows : List Kmap) {a : Nat} (hrise : Rising a rows) (hrows : ∀ e ∈ rows, e.Ok)
    (hphys : ∀ e ∈ rows, e.phys_start < WORD) (hzero : ∀ va, a ≤ va → va < WORD → S.pte va = 0) :
    Triple E (Owns T (view d S + R)) (mapRows d rows) fun r k => ∃ S', Owns T (view d S' + R) k ∧
      (0 ≤ r → ∀ va < WORD, S'.pte va = if a ≤ va then rowsPte rows va else S.pte va) := by
  induction rows generalizing a S with
  | nil =>
    refine Triple.ret fun k hk => ⟨S, hk, fun _ va hva => ?_⟩
    split
    case isTrue h => exact hzero va h hva
    case isFalse => rfl
  | cons e es ih =>
    have he := hrows e List.mem_cons_self
    obtain ⟨n, -, hnext, hmap⟩ := mappages_row (d := d) he
    have hrow := mapLoop_view (E := E) (R := R) (d := d) hT hF he hnext (hphys e List.mem_cons_self) fun va h1 h2 => by
      rw [hzero va (le_trans hrise.1 h1) (lt_of_lt_of_le h2 he.last)]
      exact not_present_zero
    rw [mapRows, hmap]
    refine hrow.bind fun r => Triple.exists_pre fun S₁ => Triple.ite (fun hr => ?_) fun hr => ?_
    · exact Triple.ret fun k hk => ⟨S₁, hk.1, fun h => absurd h (by decide)⟩
    · refine Triple.given (fun k hk => hk.2 (Int.not_lt.mp hr)) fun hent => ?_
      have hzero₁ : ∀ va, e.virt + e.size ≤ va → va < WORD → S₁.pte va = 0 := by
        intro va h1 h2
        rw [hent.pte va h2, if_neg (by omega)]
        exact hzero va (le_trans hrise.1 (by omega)) h2
      refine ((ih hrise.2 (fun e' he' => hrows e' (List.mem_cons_of_mem _ he'))
        (fun e' he' => hphys e' (List.mem_cons_of_mem _ he')) hzero₁).pre fun k hk => hk.1).post fun r k hk => ?_
      obtain ⟨S₂, hk, hpte⟩ := hk
      exact ⟨S₂, hk, fun h0 va hva => rowsPte_cons hrise.1 hrise.2 hzero hent.pte (hpte h0) hva⟩

omit hT hF in
theorem kmapAt_phys {data : Nat} (hdata : data < PHYSTOP) : ∀ e ∈ kmapAt data, e.phys_start < WORD := by
  simp only [kmapAt, List.forall_mem_cons, List.not_mem_nil, false_imp_iff, implies_true, and_true]
  exact ⟨by decide, by decide, lt_trans hdata (by decide), by decide⟩

omit hT hF in
theorem kmap_phys (L : Layout) : ∀ e ∈ kmap L, e.phys_start < WORD := kmapAt_phys (data_lt_PHYSTOP L)

/-- What `setupkvm` returns: an address space that shows the rows of `kmap` and nothing else. -/
theorem setupkvm_view : Triple E (Owns T R) (setupkvm L) fun r k => match r with
    | none => Owns T R k
    | some d => ∃ S, Owns T (view d S + R) k ∧ ∀ va < WORD, S.pte va = kvmPte L va := by
  refine kalloc_took.bind fun r => ?_
  cases r with
  | none => exact Triple.ret fun _ h => h
  | some d =>
    refine Triple.upd (Owns T (view d ⟨fun _ => 0, fun _ => 0⟩ + R)) (fun k hk => ?_) ?_
    · have hd := (isFrame_of_owned hF hk (Multiset.mem_add.mpr (.inl (Multiset.mem_singleton_self d)))).1
      refine view_new (S := ⟨fun _ => 0, fun _ => 0⟩) hT hk (fun q hq => pages_fill_of_ne k.mem 0 hd hq) ?_
      exact Function.update_self _ _ _
    refine Triple.ite (fun h => absurd h (by decide)) fun _ => ?_
    refine (mapRows_view hT hF (kmap L) (kmap_rising L) (kmap_ok L) (kmap_phys L) fun _ _ _ => rfl).bind fun r =>
      Triple.exists_pre fun S => Triple.ite (fun hr => ?_) fun hr => ?_
    · exact ((freevm_owns hT hF).pre fun k hk => hk.1).bind fun _ => Triple.ret fun _ h => h
    · refine Triple.ret fun k hk => ⟨S, hk.1, fun va hva => ?_⟩
      rw [hk.2 (Int.not_lt.mp hr) va hva]
      split
      case isTrue => rfl
      case isFalse h => exact (rowsPte_below (kmap_rising L) (Nat.not_le.mp h)).symm

end
end Chameleon.Vm
