import Mathlib.Order.Interval.Finset.Nat
import Chameleon.Vm.Conserve

/-! Which calls of `kalloc` succeed. Mapping a page takes the page and at most one page table, so
twice as many free pages are enough. -/

namespace Chameleon.Vm
open Region Hoare

/-- Where `φ` holds, no call of `kalloc` is refused and `x` pages are free. -/
def Plenty (φ : Prop) (x : Nat) (k : Kmem) : Prop := φ → k.deny = [] ∧ x ≤ k.freelist.length

/-- With plenty of pages the result is `good`, and `x` pages are left. -/
def Succeeds {β : Type} (φ : Prop) (good : β → Prop) (x : Nat) (r : β) (k : Kmem) : Prop :=
  (φ → good r) ∧ Plenty φ x k

/-- Any message may stop the program. -/
def Ever (_ : String) : Prop := True

/-- No message may. -/
def Never (_ : String) : Prop := False

section
variable {φ : Prop} {x : Nat} {β : Type} {P : Kmem → Prop} {good : β → Prop}

theorem Plenty.mono {k : Kmem} {y : Nat} (h : Plenty φ x k) (hle : y ≤ x) : Plenty φ y k :=
  fun hφ => ⟨(h hφ).1, hle.trans (h hφ).2⟩

/-- Where `φ` fails there is nothing to show. -/
theorem failed {y : Kern β} (h : ∀ k, P k → ¬ φ) : Triple Ever P y (Succeeds φ good x) := by
  intro k hk
  cases y.run k with
  | error e => trivial
  | ok r => exact ⟨fun hφ => absurd hφ (h k hk), fun hφ => absurd hφ (h k hk)⟩

theorem kalloc_plenty : Triple Ever (Plenty φ (x + 1)) kalloc (Succeeds φ (· ≠ none) x) := by
  by_cases hφ : φ
  · rintro ⟨m, free, deny⟩ h
    obtain ⟨rfl, hlen⟩ : deny = [] ∧ x + 1 ≤ free.length := h hφ
    obtain ⟨f, rest, rfl⟩ := List.exists_cons_of_length_pos (Nat.lt_of_lt_of_le x.succ_pos hlen)
    exact ⟨fun _ => nofun, fun _ => ⟨rfl, Nat.le_of_succ_le_succ hlen⟩⟩
  · exact failed fun _ _ => hφ

theorem walkpgdirAlloc_plenty (d a : Nat) :
    Triple Ever (Plenty φ (x + 1)) (walkpgdirAlloc d a) (Succeeds φ (· ≠ none) x) := by
  refine Triple.read fun k hk => ?_
  split
  · exact Triple.ret fun k' hk' => ⟨fun _ => nofun, hk' ▸ hk.mono x.le_succ⟩
  · refine (kalloc_plenty.pre fun k' hk' => hk' ▸ hk).bind fun r => ?_
    cases r with
    | none => exact failed fun _ h hφ => h.1 hφ rfl
    | some t => exact Triple.upd (Plenty φ x) (fun _ h => h.2) (Triple.ret fun _ h => ⟨fun _ => nofun, h⟩)

theorem mappages_plenty {d a : Nat} (pa perm : Nat) (ha : a % PGSIZE = 0) (hlt : a < KERNBASE) :
    Triple Ever (Plenty φ (x + 1)) (mappages d a PGSIZE pa perm) (Succeeds φ (¬ · < 0) x) := by
  rw [mappages_one ha hlt]
  refine Triple.bind (Q := Succeeds φ (· = true) x) ?_ fun ok => ?_
  · refine (walkpgdirAlloc_plenty d a).bind fun r => ?_
    cases r with
    | none => exact failed fun _ h hφ => h.1 hφ rfl
    | some ti =>
      refine Triple.read fun k hk => Triple.ite (fun _ => Triple.fail trivial) fun _ => ?_
      refine Triple.upd (Plenty φ x) ?_ (Triple.ret fun _ h => ⟨fun _ => rfl, h⟩)
      rintro _ rfl
      exact hk.2
  · cases ok with
    | true => exact Triple.ret fun _ h => ⟨fun _ => by decide, h.2⟩
    | false => exact failed fun _ h hφ => nomatch h.1 hφ

theorem allocLoop_plenty (L : Layout) (d oldsz newsz n : Nat) {a : Nat} (ha : a % PGSIZE = 0)
    (hn : ∀ i < n, a + i * PGSIZE < KERNBASE) :
    Triple Ever (Plenty φ (2 * n + x)) (allocLoop L d oldsz newsz n a) (Succeeds φ (· = newsz) x) := by
  induction n generalizing a with
  | zero => exact Triple.ret fun _ h => ⟨fun _ => rfl, h.mono (by omega)⟩
  | succ n ih =>
    have hlt : a < KERNBASE := by simpa using hn 0 (Nat.succ_pos n)
    refine (kalloc_plenty.pre fun k hk => hk.mono (y := 2 * n + x + 1 + 1) (by omega)).bind fun r => ?_
    cases r with
    | none => exact failed fun _ h hφ => h.1 hφ rfl
    | some mem =>
      refine Triple.upd (Plenty φ (2 * n + x + 1)) (fun _ h => h.2) ((mappages_plenty mem _ ha hlt).bind fun r => ?_)
      refine Triple.ite (fun hr => failed fun _ h hφ => h.1 hφ hr) fun _ => ?_
      refine (ih (by unfold PGSIZE at *; omega) fun i hi => ?_).pre fun k hk => hk.2
      have := hn (i + 1) (Nat.succ_lt_succ hi)
      rw [Nat.succ_mul] at this
      omega

theorem allocuvm_plenty (L : Layout) (d : Nat) {oldsz newsz n : Nat} (hnew : newsz < KERNBASE)
    (hn : pagesIn (PGROUNDUP oldsz) newsz ≤ n) :
    Triple Ever (Plenty φ (2 * n + x)) (allocuvm L d oldsz newsz) (Succeeds φ (· = max oldsz newsz) x) := by
  refine Triple.ite (fun h => absurd hnew (Nat.not_lt.mpr h)) fun _ => Triple.ite (fun hlt => ?_) fun hle => ?_
  · exact Triple.ret fun k hk => ⟨fun _ => (Nat.max_eq_left hlt.le).symm, hk.mono (by omega)⟩
  · rw [Nat.max_eq_right (Nat.not_lt.mp hle)]
    refine (allocLoop_plenty L d oldsz newsz _ (PGROUNDUP_mod oldsz) fun i hi => ?_).pre fun k hk => hk.mono (by omega)
    exact lt_trans (lt_of_pagesIn hi) hnew

theorem loaduvm_plenty {file : File} (d addr : Nat) {offset sz : Nat}
    (hfull : ∀ i, (file ((offset + i) % WORD) (min (sz - i) PGSIZE)).length = min (sz - i) PGSIZE) :
    Triple Ever (Plenty φ x) (loaduvm file d addr offset sz) (Succeeds φ (0 ≤ ·) x) := by
  have hloop : ∀ n i, Triple Ever (Plenty φ x) (loadLoop file d addr offset sz n i) (Succeeds φ (0 ≤ ·) x) := by
    intro n
    induction n with
    | zero => exact fun i => Triple.ret fun _ h => ⟨fun _ => le_rfl, h⟩
    | succ n ih =>
      refine fun i => Triple.read fun k hk => ?_
      split
      · exact Triple.fail trivial
      · refine Triple.upd (Plenty φ x) ?_ (Triple.ite (fun hshort => absurd (hfull i) hshort) fun _ => ih _)
        rintro _ rfl
        exact hk
  exact Triple.ite (fun _ => Triple.fail trivial) fun _ => hloop _ _

theorem copyLoop_plenty (L : Layout) (pgdir d n : Nat) {i : Nat} (hi : i % PGSIZE = 0)
    (hn : ∀ j < n, i + j * PGSIZE < KERNBASE) :
    Triple Ever (Plenty φ (2 * n + x)) (copyLoop L pgdir d n i) (Succeeds φ (· = true) x) := by
  induction n generalizing i with
  | zero => exact Triple.ret fun _ h => ⟨fun _ => rfl, h.mono (by omega)⟩
  | succ n ih =>
    have hlt : i < KERNBASE := by simpa using hn 0 (Nat.succ_pos n)
    refine Triple.read fun k hk => ?_
    split
    · exact Triple.fail trivial
    · refine Triple.ite (fun _ => Triple.fail trivial) fun _ => ?_
      refine (kalloc_plenty.pre fun k' hk' => hk' ▸ hk.mono (y := 2 * n + x + 1 + 1) (by omega)).bind fun r => ?_
      cases r with
      | none => exact failed fun _ h hφ => h.1 hφ rfl
      | some mem =>
        refine Triple.upd (Plenty φ (2 * n + x + 1)) (fun _ h => h.2) ((mappages_plenty mem _ hi hlt).bind fun r => ?_)
        refine Triple.ite (fun hr => failed fun _ h hφ => h.1 hφ hr) fun _ => ?_
        refine (ih (by unfold PGSIZE at *; omega) fun j hj => ?_).pre fun k hk => hk.2
        have := hn (j + 1) (Nat.succ_lt_succ hj)
        rw [Nat.succ_mul] at this
        omega

end

/-! ### `setupkvm` -/

/-- The page directory entries of the kernel part that have no page table yet. -/
def missing (e : Entries) (d : Nat) : Finset Nat :=
  slots.filter fun i => NUPDENTRIES ≤ i ∧ ¬ present (e d i)

/-- The kernel part of `d` can be filled from address `a` on, leaving `x` pages. -/
structure Ready (d a x : Nat) (k : Kmem) : Prop where
  granted : k.deny = []
  noUser : ∀ i < NUPDENTRIES, ¬ present (k.mem.entry d i)
  unmapped : ∀ va, a ≤ va → va < WORD → mapped k.mem.entry d va = false
  enough : (missing k.mem.entry d).card + x ≤ k.freelist.length

theorem Ready.mono {d a b x : Nat} {k : Kmem} (h : Ready d a x k) (hab : a ≤ b) : Ready d b x k :=
  ⟨h.granted, h.noUser, fun va hva => h.unmapped va (hab.trans hva), h.enough⟩

/-- With no refusals, `kalloc` takes the first page of the free list. -/
theorem kalloc_total {A : Region Nat (Nat → Nat)} {T : Multiset Nat} {n : Nat} (P : Mem → Prop) :
    Triple Never (fun k => Acct T A k ∧ k.deny = [] ∧ n < k.freelist.length ∧ P k.mem) kalloc
      fun r k => ∃ f, r = some f ∧ Acct T (single f + A) k ∧ k.deny = [] ∧ n ≤ k.freelist.length ∧ P k.mem := by
  rintro ⟨m, free, deny⟩ ⟨hk, rfl, hlen, hP⟩
  obtain ⟨f, rest, rfl⟩ := List.exists_cons_of_length_pos (Nat.lt_of_le_of_lt (Nat.zero_le n) hlen)
  have hk' : Balanced T A m.entry (f ::ₘ (rest : Multiset Nat)) := hk
  exact ⟨f, rfl, hk'.take, rfl, Nat.lt_succ_iff.mp hlen, hP⟩

section
variable {d : Nat} {E : String → Prop}

/-- The rows of `kmap` in order, for any invariant that the mapping of one page keeps. -/
theorem mapRows_rule {P : Nat → Kmem → Prop} {Q : Kmem → Prop}
    (hpage : ∀ perm a pa, perm < PGSIZE → ¬ user (perm ||| PTE_P) → KERNBASE ≤ a → a < WORD →
      a % PGSIZE = 0 → pa % PGSIZE = 0 →
      Triple E (P a) (mappage d perm a pa) fun ok => if ok then P (a + PGSIZE) else Q)
    (hmono : ∀ a b k, a ≤ b → P a k → P b k) (rows : List Kmap) {a : Nat} (hrise : Rising a rows)
    (hrows : ∀ e ∈ rows, e.Ok) :
    Triple E (P a) (mapRows d rows) fun r => if r < 0 then Q else fun k => ∃ b, P b k := by
  induction rows generalizing a with
  | nil => exact Triple.ret fun k hk => ⟨a, hk⟩
  | cons e es ih =>
    have he := hrows e List.mem_cons_self
    obtain ⟨n, -, hnext, hmap⟩ := mappages_row (d := d) he
    have hrow := mapLoop_rule e.perm (P := fun a _ => P a) (Q := Q) he.last (fun a pa ha hfit =>
      hpage e.perm a pa he.perm he.noUser ha (lt_of_lt_of_le (Nat.lt_add_of_pos_right (by decide)) (hfit.trans he.last)))
      n he.kernel hnext he.virt he.phys
    rw [mapRows, hmap]
    refine (hrow.pre fun k hk => hmono _ _ k hrise.1 hk).bind fun r => ?_
    refine Triple.ite (fun hr => ?_) fun hr => ?_
    · rw [if_pos hr]
      exact Triple.ret fun _ h => h
    · rw [if_neg hr]
      exact Triple.exists_pre fun _ => ih hrise.2 fun e' he' => hrows e' (List.mem_cons_of_mem _ he')

end

section
variable {L : Layout} {T : Multiset Nat} {R : Region Nat (Nat → Nat)} {d x : Nat}
variable (hT : T.Nodup) (hF : ∀ f ∈ T, IsFrame L f)

theorem missing_linkE {e : Entries} {i t w : Nat} (ht : t ∉ spaceCells e d) (hi : i < NPDENTRIES)
    (hk : NUPDENTRIES ≤ i) (habs : ¬ present (e d i)) (hw : present w) :
    (missing (linkE e d i t w) d).card + 1 = (missing e d).card := by
  have hmem : i ∈ missing e d := Finset.mem_filter.mpr ⟨mem_slots.mpr hi, hk, habs⟩
  have herase : missing (linkE e d i t w) d = (missing e d).erase i := by
    ext b
    unfold missing
    rw [Finset.mem_erase, Finset.mem_filter, Finset.mem_filter, linkE_dir ht]
    by_cases hb : b = i
    · simp [hb, hw]
    · simp [hb]
  rw [herase, Finset.card_erase_add_one hmem]

include hT hF

theorem walkpgdirAlloc_total {a : Nat} (ha : KERNBASE ≤ a) (hw : a < WORD) :
    Triple Never (fun k => Acct T (space d + R) k ∧ Ready d a x k) (walkpgdirAlloc d a)
      fun r k => ∃ t i, r = some (t, i) ∧ Ready d a x k := by
  refine Triple.read fun k hk => ?_
  obtain ⟨hk, hready⟩ := hk
  cases hwalk : walkpgdir k.mem d a with
  | some ti =>
    refine Triple.ret ?_
    rintro _ rfl
    exact ⟨ti.1, ti.2, rfl, hready⟩
  | none =>
    have habs := walkpgdir_eq_none hwalk
    have hmem : PDX a ∈ missing k.mem.entry d :=
      Finset.mem_filter.mpr ⟨mem_slots.mpr (PDX_lt a), PDX_kernel ha hw, habs⟩
    have hpos := Finset.card_pos.mpr ⟨_, hmem⟩
    have henough := hready.enough
    refine Triple.bind ((kalloc_total (T := T) (A := space d + R)
      (n := (missing k.mem.entry d).card - 1 + x) (· = k.mem)).pre ?_) fun r => ?_
    · rintro _ rfl
      exact ⟨hk, hready.granted, by omega, rfl⟩
    · cases r with
      | none =>
        rintro k' ⟨f, hf, -⟩
        cases hf
      | some t =>
        refine Triple.upd (Ready d a x) ?_ (Triple.ret fun k' hk' => ⟨t, PTX a, rfl, hk'⟩)
        rintro k' ⟨f, hf, hk', hdeny, hlen, hm⟩
        cases hf
        obtain ⟨hpres, haddr⟩ := tableEntry (isFrame_of_single hF hk').1
        have hn := (Multiset.nodup_add.mp (hk'.nodup_cells hT))
        have ht : t ∉ spaceCells k.mem.entry d := by
          have hdisj := Multiset.singleton_disjoint.mp hn.2.2
          rw [← hm]
          exact fun h => hdisj (Multiset.mem_add.mpr (.inl h))
        have hnd : (spaceCells k.mem.entry d).Nodup := hm ▸ (Multiset.nodup_add.mp hn.2.1).1
        have hmiss := missing_linkE ht (PDX_lt a) (PDX_kernel ha hw) habs hpres
        refine ⟨hdeny, fun i hi => ?_, fun va hlo hva => ?_, ?_⟩
        · show ¬ present (linkE k'.mem.entry d (PDX a) t _ d i)
          rw [hm, linkE_dir ht, Function.update_of_ne (by have := PDX_kernel ha hw; omega)]
          exact hready.noUser i hi
        · refine (congrFun (mapped_linkE (hm ▸ ht) (hm ▸ hnd) (hm ▸ habs) haddr) va).trans ?_
          rw [hm]
          exact hready.unmapped va hlo hva
        · show (missing (linkE k'.mem.entry d (PDX a) t _) d).card + x ≤ k'.freelist.length
          rw [hm]
          omega

theorem mappage_total {a : Nat} (pa perm : Nat) (ha : KERNBASE ≤ a) (hw : a < WORD) (hal : a % PGSIZE = 0) :
    Triple Never (fun k => Acct T (space d + R) k ∧ Ready d a x k) (mappage d perm a pa)
      fun ok k => ok = true ∧ Ready d (a + PGSIZE) x k := by
  have hwalk := (walkpgdirAlloc_spec (E := Never) hT hF (R := R) (d := d) a).and
    (walkpgdirAlloc_total hT hF (R := R) (d := d) (x := x) ha hw)
  refine (hwalk.pre fun k hk => ⟨hk.1, hk⟩).bind fun r => ?_
  cases r with
  | none =>
    rintro k ⟨-, t, i, h, -⟩
    cases h
  | some ti =>
    refine Triple.read fun k hk => ?_
    obtain ⟨⟨hk, hsome⟩, -, -, -, hready⟩ := hk
    obtain ⟨hp, ht, hi⟩ := walkpgdir_eq_some (hsome ti.1 ti.2 rfl)
    rw [ht, hi]
    refine Triple.ite (fun hpte => ?_) fun _ => ?_
    · exact absurd hpte (mapped_eq_false.mp (hready.unmapped a le_rfl hw) hp)
    refine Triple.upd (Ready d (a + PGSIZE) x) ?_ (Triple.ret fun _ h => ⟨rfl, h⟩)
    rintro k rfl
    have hn : (spaceCells k.mem.entry d).Nodup := (Multiset.nodup_add.mp (hk.nodup_cells hT)).1
    have hdir := setE_dir (j := PTX a) (w := pa ||| perm ||| PTE_P) hn (PDX_lt a) hp
    refine ⟨hready.granted, fun i hi => ?_, fun va hlo hva => ?_, ?_⟩
    · rw [Kmem.setMem_mem, Mem.setEntry_entry, hdir]
      exact hready.noUser i hi
    · refine (mapped_setE hn hp va).trans ?_
      rw [if_neg, hready.unmapped va (by omega) hva]
      rw [samePage_iff hva hw]
      unfold PGSIZE at *
      omega
    · have hsame : missing (setE k.mem.entry (PTE_ADDR (k.mem.entry d (PDX a))) (PTX a)
          (pa ||| perm ||| PTE_P)) d = missing k.mem.entry d := by
        unfold missing
        rw [hdir]
      rw [Kmem.setMem_mem, Mem.setEntry_entry, hsame]
      exact hready.enough

theorem mapRows_total :
    Triple Never (fun k => Acct T (space d + R) k ∧ Ready d KERNBASE x k) (mapRows d (kmap L))
      fun r k => ¬ r < 0 ∧ Acct T (space d + R) k ∧ ∃ b, Ready d b x k := by
  have hrows := mapRows_rule (E := Never) (d := d) (Q := fun _ => False)
    (P := fun a k => Acct T (space d + R) k ∧ Ready d a x k)
    (fun perm a pa hperm hu ha hw hal hpa => by
      have hboth := (mappage_kernel hT hF (R := R) (d := d) ha hw hpa hperm hu).and
        (mappage_total hT hF (R := R) (d := d) (x := x) pa perm ha hw hal)
      refine hboth.conseq (fun k hk => ⟨hk.1, hk⟩) ?_
      rintro ok k ⟨hk, rfl, hready⟩
      exact ⟨hk, hready⟩)
    (fun a b k hab hk => ⟨hk.1, hk.2.mono hab⟩) (kmap L) (kmap_rising L) (kmap_ok L)
  refine hrows.post fun r k hk => ?_
  by_cases hr : r < 0
  · rw [if_pos hr] at hk
    exact hk.elim
  · rw [if_neg hr] at hk
    obtain ⟨b, hk, hready⟩ := hk
    exact ⟨hr, hk, b, hready⟩

omit hT hF in
theorem ready_zeroed {k : Kmem} {d : Nat} (hzero : k.mem.entry d = fun _ => 0) (hdeny : k.deny = [])
    (hlen : 512 + x ≤ k.freelist.length) : Ready d KERNBASE x k := by
  have habs : ∀ i, ¬ present (k.mem.entry d i) := fun i => hzero ▸ not_present_zero
  refine ⟨hdeny, fun i _ => habs i, fun va _ _ => mapped_eq_false.mpr fun hp => absurd hp (habs _),
    le_trans ?_ hlen⟩
  have hsub : missing k.mem.entry d ⊆ Finset.Ico NUPDENTRIES NPDENTRIES := by
    intro i hi
    obtain ⟨hi, hlo, -⟩ := Finset.mem_filter.mp hi
    exact Finset.mem_Ico.mpr ⟨hlo, mem_slots.mp hi⟩
  have hcard := Finset.card_le_card hsub
  rw [Nat.card_Ico] at hcard
  exact Nat.add_le_add_right hcard x

omit hF in
theorem balanced_newSpace {e : Entries} {free : Multiset Nat} (h : Balanced T (single d + R) e free) :
    Balanced T (space d + R) (Function.update e d fun _ => 0) free :=
  h.exchange hT (fun _ hf => Function.update_of_ne (fun eq => hf (Multiset.mem_singleton.mpr eq)) _ _)
    (spaceCells_of_zero (Function.update_self _ _ _))
    fun _ => kernelOnly_of_zero (Function.update_self _ _ _)

/-- With 513 pages and no refusals `setupkvm` succeeds, and maps nothing for the user. -/
theorem setupkvm_total :
    Triple Never (fun k => Acct T R k ∧ k.deny = [] ∧ 512 + x < k.freelist.length) (setupkvm L)
      fun r k => ∃ d, r = some d ∧ Acct T (space d + R) k ∧ k.deny = [] ∧ x ≤ k.freelist.length ∧
        ∀ i < NUPDENTRIES, ¬ present (k.mem.entry d i) := by
  refine ((kalloc_total (T := T) (A := R) (n := 512 + x) fun _ => True).pre ?_).bind fun r => ?_
  · exact fun k hk => ⟨hk.1, hk.2.1, hk.2.2, trivial⟩
  cases r with
  | none =>
    rintro k ⟨f, hf, -⟩
    cases hf
  | some d =>
    refine Triple.upd (fun k => Acct T (space d + R) k ∧ Ready d KERNBASE x k) ?_ ?_
    · rintro k ⟨f, hf, hk, hdeny, hlen, -⟩
      cases hf
      exact ⟨balanced_newSpace hT hk, ready_zeroed (Function.update_self _ _ _) hdeny hlen⟩
    refine Triple.ite (fun h => absurd h (by decide)) fun _ => ?_
    refine (mapRows_total hT hF).bind fun r => Triple.assume fun hr => ?_
    rw [if_neg hr]
    refine Triple.ret fun k hk => ?_
    obtain ⟨hk, b, hready⟩ := hk
    exact ⟨d, rfl, hk, hready.granted, le_trans (Nat.le_add_left _ _) hready.enough, hready.noUser⟩

theorem setupkvm_plenty {φ : Prop} : Triple Ever (fun k => (k.freelist : Multiset Nat) ≤ T ∧ Plenty φ (513 + x) k)
    (setupkvm L) (Succeeds φ (· ≠ none) x) := by
  by_cases hφ : φ
  · intro k hk
    obtain ⟨M, hM⟩ := Multiset.le_iff_exists_add.mp hk.1
    obtain ⟨hdeny, hlen⟩ := hk.2 hφ
    have hacct : Acct T (fixed M) k := ⟨(add_comm _ _).trans hM.symm, trivial⟩
    obtain ⟨r, k', hrun, d, rfl, -, hdeny', hlen', -⟩ :=
      (setupkvm_total hT hF (x := x)).ends ⟨hacct, hdeny, by omega⟩
    rw [hrun]
    exact ⟨fun _ => nofun, fun _ => ⟨hdeny', hlen'⟩⟩
  · exact failed fun _ _ => hφ

theorem copyuvm_plenty {φ : Prop} (pgdir : Nat) {sz n : Nat} (hsz : sz < KERNBASE) (hn : pagesIn 0 sz ≤ n) :
    Triple Ever (fun k => (k.freelist : Multiset Nat) ≤ T ∧ Plenty φ (513 + (2 * n + x)) k) (copyuvm L pgdir sz)
      (Succeeds φ (· ≠ none) x) := by
  refine (setupkvm_plenty hT hF).bind fun r => ?_
  cases r with
  | none => exact failed fun _ h hφ => h.1 hφ rfl
  | some d =>
    refine ((copyLoop_plenty L pgdir d _ rfl fun j hj => lt_trans (lt_of_pagesIn hj) hsz).pre fun k hk =>
      hk.2.mono (by omega)).bind fun ok => Triple.ite (fun _ => Triple.ret fun k hk => ⟨fun _ => nofun, hk.2⟩) fun hok => ?_
    exact failed fun _ h hφ => hok (h.1 hφ)

end
end Chameleon.Vm
