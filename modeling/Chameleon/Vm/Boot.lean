import Chameleon.Vm.Owners

/-! The boot sequence of `main`. With no call of `kalloc` refused and enough pages on the free
list, `setupkvm` and `inituvm` cannot fail, so that what they do not test does not matter. -/

namespace Chameleon.Vm
open Region Hoare
open Ptable (Slot)

section
variable {L : Layout} {T : Multiset Nat} {R : Region Nat (Nat → Nat)} {d x : Nat}
variable (hT : T.Nodup) (hF : ∀ f ∈ T, IsFrame L f)

/-- The image in `d` is one page. -/
def Inited (T : Multiset Nat) (R : Region Nat (Nat → Nat)) (d : Nat) (k : Kmem) : Prop :=
  Acct T (space d + R) k ∧ ∀ va < KERNBASE, mapped k.mem.entry d va = decide (va < PGSIZE)

include hT hF

theorem inituvm_total {init : List UInt8} (hinit : init.length < PGSIZE) :
    Triple Never (fun k => Acct T (space d + R) k ∧ k.deny = [] ∧ x + 1 < k.freelist.length ∧
        ∀ i < NUPDENTRIES, ¬ present (k.mem.entry d i)) (inituvm d init)
      fun _ k => Inited T R d k ∧ Plenty True x k := by
  refine Triple.each fun k hk => ?_
  obtain ⟨hk, hdeny, hlen, huser⟩ := hk
  generalize hS : viewOf k.mem d = S
  have hnone : ∀ va < KERNBASE, ¬ present (S.pte va) := by
    intro va hva hp
    rw [← hS] at hp
    exact huser _ (PDX_user hva) (table_of_pteAt hp)
  have howns : Owns T (view d S + lift R) k := hS ▸ hk.owns
  refine Triple.ite (fun h => absurd hinit (Nat.not_lt.mpr h)) fun _ => ?_
  have hkalloc : Triple Never _ kalloc _ := (kalloc_plenty (φ := True) (x := x + 1)).and
    (kalloc_took (T := T) (A := view d S + lift R))
  refine (hkalloc.pre ?_).bind fun r => ?_
  · rintro _ rfl
    exact ⟨fun _ => ⟨hdeny, hlen⟩, howns⟩
  cases r with
  | none => exact fun k hk => absurd rfl (hk.1.1 trivial)
  | some mem =>
    refine Triple.upd _ (fun k hk => ⟨hk.1.2, fill_owns hT hF 0 hk.2⟩) (((mappages_plenty mem (PTE_W ||| PTE_U)
      (by decide) (by decide)).and (mappages_view hT hF (by decide) (by decide) (by decide) fun h =>
        absurd h (hnone 0 (by decide)))).bind
      fun r => ?_)
    rintro k ⟨⟨hr, hplenty⟩, hk⟩
    rw [if_neg (hr trivial)] at hk
    refine ⟨⟨hk.acct, fun va hva => ?_⟩, hplenty⟩
    have hpage : SamePage va 0 ↔ 0 ≤ va ∧ va < 0 + PGSIZE :=
      samePage_page (by decide) (by decide) (lt_trans hva (by decide))
    refine (hk.mapped_eq va).trans ?_
    show present (if _ then _ else _) = _
    by_cases hin : SamePage va 0
    · rw [if_pos hin, present_or_P, eq_comm, decide_eq_true_iff]
      have := hpage.mp hin
      omega
    · rw [if_neg hin, Bool.eq_false_iff.mpr (hnone va hva), eq_comm, decide_eq_false_iff_not]
      exact fun h => hin (hpage.mpr ⟨Nat.zero_le va, by omega⟩)

omit hT hF in
theorem startothers_total (n : Nat) {A : Region Nat (Nat → Nat)} :
    Triple Never (fun k => Acct T A k ∧ k.deny = [] ∧ n ≤ k.freelist.length) (startothers n)
      fun cpuStacks k => Acct T (fixed cpuStacks + A) k ∧ k.deny = [] := by
  induction n generalizing A with
  | zero =>
    refine Triple.ret fun k hk => ⟨?_, hk.2.1⟩
    rw [Multiset.coe_nil, fixed_zero, zero_add]
    exact hk.1
  | succ n ih =>
    refine ((kalloc_total (T := T) (A := A) (n := n) fun _ => True).pre ?_).bind fun r => ?_
    · exact fun k hk => ⟨hk.1, hk.2.1, hk.2.2, trivial⟩
    cases r with
    | none =>
      rintro k ⟨f, hf, -⟩
      cases hf
    | some stack =>
      refine Triple.bind ((ih (A := single stack + A)).pre ?_) fun rest => Triple.ret fun k hk => ?_
      · rintro k ⟨f, hf, hk, hdeny, hlen, -⟩
        cases hf
        exact ⟨hk, hdeny, hlen⟩
      · refine ⟨?_, hk.2⟩
        rw [← Multiset.cons_coe, ← Multiset.singleton_add, fixed_add, add_assoc, add_left_comm]
        exact hk.1

/-- `n` pages from `p` on. -/
def framesFrom (p n : Nat) : List Nat := (List.range n).map fun i => p + i * PGSIZE

omit hT hF in
theorem framesFrom_succ (p n : Nat) : framesFrom p (n + 1) = p :: framesFrom (p + PGSIZE) n := by
  unfold framesFrom
  rw [List.range_succ_eq_map, List.map_cons, List.map_map, Nat.zero_mul, Nat.add_zero]
  refine congrArg _ (List.map_congr_left fun i _ => ?_)
  rw [Function.comp_apply, Nat.succ_mul]
  omega

theorem freePages_total (n : Nat) {p l : Nat} :
    Triple Never (fun k => Acct T (fixed (framesFrom p n) + R) k ∧ k.deny = [] ∧ l ≤ k.freelist.length)
      (freePages L n p) fun _ k => Acct T R k ∧ k.deny = [] ∧ l + n ≤ k.freelist.length := by
  induction n generalizing p l with
  | zero =>
    refine Triple.ret fun k hk => ⟨?_, hk.2⟩
    have hk := hk.1
    rwa [framesFrom, List.range_zero, List.map_nil, Multiset.coe_nil, fixed_zero, zero_add] at hk
  | succ n ih =>
    have hlen : l + (n + 1) = l + 1 + n := by omega
    rw [framesFrom_succ, ← Multiset.cons_coe, ← Multiset.singleton_add, fixed_add, add_assoc, hlen]
    refine Triple.bind (Q := fun _ k => Acct T (fixed (framesFrom (p + PGSIZE) n) + R) k ∧ k.deny = [] ∧
      l + 1 ≤ k.freelist.length) ?_ fun _ => ih
    rintro k ⟨hk, hdeny, hlen⟩
    rw [kfree_run (isFrame_of_single hF hk)]
    exact ⟨(hk.write hT _).give, hdeny, Nat.succ_le_succ hlen⟩

end

/-! ### `main` -/

/-- The page frames that `kinit1` and `kinit2` hand to the allocator. -/
def handed (L : Layout) : List Nat :=
  framesFrom (PGROUNDUP L.endp) ((4 * 1024 * 1024 - PGROUNDUP L.endp) / PGSIZE) ++
    framesFrom (4 * 1024 * 1024) ((PHYSTOP - 4 * 1024 * 1024) / PGSIZE)

theorem mem_framesFrom {p n f : Nat} : f ∈ framesFrom p n ↔ ∃ i < n, f = p + i * PGSIZE := by
  unfold framesFrom
  rw [List.mem_map]
  simp only [List.mem_range, eq_comm]

theorem nodup_framesFrom (p n : Nat) : (framesFrom p n).Nodup :=
  List.Nodup.map (fun i j h => by unfold PGSIZE at h; omega) List.nodup_range

theorem endp_up (L : Layout) : L.endp ≤ PGROUNDUP L.endp ∧ PGROUNDUP L.endp ≤ 0x1F0000 := by
  have := L.endp_le
  unfold PGROUNDUP PGSIZE WORD
  omega

theorem nodup_handed (L : Layout) : (handed L : Multiset Nat).Nodup := by
  refine Multiset.coe_nodup.mpr (List.Nodup.append (nodup_framesFrom _ _) (nodup_framesFrom _ _) fun f hf hf' => ?_)
  obtain ⟨i, hi, rfl⟩ := mem_framesFrom.mp hf
  obtain ⟨j, -, hj⟩ := mem_framesFrom.mp hf'
  unfold PGSIZE at *
  omega

theorem isFrame_handed (L : Layout) : ∀ f ∈ (handed L : Multiset Nat), IsFrame L f := by
  intro f hf
  have hup := endp_up L
  have hmod := PGROUNDUP_mod L.endp
  rcases List.mem_append.mp hf with hf | hf
  · obtain ⟨i, hi, rfl⟩ := mem_framesFrom.mp hf
    unfold IsFrame PGSIZE PHYSTOP at *
    omega
  · obtain ⟨i, hi, rfl⟩ := mem_framesFrom.mp hf
    unfold IsFrame PGSIZE PHYSTOP at *
    omega

theorem freerange_total {L : Layout} {R : Region Nat (Nat → Nat)} (vstart vend l : Nat) :
    Triple Never (fun k => Acct (handed L) (fixed (framesFrom (PGROUNDUP vstart)
        ((vend - PGROUNDUP vstart) / PGSIZE)) + R) k ∧ k.deny = [] ∧ l ≤ k.freelist.length)
      (freerange L vstart vend) fun _ k => Acct (handed L) R k ∧ k.deny = [] ∧
        l + (vend - PGROUNDUP vstart) / PGSIZE ≤ k.freelist.length :=
  freePages_total (nodup_handed L) (isFrame_handed L) _

theorem afterUserinit_init (d stack : Nat) : (Ptable.afterUserinit d stack : Table).proc 0 =
    { Ptable.Proc.zero with sz := 4096, pgdir := some d, kstack := some stack, state := .runnable, pid := 1 } := by
  dsimp only [Ptable.afterUserinit]
  rw [Function.update_self]

theorem afterUserinit_zero (d stack : Nat) {p : Ptable.Slot} (hp : p ≠ 0) :
    (Ptable.afterUserinit d stack : Table).proc p = Ptable.Proc.zero := by
  dsimp only [Ptable.afterUserinit]
  rw [Function.update_of_ne hp]

theorem procs_afterUserinit (d stack : Nat) :
    procs (Ptable.afterUserinit d stack) = single stack + space d := by
  have hothers : others (Ptable.afterUserinit d stack) 0 = 0 := by
    refine Finset.sum_eq_zero fun q hq => procRegion_unused ?_
    rw [afterUserinit_zero d stack (Finset.ne_of_mem_erase hq)]
    rfl
  rw [procs_split _ 0, hothers, add_zero, afterUserinit_init]
  exact procRegion_used (by simp) rfl rfl

theorem tableOk_afterUserinit (d stack : Nat) : TableOk (Ptable.afterUserinit d stack) := by
  intro p hp
  by_cases h0 : p = 0
  · rw [h0, afterUserinit_init]
    exact ⟨rfl, rfl, (by decide : 4096 < KERNBASE)⟩
  · rw [afterUserinit_zero d stack h0] at hp
    exact absurd rfl hp

theorem userinit_total {L : Layout} {T : Multiset Nat} {R : Region Nat (Nat → Nat)} {x : Nat} (hT : T.Nodup)
    (hF : ∀ f ∈ T, IsFrame L f) {initcode : List UInt8} (hinit : initcode.length < PGSIZE) :
    Triple Never (fun k => Acct T R k ∧ k.deny = [] ∧ 516 + x ≤ k.freelist.length) (userinit L initcode)
      fun t k => ∃ d stack, t = Ptable.afterUserinit d stack ∧ Inited T (single stack + R) d k ∧
        Plenty True x k := by
  refine ((kalloc_total (T := T) (A := R) (n := 515 + x) fun _ => True).pre ?_).bind fun r => ?_
  · exact fun k hk => ⟨hk.1, hk.2.1, by omega, trivial⟩
  cases r with
  | none =>
    rintro k ⟨f, hf, -⟩
    cases hf
  | some stack =>
    refine ((setupkvm_total hT hF (R := single stack + R) (x := x + 2)).pre ?_).bind fun r => ?_
    · rintro k ⟨f, hf, hk, hdeny, hlen, -⟩
      cases hf
      exact ⟨hk, hdeny, by omega⟩
    cases r with
    | none =>
      rintro k ⟨d, hd, -⟩
      cases hd
    | some d =>
      refine ((inituvm_total hT hF (R := single stack + R) (d := d) (x := x) hinit).pre ?_).bind fun _ => ?_
      · rintro k ⟨d', hd', hk, hdeny, hlen, huser⟩
        cases hd'
        exact ⟨hk, hdeny, hlen, huser⟩
      · exact Triple.ret fun k hk => ⟨d, stack, rfl, hk⟩

/-- There is one process, with one page, and more than 200 MB are free. -/
def FirstProcess (y : Records) (k : Kmem) : Prop :=
  ∃ d stack, y.table = Ptable.afterUserinit d stack ∧
    (∀ va < KERNBASE, mapped k.mem.entry d va = decide (va < PGSIZE)) ∧ Plenty True 55000 k

/-- The boot sequence does not fail, and every frame it was given is accounted for. -/
theorem main_spec (L : Layout) (initcode : List UInt8) (hinit : initcode.length < PGSIZE) :
    Triple Never (fun k => k.freelist = [] ∧ k.deny = []) (main L initcode)
      fun y k => Balance (handed L) y k ∧ FirstProcess y k := by
  have hup := endp_up L
  have hfour : PGROUNDUP (4 * 1024 * 1024) = 4 * 1024 * 1024 := by decide
  have hfirst := freerange_total (L := L) (R := fixed (framesFrom (4 * 1024 * 1024)
    ((PHYSTOP - 4 * 1024 * 1024) / PGSIZE))) L.endp (4 * 1024 * 1024) 0
  refine (hfirst.pre ?_).bind fun _ => ?_
  · rintro k ⟨hfree, hdeny⟩
    refine ⟨⟨?_, trivial, trivial⟩, hdeny, Nat.zero_le _⟩
    rw [hfree, Multiset.coe_nil, add_zero]
    rfl
  refine ((setupkvm_total (nodup_handed L) (isFrame_handed L) (R := fixed (framesFrom (4 * 1024 * 1024)
    ((PHYSTOP - 4 * 1024 * 1024) / PGSIZE))) (x := 8)).pre ?_).bind fun r => ?_
  · rintro k ⟨hk, hdeny, hlen⟩
    refine ⟨hk, hdeny, ?_⟩
    unfold PGSIZE at hlen
    omega
  cases r with
  | none =>
    rintro k ⟨d, hd, -⟩
    cases hd
  | some kpgdir =>
    refine ((startothers_total (L.ncpu - 1) (T := handed L) (A := space kpgdir + fixed (framesFrom
      (4 * 1024 * 1024) ((PHYSTOP - 4 * 1024 * 1024) / PGSIZE)))).pre ?_).bind fun cpuStacks => ?_
    · rintro k ⟨d, hd, hk, hdeny, hlen, -⟩
      cases hd
      have hcpu := L.ncpu_le
      exact ⟨hk, hdeny, by unfold NCPU at hcpu; omega⟩
    have hsecond := freerange_total (L := L) (R := fixed cpuStacks + space kpgdir) (4 * 1024 * 1024) PHYSTOP 0
    rw [hfour] at hsecond
    refine (hsecond.pre ?_).bind fun _ => ?_
    · rintro k ⟨hk, hdeny⟩
      refine ⟨?_, hdeny, Nat.zero_le _⟩
      rw [add_comm, add_assoc]
      exact hk
    refine ((userinit_total (nodup_handed L) (isFrame_handed L) (R := fixed cpuStacks + space kpgdir)
      (x := 55000) hinit).pre ?_).bind fun t => ?_
    · rintro k ⟨hk, hdeny, hlen⟩
      exact ⟨hk, hdeny, le_trans (by decide) hlen⟩
    · refine Triple.ret fun k hk => ?_
      obtain ⟨d, stack, rfl, ⟨hk, hmapped⟩, hplenty⟩ := hk
      refine ⟨⟨tableOk_afterUserinit d stack, ?_⟩, d, stack, rfl, hmapped, hplenty⟩
      show Acct (handed L) (procs (Ptable.afterUserinit d stack) + (fixed (pipePages []) +
        (space kpgdir + fixed cpuStacks))) k
      rw [show pipePages [] = 0 from rfl, fixed_zero, zero_add, add_comm (space kpgdir), procs_afterUserinit,
        add_comm (single stack), add_assoc]
      exact hk

theorem booted_spec {L : Layout} {s : Records × Kmem} (h : Booted L s) :
    Balance (handed L) s.1 s.2 ∧ FirstProcess s.1 s.2 := by
  obtain ⟨m, initcode, hinit, hrun⟩ := h
  have hspec := main_spec L initcode hinit ⟨m, [], []⟩ ⟨rfl, rfl⟩
  rw [hrun] at hspec
  exact hspec

theorem exists_booted (L : Layout) : ∃ s, Booted L s := by
  have hspec := main_spec L [] (by decide) ⟨⟨fun _ _ => 0, fun _ => 0⟩, [], []⟩ ⟨rfl, rfl⟩
  cases hrun : (main L []).run ⟨⟨fun _ _ => 0, fun _ => 0⟩, [], []⟩ with
  | error e =>
    rw [hrun] at hspec
    exact hspec.elim
  | ok s => exact ⟨s, _, [], by decide, hrun⟩

theorem balance_of_reach {L : Layout} {s : Records × Kmem}
    (h : Machine.Reach (step L) (Booted L) Machine.Any s) : Balance (handed L) s.1 s.2 :=
  h.invariant (fun _ hb => (booted_spec hb).1) fun _ _ _ hi _ hs =>
    step_balance (nodup_handed L) (isFrame_handed L) hi hs

/-- The pages of a live process, apart from all others. -/
theorem caller_of_reach {L : Layout} {s : Records × Kmem} (h : Machine.Reach (step L) (Booted L) Machine.Any s)
    {p : Slot} {d : Nat} (hp : Live s.1.table p) (hd : (s.1.table.proc p).pgdir = some d) :
    ∃ B, ∀ deny, Acct (handed L) (space d + B) { s.2 with deny := deny } := by
  obtain ⟨htable, hacct⟩ := balance_of_reach h
  obtain ⟨stack, d', -, hd', hsplit⟩ := procs_live (R := fixed (pipePages s.1.pipes) +
    (space s.1.kpgdir + fixed s.1.cpuStacks)) htable hp
  obtain rfl : d = d' := Option.some.inj (hd.symm.trans hd')
  rw [show regions s.1 = _ from hsplit] at hacct
  exact ⟨_, fun _ => hacct⟩

/-- The first process after boot, with its page and its size. -/
theorem exists_first (L : Layout) : ∃ s d, Booted L s ∧ Live s.1.table 0 ∧ (s.1.table.proc 0).pgdir = some d ∧
    (s.1.table.proc 0).sz = PGSIZE ∧
    (∀ va < KERNBASE, mapped s.2.mem.entry d va = decide (va < PGROUNDUP PGSIZE)) ∧ 55000 ≤ s.2.freelist.length := by
  obtain ⟨s, hs⟩ := exists_booted L
  obtain ⟨d, stack, ht, hmapped, hplenty⟩ := (booted_spec hs).2
  refine ⟨s, d, hs, ?_, ?_, ?_, hmapped, (hplenty trivial).2⟩
  · rw [ht]
    exact .inl rfl
  · rw [ht]
    rfl
  · rw [ht]
    rfl

/-- A kernel whose data starts at `0x80108000` and ends at `0x801154a8`, on two CPUs. -/
def sampleLayout : Layout where
  data := 0x108000
  endp := 0x1154a8
  ncpu := 2
  data_aligned := by decide
  extmem_lt_data := by decide
  data_le_endp := by decide
  endp_le := by decide
  ncpu_le := by decide

end Chameleon.Vm
