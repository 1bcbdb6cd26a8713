import Mathlib.Data.Fintype.BigOperators
import Chameleon.Vm.Fork

/-! Page frames are neither lost nor shared, in every run from boot on. -/

namespace Chameleon.Vm
open Region Hoare
open Ptable (Slot)

/-- The frames of a process: its kernel stack, page directory, page tables and user pages. -/
def procFrames (e : Entries) (q : Ptable.Proc) : Multiset Nat :=
  if q.state = .unused then 0 else q.kstack.elim 0 ({·}) + q.pgdir.elim 0 (spaceCells e)

/-- The frames on the free list, of processes, of pipes, and of the stacks of the other CPUs. -/
def owners (s : Records × Kmem) : Multiset Nat :=
  s.2.freelist + ∑ p, procFrames s.2.mem.entry (s.1.table.proc p) + pipePages s.1.pipes + s.1.cpuStacks

/-- The frames of the page directory and page tables that `kvmalloc` built. -/
def kernelFrames (s : Records × Kmem) : Multiset Nat := spaceCells s.2.mem.entry s.1.kpgdir

/-- The page directory of a process, or for `none` the one of the scheduler. -/
def dirOf (y : Records) : Option Slot → Option Nat
  | none => some y.kpgdir
  | some p => if (y.table.proc p).state = .unused then none else (y.table.proc p).pgdir

structure Conserved (L : Layout) (s : Records × Kmem) : Prop where
  /-- Every frame handed to the allocator has one owner. -/
  once : ∀ f ∈ handed L, (owners s + kernelFrames s).count f = 1
  /-- No other frame has one. -/
  only : ∀ f ∈ owners s + kernelFrames s, f ∈ handed L
  /-- No frame is mapped with `PTE_U` in two page directories or at two addresses. -/
  unshared : ∀ a b d d', dirOf s.1 a = some d → dirOf s.1 b = some d' →
    ∀ va < WORD, ∀ va' < WORD, UserMapped s.2.mem d va → UserMapped s.2.mem d' va' →
      physAddr s.2.mem d va / PGSIZE = physAddr s.2.mem d' va' / PGSIZE →
        a = b ∧ va / PGSIZE = va' / PGSIZE
  /-- No address at or above `KERNBASE` is mapped with `PTE_U`. -/
  kernel : ∀ a d, dirOf s.1 a = some d → ∀ va < WORD, KERNBASE ≤ va → ¬ UserMapped s.2.mem d va

theorem cells_procRegion (e : Entries) (q : Ptable.Proc) : (procRegion q).cells e = procFrames e q := by
  unfold procRegion procFrames
  split
  case isTrue => rfl
  case isFalse => cases q.kstack <;> cases q.pgdir <;> rfl

theorem owners_eq (s : Records × Kmem) :
    owners s + kernelFrames s = (regions s.1).cells s.2.mem.entry + s.2.freelist := by
  have hprocs : (procs s.1.table).cells s.2.mem.entry =
      ∑ p, procFrames s.2.mem.entry (s.1.table.proc p) := by
    rw [procs, cells_sum]
    exact Finset.sum_congr rfl fun p _ => cells_procRegion _ _
  unfold owners kernelFrames regions
  rw [cells_add, cells_add, cells_add, hprocs, cells_fixed, cells_fixed, cells_space]
  abel

/-! ### Address spaces apart -/

/-- The address space of a process, or of the scheduler. -/
def spaceOf (y : Records) (a : Option Slot) : Region Nat (Nat → Nat) := (dirOf y a).elim 0 space

theorem procRegion_eq (y : Records) (p : Slot) : procRegion (y.table.proc p) =
    (if (y.table.proc p).state = .unused then 0 else (y.table.proc p).kstack.elim 0 single) +
      spaceOf y (some p) := by
  by_cases h : (y.table.proc p).state = .unused
  · simp [procRegion, spaceOf, dirOf, h]
  · simp [procRegion, spaceOf, dirOf, h]

theorem regions_eq (y : Records) : ∃ R, regions y = ∑ a, spaceOf y a + R := by
  refine ⟨∑ p, (if (y.table.proc p).state = .unused then 0 else (y.table.proc p).kstack.elim 0 single) +
    (fixed (pipePages y.pipes) + fixed y.cpuStacks), ?_⟩
  have hnone : spaceOf y none = space y.kpgdir := rfl
  unfold regions procs
  rw [Fintype.sum_option, hnone, Finset.sum_congr rfl fun p _ => procRegion_eq y p, Finset.sum_add_distrib]
  abel

/-- The frame a user mapping leads to is one of the pages its entry owns. -/
theorem userMapped_frame {m : Mem} {d va : Nat} (hk : KernelOnly m.entry d) (h : UserMapped m d va) :
    ∃ f, physAddr m d va / PGSIZE * PGSIZE = f ∧ PDX va < NUPDENTRIES ∧
      present (m.entry d (PDX va)) ∧ f ∈ pageOf (m.entry (PTE_ADDR (m.entry d (PDX va))) (PTX va)) := by
  obtain ⟨pte, hpte, hp, hu⟩ := h
  obtain ⟨ti, hwalk, rfl⟩ := Option.map_eq_some_iff.mp hpte
  obtain ⟨hpd, ht, hi⟩ := walkpgdir_eq_some hwalk
  rw [ht, hi] at hp hu
  refine ⟨_, rfl, ?_, hpd, ?_⟩
  · by_contra hno
    exact hk _ (Nat.not_lt.mp hno) (PDX_lt va) hpd _ (PTX_lt va) hp hu
  · have hphys : physAddr m d va = PTE_ADDR (m.entry (PTE_ADDR (m.entry d (PDX va))) (PTX va)) + va % PGSIZE := by
      rw [physAddr, hpte, ht, hi]
      rfl
    rw [pageOf_present hp, Multiset.mem_singleton, hphys]
    unfold PTE_ADDR PGSIZE
    omega

section
variable {T : Multiset Nat} {y : Records} {k : Kmem} (hT : T.Nodup) (h : Balance T y k)
include h

theorem Balance.spaces : ∃ R, Acct T (∑ a, spaceOf y a + R) k := by
  obtain ⟨R, hR⟩ := regions_eq y
  exact ⟨R, hR ▸ h.2⟩

theorem Balance.kernelOnly {a : Option Slot} {d : Nat} (hd : dirOf y a = some d) :
    KernelOnly k.mem.entry d := by
  obtain ⟨R, hk⟩ := h.spaces
  have hsound := (sound_sum _ _ _).mp hk.sound.1 a (Finset.mem_univ a)
  rw [spaceOf, hd] at hsound
  exact hsound

include hT in
theorem Balance.unshared {a b : Option Slot} {d d' : Nat} (hd : dirOf y a = some d) (hd' : dirOf y b = some d')
    {va va' : Nat} (hva : va < WORD) (hva' : va' < WORD) (hm : UserMapped k.mem d va)
    (hm' : UserMapped k.mem d' va')
    (hphys : physAddr k.mem d va / PGSIZE = physAddr k.mem d' va' / PGSIZE) :
    a = b ∧ va / PGSIZE = va' / PGSIZE := by
  obtain ⟨R, hk⟩ := h.spaces
  have hsum := (Multiset.nodup_add.mp (hk.nodup_cells hT)).1
  rw [cells_sum] at hsum
  obtain ⟨f, hf, hu, hp, hmem⟩ := userMapped_frame (h.kernelOnly hd) hm
  obtain ⟨f', hf', hu', hp', hmem'⟩ := userMapped_frame (h.kernelOnly hd') hm'
  obtain rfl : f = f' := by rw [← hf, ← hf', hphys]
  have hcell : ∀ {o dd v}, dirOf y o = some dd → PDX v < NUPDENTRIES → present (k.mem.entry dd (PDX v)) →
      f ∈ pageOf (k.mem.entry (PTE_ADDR (k.mem.entry dd (PDX v))) (PTX v)) →
        f ∈ (spaceOf y o).cells k.mem.entry := by
    intro o dd v ho hu hp hmem
    rw [spaceOf, ho]
    exact mem_spaceCells.mpr (.inr ⟨PDX v, PDX_lt v, mem_tableCells_page hu hp hmem⟩)
  have hab : a = b := by
    by_contra hne
    have hdisj := disjoint_of_nodup_sum hsum (Finset.mem_univ a) (Finset.mem_univ b) (Ne.symm hne)
    exact Multiset.disjoint_left.mp hdisj (hcell hd hu hp hmem) (hcell hd' hu' hp' hmem')
  subst hab
  obtain rfl : d = d' := Option.some.inj (hd.symm.trans hd')
  have hn : (spaceCells k.mem.entry d).Nodup := by
    refine Multiset.nodup_of_le ?_ hsum
    have hle := Finset.single_le_sum (f := fun o => (spaceOf y o).cells k.mem.entry)
      (fun _ _ => Multiset.zero_le _) (Finset.mem_univ a)
    rw [spaceOf, hd] at hle
    exact hle
  exact ⟨rfl, mapped_once hn hva hva' hu hu' hp hp' hmem hmem'⟩

end

theorem conserved_of_balance {L : Layout} {s : Records × Kmem} (h : Balance (handed L) s.1 s.2) :
    Conserved L s where
  once f hf := by
    rw [owners_eq, h.2.total]
    exact Multiset.count_eq_one_of_mem (nodup_handed L) hf
  only f hf := by
    rw [owners_eq, h.2.total] at hf
    exact hf
  unshared a b d d' hd hd' va hva va' hva' hm hm' hphys :=
    h.unshared (nodup_handed L) hd hd' hva hva' hm hm' hphys
  kernel a d hd va hva hlo hm := by
    obtain ⟨f, -, hu, -⟩ := userMapped_frame (h.kernelOnly hd) hm
    exact absurd hu (Nat.not_lt.mpr (PDX_kernel hlo hva))

/-- After boot and after every operation, with any calls of `kalloc` refused, every frame has
one owner: the free list, a process, a pipe, another CPU's stack, or the kernel's own page
table. -/
theorem frames_conserved (L : Layout) {s : Records × Kmem}
    (h : Machine.Reach (step L) (Booted L) Machine.Any s) : Conserved L s :=
  conserved_of_balance (balance_of_reach h)

/-- The first process forks: its child has a kernel stack, page tables and a page of its own. -/
theorem frames_conserved_forked : ∃ s s', Booted sampleLayout s ∧ step sampleLayout s (.fork 0, []) = some s' ∧
    (s'.1.table.proc 1).state = .runnable ∧ (s'.1.table.proc 1).parent = some 0 ∧ Conserved sampleLayout s' := by
  obtain ⟨s, hs⟩ := exists_booted sampleLayout
  obtain ⟨d, stack, ht, hmapped, hplenty⟩ := (booted_spec hs).2
  have hlive : Live s.1.table 0 := by
    rw [ht]
    exact .inl rfl
  obtain ⟨B, hacct⟩ := caller_of_reach (.start hs) (d := d) hlive (by rw [ht]; rfl)
  have hfork := fork_makes (nodup_handed sampleLayout) (isFrame_handed sampleLayout) (R := B) 0 (n := 1)
    (show Ptable.allocproc (Ptable.afterUserinit d stack : Table) = some (1, _) from rfl) rfl
    (show _ = 4096 from rfl) (by decide) (by decide)
  have hrun : Triple Never (fun k => k = { s.2 with deny := [] }) (runOp sampleLayout s.1 (.fork 0))
      fun y _ => (y.table.proc 1).state = .runnable ∧ (y.table.proc 1).parent = some 0 := by
    rw [runOp, onTable, if_pos hlive, ht]
    refine (hfork.pre ?_).bind fun t => Triple.ret fun _ h => h
    rintro _ rfl
    exact ⟨hacct [], fun _ => ⟨rfl, le_trans (by decide) (hplenty trivial).2⟩, fun va hva =>
      (hmapped va (lt_trans hva (by decide))).trans (decide_eq_true hva)⟩
  obtain ⟨y, k', hrun, hstate, hparent⟩ := hrun.ends rfl
  have hstep : step sampleLayout s (.fork 0, []) = some (y, k') := by
    unfold step
    rw [hrun]
  exact ⟨s, _, hs, hstep, hstate, hparent, frames_conserved sampleLayout (.next (.start hs) trivial hstep)⟩

/-- The page directory of the scheduler is a frame that belongs to no process, pipe or CPU. -/
theorem kpgdir_unowned {L : Layout} {s : Records × Kmem} (h : Booted L s) :
    s.1.kpgdir ∈ handed L ∧ (owners s).count s.1.kpgdir = 0 := by
  have hall := conserved_of_balance ((booted_spec h).1)
  have hmem : s.1.kpgdir ∈ kernelFrames s := mem_spaceCells_dir _ _
  have hin := hall.only _ (Multiset.mem_add.mpr (.inr hmem))
  have hcount := hall.once _ hin
  rw [Multiset.count_add] at hcount
  have hpos := Multiset.count_pos.mpr hmem
  exact ⟨hin, by omega⟩

theorem frame_without_listed_owner : ∃ s, Booted sampleLayout s ∧
    ∃ f ∈ handed sampleLayout, (owners s).count f = 0 := by
  obtain ⟨s, hs⟩ := exists_booted sampleLayout
  exact ⟨s, hs, s.1.kpgdir, kpgdir_unowned hs⟩

end Chameleon.Vm
