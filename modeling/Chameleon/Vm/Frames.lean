import Mathlib.Algebra.Order.BigOperators.Group.Finset
import Chameleon.Lib.Region
import Chameleon.Vm.Uvm

/-! Who owns which page frame. The pages of an address space are read off its page directory:
the directory, the page tables, and the pages that entries below `KERNBASE` point to. -/

namespace Chameleon.Vm
open Region

/-- The number of page directory entries for addresses below `KERNBASE`. -/
abbrev NUPDENTRIES : Nat := 512

/-- The entries of page directories and page tables, by page. -/
abbrev Entries := Nat → Nat → Nat

/-- The indices of a page directory or page table. -/
@[irreducible] def slots : Finset Nat := Finset.range NPTENTRIES

@[simp] theorem mem_slots {i : Nat} : i ∈ slots ↔ i < NPTENTRIES := by
  rw [slots, Finset.mem_range]

def pageOf (pte : Nat) : Multiset Nat := if present pte then {PTE_ADDR pte} else 0

/-- The pages that the entries of page table `t` point to. -/
def mappedPages (e : Entries) (t : Nat) : Multiset Nat := ∑ j ∈ slots, pageOf (e t j)

/-- What entry `i` of page directory `d` owns: a page table, and below `KERNBASE` the pages
mapped there. -/
def tableCells (e : Entries) (d i : Nat) : Multiset Nat :=
  if present (e d i) then
    {PTE_ADDR (e d i)} + (if i < NUPDENTRIES then mappedPages e (PTE_ADDR (e d i)) else 0)
  else 0

def spaceCells (e : Entries) (d : Nat) : Multiset Nat :=
  {d} + ∑ i ∈ slots, tableCells e d i

/-- No entry at or above `KERNBASE` has `PTE_U`. -/
def KernelOnly (e : Entries) (d : Nat) : Prop :=
  ∀ i, NUPDENTRIES ≤ i → i < NPDENTRIES → present (e d i) → ∀ j < NPTENTRIES,
    present (e (PTE_ADDR (e d i)) j) → ¬ user (e (PTE_ADDR (e d i)) j)

theorem PDX_user {va : Nat} (h : va < KERNBASE) : PDX va < NUPDENTRIES := by
  unfold PDX KERNBASE NUPDENTRIES at *
  omega

theorem PDX_kernel {va : Nat} (h : KERNBASE ≤ va) (hw : va < WORD) : NUPDENTRIES ≤ PDX va := by
  unfold PDX KERNBASE NUPDENTRIES WORD at *
  omega

theorem not_present_zero : ¬ present 0 := by decide

theorem pageOf_zero : pageOf 0 = 0 := if_neg not_present_zero

theorem pageOf_present {pte : Nat} (h : present pte) : pageOf pte = {PTE_ADDR pte} := if_pos h

theorem pageOf_absent {pte : Nat} (h : ¬ present pte) : pageOf pte = 0 := if_neg h

theorem mem_spaceCells {e : Entries} {d f : Nat} :
    f ∈ spaceCells e d ↔ f = d ∨ ∃ i < NPDENTRIES, f ∈ tableCells e d i := by
  unfold spaceCells
  rw [Multiset.mem_add, Multiset.mem_singleton, Multiset.mem_sum]
  simp only [mem_slots]

theorem mem_spaceCells_dir (e : Entries) (d : Nat) : d ∈ spaceCells e d := mem_spaceCells.mpr (.inl rfl)

theorem mem_tableCells_table {e : Entries} {d i : Nat} (h : present (e d i)) :
    PTE_ADDR (e d i) ∈ tableCells e d i := by
  rw [tableCells, if_pos h]
  exact Multiset.mem_add.mpr (.inl (Multiset.mem_singleton_self _))

theorem mem_spaceCells_table {e : Entries} {d i : Nat} (hi : i < NPDENTRIES) (h : present (e d i)) :
    PTE_ADDR (e d i) ∈ spaceCells e d :=
  mem_spaceCells.mpr (.inr ⟨i, hi, mem_tableCells_table h⟩)

theorem tableCells_congr {e e' : Entries} {d i : Nat} (hd : e' d i = e d i)
    (ht : present (e d i) → e' (PTE_ADDR (e d i)) = e (PTE_ADDR (e d i))) :
    tableCells e' d i = tableCells e d i := by
  unfold tableCells mappedPages
  rw [hd]
  split
  case isTrue h => rw [ht h]
  case isFalse h => rfl

theorem spaceCells_frame (e e' : Entries) (d : Nat) (h : ∀ f ∈ spaceCells e d, e' f = e f) :
    spaceCells e' d = spaceCells e d := by
  have hd := h d (mem_spaceCells_dir e d)
  unfold spaceCells
  refine congrArg _ (Finset.sum_congr rfl fun i hi => tableCells_congr (congrFun hd i) fun hp => ?_)
  exact h _ (mem_spaceCells_table (mem_slots.mp hi) hp)

theorem kernelOnly_frame (e e' : Entries) (d : Nat) (h : ∀ f ∈ spaceCells e d, e' f = e f)
    (hk : KernelOnly e d) : KernelOnly e' d := by
  intro i hlo hhi
  rw [h d (mem_spaceCells_dir e d)]
  intro hp
  rw [h _ (mem_spaceCells_table hhi hp)]
  exact hk i hlo hhi hp

/-- The address space rooted at page directory `d`. -/
def space (d : Nat) : Region Nat (Nat → Nat) where
  cells e := spaceCells e d
  sound e := KernelOnly e d
  frame e e' h := ⟨spaceCells_frame e e' d h, kernelOnly_frame e e' d h⟩

@[simp] theorem cells_space (e : Entries) (d : Nat) : (space d).cells e = spaceCells e d := rfl
@[simp] theorem sound_space (e : Entries) (d : Nat) : (space d).sound e ↔ KernelOnly e d := Iff.rfl

section Change
variable {e e' : Entries} {d i j w : Nat}

theorem sum_change {ι M : Type*} [DecidableEq ι] [AddCommMonoid M] {s : Finset ι} {a : ι} {f g : ι → M}
    (ha : a ∈ s) (h : ∀ b ∈ s, b ≠ a → g b = f b) : ∑ b ∈ s, g b + f a = ∑ b ∈ s, f b + g a := by
  rw [← Finset.add_sum_erase s g ha, ← Finset.add_sum_erase s f ha,
    Finset.sum_congr rfl fun b hb => h b (Finset.mem_of_mem_erase hb) (Finset.ne_of_mem_erase hb)]
  abel

theorem spaceCells_change (e e' : Entries) (d : Nat) (hi : i < NPDENTRIES)
    (h : ∀ i' < NPDENTRIES, i' ≠ i → tableCells e' d i' = tableCells e d i') :
    spaceCells e' d + tableCells e d i = spaceCells e d + tableCells e' d i := by
  unfold spaceCells
  rw [add_assoc, sum_change (mem_slots.mpr hi) fun i' hi' => h i' (mem_slots.mp hi'), add_assoc]

theorem disjoint_of_nodup_sum {ι α : Type*} [DecidableEq ι] {s : Finset ι} {f : ι → Multiset α}
    (h : (∑ b ∈ s, f b).Nodup) {a b : ι} (ha : a ∈ s) (hb : b ∈ s) (hne : b ≠ a) :
    Disjoint (f a) (f b) := by
  rw [← Finset.add_sum_erase _ _ ha] at h
  have hmem : b ∈ s.erase a := Finset.mem_erase.mpr ⟨hne, hb⟩
  refine Multiset.disjoint_left.mpr fun hf hf' => ?_
  exact Multiset.disjoint_left.mp (Multiset.nodup_add.mp h).2.2 hf (Multiset.mem_sum.mpr ⟨b, hmem, hf'⟩)

theorem dir_notMem_tableCells (hn : (spaceCells e d).Nodup) (hi : i < NPDENTRIES) :
    d ∉ tableCells e d i := by
  rw [spaceCells, Multiset.nodup_add, Multiset.singleton_disjoint, Multiset.mem_sum] at hn
  intro hmem
  exact hn.2.2 ⟨i, mem_slots.mpr hi, hmem⟩

/-- In an address space that owns no page twice a page table is not the directory. -/
theorem table_ne_dir (hn : (spaceCells e d).Nodup) (hi : i < NPDENTRIES) (hp : present (e d i)) :
    PTE_ADDR (e d i) ≠ d := by
  intro heq
  have hmem := mem_tableCells_table hp
  rw [heq] at hmem
  exact dir_notMem_tableCells hn hi hmem

/-- Nor is it in use at two indices. -/
theorem table_ne_table (hn : (spaceCells e d).Nodup) (hi : i < NPDENTRIES) (hp : present (e d i))
    {i' : Nat} (hi' : i' < NPDENTRIES) (hp' : present (e d i')) (hne : i' ≠ i) :
    PTE_ADDR (e d i') ≠ PTE_ADDR (e d i) := by
  rw [spaceCells, Multiset.nodup_add] at hn
  intro heq
  have hdisj := disjoint_of_nodup_sum hn.2.1 (mem_slots.mpr hi) (mem_slots.mpr hi') hne
  have hmem := mem_tableCells_table hp'
  rw [heq] at hmem
  exact Multiset.disjoint_left.mp hdisj (mem_tableCells_table hp) hmem

/-! ### Writing one entry of a page table -/

/-- The entries after entry `j` of page `t` is set to `w`. -/
def setE (e : Entries) (t j w : Nat) : Entries := Function.update e t (Function.update (e t) j w)

theorem setE_of_ne {t f : Nat} (h : f ≠ t) : setE e t j w f = e f := Function.update_of_ne h _ _

theorem setE_self {t : Nat} : setE e t j w t = Function.update (e t) j w := Function.update_self _ _ _

theorem mappedPages_setE {t : Nat} (hj : j < NPTENTRIES) :
    mappedPages (setE e t j w) t + pageOf (e t j) = mappedPages e t + pageOf w := by
  unfold mappedPages
  rw [sum_change (f := fun b => pageOf (e t b)) (mem_slots.mpr hj), setE_self, Function.update_self]
  intro b _ hb
  rw [setE_self, Function.update_of_ne hb]

section Table
variable (hn : (spaceCells e d).Nodup) (hi : i < NPDENTRIES) (hp : present (e d i))
include hn hi hp

theorem setE_dir : setE e (PTE_ADDR (e d i)) j w d = e d := setE_of_ne (table_ne_dir hn hi hp).symm

theorem setE_other {i' : Nat} (hi' : i' < NPDENTRIES) (hne : i' ≠ i) :
    tableCells (setE e (PTE_ADDR (e d i)) j w) d i' = tableCells e d i' :=
  tableCells_congr (congrFun (setE_dir hn hi hp) i') fun hp' => setE_of_ne (table_ne_table hn hi hp hi' hp' hne)

/-- Below `KERNBASE` an entry owns the page it points to. -/
theorem spaceCells_setE_user (hu : i < NUPDENTRIES) (hj : j < NPTENTRIES) :
    spaceCells (setE e (PTE_ADDR (e d i)) j w) d + pageOf (e (PTE_ADDR (e d i)) j) =
      spaceCells e d + pageOf w := by
  have hspace := spaceCells_change e _ d hi fun i' hi' hne => setE_other (j := j) (w := w) hn hi hp hi' hne
  have hmapped := mappedPages_setE (e := e) (w := w) (t := PTE_ADDR (e d i)) hj
  rw [tableCells, tableCells, setE_dir hn hi hp, if_pos hp, if_pos hp, if_pos hu, if_pos hu] at hspace
  refine add_right_cancel (b := {PTE_ADDR (e d i)} + mappedPages e (PTE_ADDR (e d i))) ?_
  calc _ = spaceCells (setE e (PTE_ADDR (e d i)) j w) d +
          ({PTE_ADDR (e d i)} + mappedPages e (PTE_ADDR (e d i))) + pageOf (e (PTE_ADDR (e d i)) j) := by
        abel
    _ = spaceCells e d + {PTE_ADDR (e d i)} +
          (mappedPages (setE e (PTE_ADDR (e d i)) j w) (PTE_ADDR (e d i)) + pageOf (e (PTE_ADDR (e d i)) j)) := by
        rw [hspace]; abel
    _ = _ := by rw [hmapped]; abel

/-- Above it the pages are the kernel's. -/
theorem spaceCells_setE_kernel (hk : NUPDENTRIES ≤ i) :
    spaceCells (setE e (PTE_ADDR (e d i)) j w) d = spaceCells e d := by
  have hspace := spaceCells_change e _ d hi fun i' hi' hne => setE_other (j := j) (w := w) hn hi hp hi' hne
  have hnot : ¬ i < NUPDENTRIES := Nat.not_lt.mpr hk
  rw [tableCells, tableCells, setE_dir hn hi hp, if_pos hp, if_pos hp, if_neg hnot, if_neg hnot] at hspace
  exact add_right_cancel hspace

theorem kernelOnly_setE (hw : NUPDENTRIES ≤ i → present w → ¬ user w) (hk : KernelOnly e d) :
    KernelOnly (setE e (PTE_ADDR (e d i)) j w) d := by
  intro i' hlo hhi
  rw [setE_dir hn hi hp]
  intro hp' b hb
  by_cases hii : i' = i
  · subst hii
    rw [setE_self]
    by_cases hbj : b = j
    · rw [hbj, Function.update_self]
      exact hw hlo
    · rw [Function.update_of_ne hbj]
      exact hk i' hlo hhi hp b hb
  · rw [setE_of_ne (table_ne_table hn hi hp hhi hp' hii)]
    exact hk i' hlo hhi hp' b hb

end Table

theorem spaceCells_of_zero (h : e d = fun _ => 0) : spaceCells e d = {d} := by
  unfold spaceCells
  rw [Finset.sum_eq_zero fun i _ => ?_, add_zero]
  rw [tableCells, h, if_neg not_present_zero]

theorem kernelOnly_of_zero (h : e d = fun _ => 0) : KernelOnly e d := by
  intro i _ _ hp
  rw [h] at hp
  exact absurd hp not_present_zero

/-- The entries after page `t` is zeroed and entered as a page table at index `i` of `d`. -/
def linkE (e : Entries) (d i t w : Nat) : Entries := setE (Function.update e t fun _ => 0) d i w

section Link
variable {t : Nat} (ht : t ∉ spaceCells e d) (hn : (spaceCells e d).Nodup) (hi : i < NPDENTRIES)
include ht

theorem linkE_dir : linkE e d i t w d = Function.update (e d) i w := by
  have hdt : d ≠ t := fun h => ht (h ▸ mem_spaceCells_dir e d)
  rw [linkE, setE_self, Function.update_of_ne hdt]

theorem linkE_new : linkE e d i t w t = fun _ => 0 := by
  have htd : t ≠ d := fun h => ht (h ▸ mem_spaceCells_dir e d)
  rw [linkE, setE_of_ne htd, Function.update_self]

include hn in
theorem linkE_table {i' : Nat} (hi' : i' < NPDENTRIES) (hp : present (e d i')) :
    linkE e d i t w (PTE_ADDR (e d i')) = e (PTE_ADDR (e d i')) := by
  have hne : PTE_ADDR (e d i') ≠ t := fun h => ht (h ▸ mem_spaceCells_table hi' hp)
  rw [linkE, setE_of_ne (table_ne_dir hn hi' hp), Function.update_of_ne hne]

include hn hi in
theorem spaceCells_linkE (habs : ¬ present (e d i)) (hw : present w) (hwt : PTE_ADDR w = t) :
    spaceCells (linkE e d i t w) d = spaceCells e d + {t} := by
  have hspace := spaceCells_change e (linkE e d i t w) d hi fun i' hi' hne => by
    refine tableCells_congr ?_ (linkE_table ht hn hi')
    rw [linkE_dir ht, Function.update_of_ne hne]
  have hempty : mappedPages (linkE e d i t w) t = 0 := by
    unfold mappedPages
    exact Finset.sum_eq_zero fun j _ => by rw [linkE_new ht, pageOf_zero]
  rwa [tableCells, tableCells, if_neg habs, linkE_dir ht, Function.update_self, if_pos hw, hwt, hempty,
    ite_self, add_zero, add_zero] at hspace

include hn in
theorem kernelOnly_linkE (hwt : PTE_ADDR w = t) (hk : KernelOnly e d) :
    KernelOnly (linkE e d i t w) d := by
  intro i' hlo hhi
  rw [linkE_dir ht]
  by_cases hii : i' = i
  · rw [hii, Function.update_self, hwt, linkE_new ht]
    intro _ j _ hp
    exact absurd hp not_present_zero
  · rw [Function.update_of_ne hii]
    intro hp
    rw [linkE_table ht hn hhi hp]
    exact hk i' hlo hhi hp

end Link

end Change

/-! ### Page-table entries as words -/

theorem present_iff (pte : Nat) : present pte ↔ pte % 2 = 1 := by
  rw [present, Nat.testBit_zero, decide_eq_true_iff]

theorem user_iff (pte : Nat) : user pte ↔ pte / 4 % 2 = 1 := by
  rw [user, Nat.testBit_eq_decide_div_mod_eq, decide_eq_true_iff]

/-- A page address and flags do not overlap in an entry. -/
theorem page_or_flags {pa x : Nat} (hpa : pa % PGSIZE = 0) (hx : x < PGSIZE) : pa ||| x = pa + x := by
  have hdiv : pa = 2 ^ 12 * (pa / PGSIZE) := by unfold PGSIZE at *; omega
  rw [hdiv, ← Nat.two_pow_add_eq_or_of_lt hx]

section Entry
variable {pa perm : Nat} (hpa : pa % PGSIZE = 0) (hperm : perm < PGSIZE)
include hpa hperm

theorem entry_eq : pa ||| perm ||| PTE_P = pa + (perm ||| PTE_P) := by
  have hflags : perm ||| PTE_P < PGSIZE := Nat.or_lt_two_pow (n := 12) hperm (by decide)
  rw [Nat.or_assoc, page_or_flags hpa hflags]

theorem PTE_ADDR_entry : PTE_ADDR (pa ||| perm ||| PTE_P) = pa := by
  have hflags : perm ||| PTE_P < PGSIZE := Nat.or_lt_two_pow (n := 12) hperm (by decide)
  rw [entry_eq hpa hperm]
  unfold PTE_ADDR PGSIZE at *
  omega

theorem PTE_FLAGS_entry : PTE_FLAGS (pa ||| perm ||| PTE_P) = perm ||| PTE_P := by
  have hflags : perm ||| PTE_P < PGSIZE := Nat.or_lt_two_pow (n := 12) hperm (by decide)
  rw [entry_eq hpa hperm]
  unfold PTE_FLAGS PGSIZE at *
  omega

theorem user_entry : user (pa ||| perm ||| PTE_P) = user (perm ||| PTE_P) := by
  have hflags : perm ||| PTE_P < PGSIZE := Nat.or_lt_two_pow (n := 12) hperm (by decide)
  rw [entry_eq hpa hperm, Bool.eq_iff_iff, user_iff, user_iff]
  unfold PGSIZE at *
  omega

end Entry

theorem present_or_P (x : Nat) : present (x ||| PTE_P) := by
  rw [present, Nat.testBit_or]
  simp

/-- The entry that `walkpgdir` makes for a new page table. -/
theorem tableEntry {t : Nat} (ht : t % PGSIZE = 0) :
    present (t ||| PTE_P ||| PTE_W ||| PTE_U) ∧ PTE_ADDR (t ||| PTE_P ||| PTE_W ||| PTE_U) = t := by
  have hflags : t ||| PTE_P ||| PTE_W ||| PTE_U = t ||| 6 ||| PTE_P := by
    rw [Nat.or_assoc, Nat.or_assoc, Nat.or_assoc]
    rfl
  rw [hflags]
  exact ⟨present_or_P _, PTE_ADDR_entry ht (by decide)⟩

theorem PTE_ADDR_clearU (pte : Nat) : PTE_ADDR (clearU pte) = PTE_ADDR pte := by
  unfold clearU
  split
  case isTrue h =>
    have := (user_iff pte).mp h
    unfold PTE_ADDR PTE_U PGSIZE
    omega
  case isFalse => rfl

theorem present_clearU (pte : Nat) : present (clearU pte) = present pte := by
  unfold clearU
  split
  case isTrue h =>
    have := (user_iff pte).mp h
    rw [Bool.eq_iff_iff, present_iff, present_iff]
    unfold PTE_U
    omega
  case isFalse => rfl

/-! ### What is mapped -/

section Mapped
variable {d : Nat}

/-- A page is mapped at `va`. -/
def mapped (e : Entries) (d va : Nat) : Bool :=
  present (e d (PDX va)) && present (e (PTE_ADDR (e d (PDX va))) (PTX va))

theorem mapped_eq_true {e : Entries} {va : Nat} : mapped e d va = true ↔
    present (e d (PDX va)) ∧ present (e (PTE_ADDR (e d (PDX va))) (PTX va)) := Bool.and_eq_true_iff

theorem mapped_eq_false {e : Entries} {va : Nat} : mapped e d va = false ↔
    (present (e d (PDX va)) → ¬ present (e (PTE_ADDR (e d (PDX va))) (PTX va))) := by
  rw [← Bool.not_eq_true, mapped_eq_true, not_and]

/-- The page-table entry for `va`, zero where there is no page table. -/
def pteAt (e : Entries) (d va : Nat) : Nat :=
  if present (e d (PDX va)) then e (PTE_ADDR (e d (PDX va))) (PTX va) else 0

theorem pteAt_table {e : Entries} {va : Nat} (h : present (e d (PDX va))) :
    pteAt e d va = e (PTE_ADDR (e d (PDX va))) (PTX va) := if_pos h

theorem pteAt_noTable {e : Entries} {va : Nat} (h : ¬ present (e d (PDX va))) : pteAt e d va = 0 := if_neg h

theorem table_of_pteAt {e : Entries} {va : Nat} (h : present (pteAt e d va)) : present (e d (PDX va)) := by
  by_contra hno
  rw [pteAt_noTable hno] at h
  exact not_present_zero h

theorem mapped_eq (e : Entries) (d va : Nat) : mapped e d va = present (pteAt e d va) := by
  unfold mapped
  by_cases h : present (e d (PDX va))
  · rw [pteAt_table h, h, Bool.true_and]
  · rw [pteAt_noTable h, Bool.eq_false_iff.mpr h, Bool.eq_false_iff.mpr not_present_zero, Bool.false_and]

/-- Two addresses with one page-table entry. -/
def SamePage (va a : Nat) : Prop := PDX va = PDX a ∧ PTX va = PTX a

instance (va a : Nat) : Decidable (SamePage va a) := inferInstanceAs (Decidable (_ ∧ _))

theorem samePage_iff {va a : Nat} (hva : va < WORD) (ha : a < WORD) :
    SamePage va a ↔ va / PGSIZE = a / PGSIZE := by
  unfold SamePage PDX PTX PGSIZE WORD at *
  omega

theorem pteAt_of_samePage {e : Entries} {va a : Nat} (h : SamePage va a) : pteAt e d va = pteAt e d a := by
  unfold pteAt
  rw [h.1, h.2]

/-- The entries depend on the directory and the page tables only. -/
theorem pteAt_congr {e e' : Entries} (hd : e' d = e d)
    (ht : ∀ i < NPDENTRIES, present (e d i) → e' (PTE_ADDR (e d i)) = e (PTE_ADDR (e d i))) :
    pteAt e' d = pteAt e d := by
  funext va
  unfold pteAt
  rw [hd]
  by_cases hp : present (e d (PDX va))
  · rw [if_pos hp, if_pos hp, ht _ (PDX_lt va) hp]
  · rw [if_neg hp, if_neg hp]

theorem pteAt_frame {e e' : Entries} (h : ∀ f ∈ spaceCells e d, e' f = e f) : pteAt e' d = pteAt e d :=
  pteAt_congr (h d (mem_spaceCells_dir e d)) fun _ hi hp => h _ (mem_spaceCells_table hi hp)

/-- The page tables of directory `d` are pages of their own. -/
structure Tabled (e : Entries) (d : Nat) : Prop where
  ne_dir : ∀ i < NPDENTRIES, present (e d i) → PTE_ADDR (e d i) ≠ d
  ne_table : ∀ i < NPDENTRIES, ∀ i' < NPDENTRIES, present (e d i) → present (e d i') → i' ≠ i →
    PTE_ADDR (e d i') ≠ PTE_ADDR (e d i)

theorem tabled_of_nodup {e : Entries} (hn : (spaceCells e d).Nodup) : Tabled e d :=
  ⟨fun _ hi hp => table_ne_dir hn hi hp, fun _ hi _ hi' hp hp' hne => table_ne_table hn hi hp hi' hp' hne⟩

/-- Writing the entry of one page leaves the others as they are. -/
theorem Tabled.pteAt_setE {e : Entries} {a w : Nat} (ht : Tabled e d) (hp : present (e d (PDX a)))
    (va : Nat) : pteAt (setE e (PTE_ADDR (e d (PDX a))) (PTX a) w) d va =
      if SamePage va a then w else pteAt e d va := by
  have hdir : setE e (PTE_ADDR (e d (PDX a))) (PTX a) w d = e d := setE_of_ne (ht.ne_dir _ (PDX_lt a) hp).symm
  unfold pteAt
  rw [hdir]
  by_cases hi : PDX va = PDX a
  · rw [hi, if_pos hp, if_pos hp, setE_self]
    by_cases hj : PTX va = PTX a
    · rw [if_pos ⟨hi, hj⟩, hj, Function.update_self]
    · rw [if_neg fun h => hj h.2, Function.update_of_ne hj]
  · have hne : ¬ SamePage va a := fun h => hi h.1
    rw [if_neg hne]
    by_cases hpva : present (e d (PDX va))
    · rw [if_pos hpva, if_pos hpva, setE_of_ne (ht.ne_table _ (PDX_lt a) _ (PDX_lt va) hp hpva hi)]
    · rw [if_neg hpva, if_neg hpva]

theorem pteAt_setE {e : Entries} {a w : Nat} (hn : (spaceCells e d).Nodup) (hp : present (e d (PDX a)))
    (va : Nat) : pteAt (setE e (PTE_ADDR (e d (PDX a))) (PTX a) w) d va =
      if SamePage va a then w else pteAt e d va := (tabled_of_nodup hn).pteAt_setE hp va

theorem mapped_setE {e : Entries} {a w : Nat} (hn : (spaceCells e d).Nodup) (hp : present (e d (PDX a)))
    (va : Nat) : mapped (setE e (PTE_ADDR (e d (PDX a))) (PTX a) w) d va =
      if SamePage va a then present w else mapped e d va := by
  rw [mapped_eq, mapped_eq, pteAt_setE hn hp va]
  exact apply_ite present _ _ _

/-- A new page table has no entries. -/
theorem Tabled.pteAt_linkE {e : Entries} {i t w : Nat} (htab : Tabled e d) (htd : t ≠ d)
    (hfresh : ∀ i < NPDENTRIES, present (e d i) → PTE_ADDR (e d i) ≠ t) (habs : ¬ present (e d i))
    (hwt : PTE_ADDR w = t) : pteAt (linkE e d i t w) d = pteAt e d := by
  have hdir : linkE e d i t w d = Function.update (e d) i w := by
    rw [linkE, setE_self, Function.update_of_ne htd.symm]
  funext va
  unfold pteAt
  rw [hdir]
  by_cases hi : PDX va = i
  · have hnew : linkE e d i t w t = fun _ => 0 := by
      rw [linkE, setE_of_ne htd, Function.update_self]
    rw [hi, Function.update_self, hwt, hnew, if_neg habs, ite_self]
  · rw [Function.update_of_ne hi]
    by_cases hp : present (e d (PDX va))
    · rw [if_pos hp, if_pos hp, linkE, setE_of_ne (htab.ne_dir _ (PDX_lt va) hp),
        Function.update_of_ne (hfresh _ (PDX_lt va) hp)]
    · rw [if_neg hp, if_neg hp]

theorem pteAt_linkE {e : Entries} {i t w : Nat} (ht : t ∉ spaceCells e d) (hn : (spaceCells e d).Nodup)
    (habs : ¬ present (e d i)) (hwt : PTE_ADDR w = t) : pteAt (linkE e d i t w) d = pteAt e d := by
  refine (tabled_of_nodup hn).pteAt_linkE ?_ ?_ habs hwt
  · exact fun h => ht (h ▸ mem_spaceCells_dir e d)
  · exact fun i hi hp h => ht (h ▸ mem_spaceCells_table hi hp)

theorem mapped_linkE {e : Entries} {i t w : Nat} (ht : t ∉ spaceCells e d) (hn : (spaceCells e d).Nodup)
    (habs : ¬ present (e d i)) (hwt : PTE_ADDR w = t) : mapped (linkE e d i t w) d = mapped e d := by
  funext va
  rw [mapped_eq, mapped_eq, pteAt_linkE ht hn habs hwt]

/-- The page behind an entry below `KERNBASE` belongs to the address space. -/
theorem mem_tableCells_page {e : Entries} {va f : Nat} (hu : PDX va < NUPDENTRIES)
    (hp : present (e d (PDX va))) (hf : f ∈ pageOf (e (PTE_ADDR (e d (PDX va))) (PTX va))) :
    f ∈ tableCells e d (PDX va) := by
  rw [tableCells, if_pos hp, if_pos hu]
  refine Multiset.mem_add.mpr (.inr (Multiset.mem_sum.mpr ⟨PTX va, mem_slots.mpr (PTX_lt va), hf⟩))

/-- Inside one address space a page is mapped at one address. -/
theorem mapped_once {e : Entries} {va va' f : Nat} (hn : (spaceCells e d).Nodup) (hva : va < WORD)
    (hva' : va' < WORD) (hu : PDX va < NUPDENTRIES) (hu' : PDX va' < NUPDENTRIES)
    (hp : present (e d (PDX va))) (hp' : present (e d (PDX va')))
    (hf : f ∈ pageOf (e (PTE_ADDR (e d (PDX va))) (PTX va)))
    (hf' : f ∈ pageOf (e (PTE_ADDR (e d (PDX va'))) (PTX va'))) : va / PGSIZE = va' / PGSIZE := by
  have hsum := hn
  unfold spaceCells at hsum
  rw [Multiset.nodup_add] at hsum
  have hpd : PDX va' = PDX va := by
    by_contra hne
    have hdisj := disjoint_of_nodup_sum hsum.2.1 (mem_slots.mpr (PDX_lt va)) (mem_slots.mpr (PDX_lt va')) hne
    exact Multiset.disjoint_left.mp hdisj (mem_tableCells_page hu hp hf) (mem_tableCells_page hu' hp' hf')
  have hpt : PTX va' = PTX va := by
    by_contra hne
    have htab : (tableCells e d (PDX va)).Nodup := by
      refine Multiset.nodup_of_le ?_ hsum.2.1
      exact Finset.single_le_sum (fun _ _ => Multiset.zero_le _) (mem_slots.mpr (PDX_lt va))
    rw [tableCells, if_pos hp, if_pos hu, Multiset.nodup_add] at htab
    have hdisj := disjoint_of_nodup_sum htab.2.1 (mem_slots.mpr (PTX_lt va)) (mem_slots.mpr (PTX_lt va')) hne
    rw [hpd] at hf'
    exact Multiset.disjoint_left.mp hdisj hf hf'
  unfold PDX PTX WORD PGSIZE at *
  omega

theorem pageOf_pteAt {e : Entries} {va : Nat} (h : present (pteAt e d va)) : present (e d (PDX va)) ∧
    PTE_ADDR (pteAt e d va) ∈ pageOf (e (PTE_ADDR (e d (PDX va))) (PTX va)) := by
  have ht := table_of_pteAt h
  rw [pteAt_table ht] at h ⊢
  rw [pageOf_present h]
  exact ⟨ht, Multiset.mem_singleton_self _⟩

theorem mem_spaceCells_page {e : Entries} {va : Nat} (hva : va < KERNBASE) (h : present (pteAt e d va)) :
    PTE_ADDR (pteAt e d va) ∈ spaceCells e d := by
  obtain ⟨ht, hf⟩ := pageOf_pteAt h
  exact mem_spaceCells.mpr (.inr ⟨PDX va, PDX_lt va, mem_tableCells_page (PDX_user hva) ht hf⟩)

/-- Two pages below `KERNBASE` are behind different frames. -/
theorem page_ne_page {e : Entries} {va va' : Nat} (hn : (spaceCells e d).Nodup) (hva : va < KERNBASE)
    (hva' : va' < KERNBASE) (h : present (pteAt e d va)) (h' : present (pteAt e d va'))
    (hne : ¬ SamePage va' va) : PTE_ADDR (pteAt e d va') ≠ PTE_ADDR (pteAt e d va) := by
  intro heq
  obtain ⟨ht, hf⟩ := pageOf_pteAt h
  obtain ⟨ht', hf'⟩ := pageOf_pteAt h'
  rw [heq] at hf'
  have hw : va < WORD := lt_trans hva (by decide)
  have hw' : va' < WORD := lt_trans hva' (by decide)
  exact hne ((samePage_iff hw' hw).mpr (mapped_once hn hw hw' (PDX_user hva) (PDX_user hva') ht ht' hf hf').symm)

end Mapped

/-! ### The page tables of a directory -/

section Tables
variable {d : Nat}

/-- The page directory and the page tables it has from index `i` on. -/
def dirTables (e : Entries) (d i : Nat) : Multiset Nat :=
  {d} + ∑ b ∈ slots.filter (i ≤ ·), pageOf (e d b)

def tablesFrom (d i : Nat) : Region Nat (Nat → Nat) where
  cells e := dirTables e d i
  sound _ := True
  frame e e' h := by
    have hd : e' d = e d := h d (Multiset.mem_add.mpr (.inl (Multiset.mem_singleton_self d)))
    exact ⟨by unfold dirTables; rw [hd], id⟩

theorem dirTables_succ {e : Entries} {i : Nat} (hi : i < NPDENTRIES) :
    dirTables e d i = pageOf (e d i) + dirTables e d (i + 1) := by
  have hsplit : slots.filter (i ≤ ·) = insert i (slots.filter (i + 1 ≤ ·)) := by
    ext b
    rw [Finset.mem_insert, Finset.mem_filter, Finset.mem_filter, mem_slots]
    unfold NPTENTRIES NPDENTRIES at *
    omega
  unfold dirTables
  rw [hsplit, Finset.sum_insert fun h => by
    have := (Finset.mem_filter.mp h).2
    omega]
  abel

theorem dirTables_end {e : Entries} : dirTables e d NPDENTRIES = {d} := by
  have hnone : slots.filter (NPDENTRIES ≤ ·) = ∅ := by
    ext b
    rw [Finset.mem_filter, mem_slots]
    exact ⟨fun h => absurd h.1 (Nat.not_lt.mpr h.2), fun h => absurd h (Finset.notMem_empty b)⟩
  unfold dirTables
  rw [hnone, Finset.sum_empty, add_zero]

theorem address_of_indices {i j : Nat} (hi : i < NUPDENTRIES) (hj : j < NPTENTRIES) :
    i * 2 ^ 22 + j * 2 ^ 12 < KERNBASE ∧ PDX (i * 2 ^ 22 + j * 2 ^ 12) = i ∧
      PTX (i * 2 ^ 22 + j * 2 ^ 12) = j := by
  unfold PDX PTX KERNBASE NUPDENTRIES NPTENTRIES at *
  omega

/-- With no user page left, an address space is its directory and its page tables. -/
theorem spaceCells_unmapped {e : Entries} (h : ∀ va < KERNBASE, mapped e d va = false) :
    spaceCells e d = dirTables e d 0 := by
  have hall : slots.filter (0 ≤ ·) = slots := Finset.filter_true_of_mem fun _ _ => Nat.zero_le _
  unfold spaceCells dirTables
  rw [hall]
  refine congrArg _ (Finset.sum_congr rfl fun i hi => ?_)
  unfold tableCells pageOf
  split
  case isFalse => rfl
  case isTrue hp =>
    have hempty : i < NUPDENTRIES → mappedPages e (PTE_ADDR (e d i)) = 0 := by
      intro hu
      refine Finset.sum_eq_zero fun j hj => pageOf_absent ?_
      obtain ⟨hlt, hpd, hpt⟩ := address_of_indices hu (mem_slots.mp hj)
      have hun := mapped_eq_false.mp (h (i * 2 ^ 22 + j * 2 ^ 12) hlt)
      rw [hpd, hpt] at hun
      exact hun hp
    split
    case isTrue hu => rw [hempty hu, add_zero]
    case isFalse => rw [add_zero]

end Tables

/-! ### The accounts -/

/-- A page frame the allocator may hold. -/
def IsFrame (L : Layout) (f : Nat) : Prop := f % PGSIZE = 0 ∧ L.endp ≤ f ∧ f < PHYSTOP

/-- All frames of the total `T` are owned once: by `A`, or by the free list. -/
def Acct (T : Multiset Nat) (A : Region Nat (Nat → Nat)) (k : Kmem) : Prop :=
  Balanced T A k.mem.entry k.freelist

/-- The messages a run may stop with: `kfree` accepts every page it is given. -/
def Stops (e : String) : Prop := e ≠ "kfree"

instance : DecidablePred Stops := fun e => inferInstanceAs (Decidable (e ≠ "kfree"))

@[simp] theorem Kmem.setMem_mem (k : Kmem) (f : Mem → Mem) : (k.setMem f).mem = f k.mem := rfl
@[simp] theorem Kmem.setMem_freelist (k : Kmem) (f : Mem → Mem) : (k.setMem f).freelist = k.freelist := rfl

theorem Mem.setEntry_entry (m : Mem) (t i w : Nat) : (m.setEntry t i w).entry = setE m.entry t i w := rfl

section Steps
variable {L : Layout} {d : Nat}

theorem kalloc_run (k : Kmem) : (∃ ds, kalloc.run k = .ok (none, { k with deny := ds })) ∨
    ∃ r rs, k.freelist = r :: rs ∧
      kalloc.run k = .ok (some r, { k with freelist := rs, deny := k.deny.tail }) := by
  rcases k with ⟨m, free, deny⟩
  cases free with
  | nil =>
    rcases deny with _ | ⟨_ | _, ds⟩
    · exact .inl ⟨[], rfl⟩
    · exact .inl ⟨ds, rfl⟩
    · exact .inl ⟨ds, rfl⟩
  | cons r rs =>
    rcases deny with _ | ⟨_ | _, ds⟩
    · exact .inr ⟨r, rs, rfl, rfl⟩
    · exact .inr ⟨r, rs, rfl, rfl⟩
    · exact .inl ⟨ds, rfl⟩

theorem kfree_run {v : Nat} {k : Kmem} (hv : IsFrame L v) :
    (kfree L v).run k = .ok ((), { k.setMem (·.fill v 1) with freelist := v :: k.freelist }) := by
  have htest : ¬ (v % PGSIZE ≠ 0 ∨ v < L.endp ∨ PHYSTOP ≤ v) := by
    unfold IsFrame at hv
    omega
  rw [kfree, if_neg htest]
  rfl

theorem walkpgdir_eq_some {m : Mem} {va t i : Nat} (h : walkpgdir m d va = some (t, i)) :
    present (m.entry d (PDX va)) ∧ t = PTE_ADDR (m.entry d (PDX va)) ∧ i = PTX va := by
  unfold walkpgdir at h
  split at h
  case isTrue hp =>
    obtain ⟨rfl, rfl⟩ := Prod.mk.inj (Option.some.inj h)
    exact ⟨hp, rfl, rfl⟩
  case isFalse => cases h

theorem walkpgdir_eq_none {m : Mem} {va : Nat} (h : walkpgdir m d va = none) :
    ¬ present (m.entry d (PDX va)) := by
  intro hp
  rw [walkpgdir, if_pos hp] at h
  cases h

theorem mappages_one {a pg perm : Nat} (ha : a % PGSIZE = 0) (hlt : a < KERNBASE) :
    mappages d a PGSIZE pg perm = mapLoop d perm 0 a pg := by
  have hdown : PGROUNDDOWN a = a := PGROUNDDOWN_of_aligned ha
  have hlast : PGROUNDDOWN ((a + PGSIZE + WORD - 1) % WORD) = a := by
    have hmod : (a + PGSIZE + WORD - 1) % WORD = a + (PGSIZE - 1) := by
      unfold PGSIZE WORD KERNBASE at *
      omega
    rw [hmod, PGROUNDDOWN_add (by rw [ha]; decide), hdown]
  have hturns : (a + WORD - a) % WORD / PGSIZE = 0 := by unfold WORD PGSIZE; omega
  rw [mappages, hdown, hlast, hturns]

theorem setE_update_comm {e : Entries} {v t i w : Nat} {junk : Nat → Nat} (hvt : v ≠ t) :
    setE (Function.update e v junk) t i w = Function.update (setE e t i w) v junk := by
  unfold setE
  rw [Function.update_of_ne hvt.symm, Function.update_comm hvt]

theorem PGADDR_next {a : Nat} (ha : a % PGSIZE = 0) (hlt : a < KERNBASE) :
    PGADDR (PDX a + 1) 0 0 = (a / 2 ^ 22 + 1) * 2 ^ 22 := by
  unfold PGADDR PDX PGSIZE KERNBASE WORD at *
  rw [Nat.zero_mul, Nat.or_zero, Nat.or_zero]
  omega

theorem le_pagesIn (a b : Nat) : b ≤ a + pagesIn a b * PGSIZE := by
  unfold pagesIn PGSIZE
  omega

/-- Where the pages end that `allocuvm` adds. -/
theorem PGROUNDUP_grow {oldsz newsz : Nat} (h : oldsz ≤ newsz) (hnew : newsz < KERNBASE) :
    PGROUNDUP oldsz + pagesIn (PGROUNDUP oldsz) newsz * PGSIZE = PGROUNDUP newsz := by
  unfold pagesIn PGROUNDUP PGSIZE WORD KERNBASE at *
  omega

theorem lt_of_pagesIn {a b i : Nat} (h : i < pagesIn a b) : a + i * PGSIZE < b := by
  unfold pagesIn PGSIZE at *
  omega

end Steps

end Chameleon.Vm
