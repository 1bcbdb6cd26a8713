import Mathlib.Data.Nat.Bitwise

/-! The address arithmetic of `mmu.h` and `memlayout.h`. Addresses and page-table entries are
32-bit words, written as naturals; sums that can wrap are reduced modulo `2 ^ 32` where the
code computes them. -/

namespace Chameleon.Vm

/-- The number of 32-bit words. -/
abbrev WORD : Nat := 2 ^ 32

abbrev PGSIZE : Nat := 4096
abbrev NPDENTRIES : Nat := 1024
abbrev NPTENTRIES : Nat := 1024

abbrev EXTMEM : Nat := 0x100000
abbrev PHYSTOP : Nat := 0xE000000
abbrev DEVSPACE : Nat := 0xFE000000
abbrev KERNBASE : Nat := 0x80000000
abbrev KERNLINK : Nat := KERNBASE + EXTMEM

/-- Page directory index. -/
def PDX (va : Nat) : Nat := va / 2 ^ 22 % 1024

/-- Page table index. -/
def PTX (va : Nat) : Nat := va / 2 ^ 12 % 1024

/-- The address with page directory index `d`, page table index `t` and offset `o`. -/
def PGADDR (d t o : Nat) : Nat := (d * 2 ^ 22 ||| t * 2 ^ 12 ||| o) % WORD

def PGROUNDUP (sz : Nat) : Nat := (sz + (PGSIZE - 1)) % WORD / PGSIZE * PGSIZE

def PGROUNDDOWN (a : Nat) : Nat := a / PGSIZE * PGSIZE

/-- The flag bits of an entry, as masks. -/
abbrev PTE_P : Nat := 1
abbrev PTE_W : Nat := 2
abbrev PTE_U : Nat := 4

/-- `*pte & PTE_P` is non-zero. -/
def present (pte : Nat) : Bool := pte.testBit 0

/-- `*pte & PTE_U` is non-zero. -/
def user (pte : Nat) : Bool := pte.testBit 2

def PTE_ADDR (pte : Nat) : Nat := pte / PGSIZE * PGSIZE

def PTE_FLAGS (pte : Nat) : Nat := pte % PGSIZE

theorem PGROUNDUP_mod (sz : Nat) : PGROUNDUP sz % PGSIZE = 0 := Nat.mul_mod_left _ _

theorem PGROUNDUP_le {sz : Nat} (h : sz ≤ KERNBASE) : PGROUNDUP sz ≤ KERNBASE ∧ sz ≤ PGROUNDUP sz := by
  unfold PGROUNDUP PGSIZE WORD KERNBASE at *
  omega

theorem PGROUNDUP_lt {sz : Nat} (h : sz ≤ KERNBASE) : PGROUNDUP sz < sz + PGSIZE := by
  unfold PGROUNDUP PGSIZE WORD KERNBASE at *
  omega

theorem PGROUNDUP_mono {a b : Nat} (h : a ≤ b) (hb : b ≤ KERNBASE) : PGROUNDUP a ≤ PGROUNDUP b := by
  unfold PGROUNDUP PGSIZE WORD KERNBASE at *
  omega

theorem PGROUNDDOWN_add_mod (a : Nat) : PGROUNDDOWN a + a % PGSIZE = a := by
  unfold PGROUNDDOWN; exact Nat.div_add_mod' a PGSIZE

theorem PGROUNDDOWN_of_aligned {a : Nat} (h : a % PGSIZE = 0) : PGROUNDDOWN a = a := by
  have := PGROUNDDOWN_add_mod a; omega

theorem sub_PGROUNDDOWN (a : Nat) : a - PGROUNDDOWN a = a % PGSIZE := by
  have := PGROUNDDOWN_add_mod a; omega

theorem PGROUNDDOWN_add {a i : Nat} (h : a % PGSIZE + i < PGSIZE) :
    PGROUNDDOWN (a + i) = PGROUNDDOWN a := by
  unfold PGROUNDDOWN PGSIZE at *; omega

theorem PDX_lt (va : Nat) : PDX va < NPDENTRIES := Nat.mod_lt _ (by decide)

theorem PTX_lt (va : Nat) : PTX va < NPTENTRIES := Nat.mod_lt _ (by decide)

theorem PDX_PGROUNDDOWN (a : Nat) : PDX (PGROUNDDOWN a) = PDX a := by
  unfold PDX PGROUNDDOWN PGSIZE; omega

theorem PTX_PGROUNDDOWN (a : Nat) : PTX (PGROUNDDOWN a) = PTX a := by
  unfold PTX PGROUNDDOWN PGSIZE; omega

end Chameleon.Vm
