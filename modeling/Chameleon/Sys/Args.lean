import Mathlib.Data.BitVec
import Chameleon.Vm.Isolation

/-! The functions of `syscall.c` that fetch arguments from user memory, and the system calls
that hand user buffers to the kernel. All words have 32 bits, so every sum wraps where the code's
does. A return of -1 is `none`. -/

namespace Chameleon.Sys
open Ptable (Slot)
open Vm (KERNBASE MAXARG PGSIZE WORD)

abbrev Word := BitVec 32

/-- What the kernel sees of the process that makes a system call. -/
structure Caller where
  sz : Word
  /-- `tf->esp`, which the user chooses. -/
  esp : Word
  /-- The bytes of the user's memory. -/
  mem : Word → UInt8
  /-- Which entries of `ofile` are not 0. -/
  ofile : Fin NOFILE → Bool

/-- `*(int*)(addr)` -/
def Caller.word (c : Caller) (addr : Word) : Word :=
  (c.mem (addr + 3)).toBitVec ++ (c.mem (addr + 2)).toBitVec ++ (c.mem (addr + 1)).toBitVec ++
    (c.mem addr).toBitVec

/-- The `n` bytes from `a` on lie below the size of the caller, without passing `2 ^ 32`. -/
def Inside (c : Caller) (a : Word) (n : Nat) : Prop := a.toNat + n ≤ c.sz.toNat

section
variable {c : Caller} (hsz : c.sz.toNat < KERNBASE)
include hsz

end

section
variable {c : Caller} (hsz : c.sz.toNat < KERNBASE)
include hsz

end

/-- The word at physical address `a`. -/
def wordAt (m : Vm.Mem) (a : Nat) : Nat := Bytes.number (Bytes.slice m.byte a 4)

end Chameleon.Sys
