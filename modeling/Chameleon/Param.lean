import Mathlib.Algebra.Ring.Nat

/-! The constants of `param.h`. -/

namespace Chameleon

/-- Maximum number of processes. -/
abbrev NPROC : Nat := 64
/-- Maximum number of CPUs. -/
abbrev NCPU : Nat := 8
/-- Open files per process. -/
abbrev NOFILE : Nat := 16
/-- Open files per system. -/
abbrev NFILE : Nat := 100
/-- Maximum number of active inodes. -/
abbrev NINODE : Nat := 50
/-- Maximum major device number. -/
abbrev NDEV : Nat := 10
/-- Maximum number of blocks any file-system operation writes. -/
abbrev MAXOPBLOCKS : Nat := 10
/-- Maximum number of data blocks in the on-disk log. -/
abbrev LOGSIZE : Nat := MAXOPBLOCKS * 3
/-- Size of the disk block cache. -/
abbrev NBUF : Nat := MAXOPBLOCKS * 3
/-- Size of the file system in blocks. -/
abbrev FSSIZE : Nat := 1000
/-- Device number of the file-system root disk. -/
abbrev ROOTDEV : Nat := 1

instance : NeZero NPROC := ⟨Nat.succ_ne_zero 63⟩

instance : NeZero NCPU := ⟨Nat.succ_ne_zero 7⟩

instance : NeZero NBUF := ⟨Nat.succ_ne_zero 29⟩

end Chameleon
