import Mathlib.Logic.Function.Basic
import Mathlib.Data.Fintype.Basic
import Chameleon.Param
import Chameleon.Lib.Bytes

/-! What the disk holds: dinodes, the free bitmap and the data blocks, read as files and
directories. The buffer cache and the log do not appear, since a cached block is what was last
written to it; the dinodes and the bits of the map are kept apart from the data blocks. -/

namespace Chameleon.Fs

/-- Root i-number. -/
abbrev ROOTINO : Nat := 1
/-- Block size. -/
abbrev BSIZE : Nat := 512
/-- Inodes per block. -/
abbrev IPB : Nat := BSIZE / 64
abbrev NDIRECT : Nat := 12
/-- `BSIZE / sizeof(uint)`. -/
abbrev NINDIRECT : Nat := 128
abbrev MAXFILE : Nat := NDIRECT + NINDIRECT
/-- Bitmap bits per block. -/
abbrev BPB : Nat := BSIZE * 8
/-- Directory is a file containing a sequence of dirent structures. -/
abbrev DIRSIZ : Nat := 14
/-- `sizeof(struct dirent)`. -/
abbrev DESIZE : Nat := 16
/-- Major number of the console. -/
abbrev CONSOLE : Int := 1

/-- What the code reads of the superblock, and the number of blocks before the data blocks. -/
structure Super where
  size : Nat
  ninodes : Nat
  nmeta : Nat
  pos : 0 < nmeta
  fits : size < 2 ^ 32

/-- The `type` of a dinode: 0, `T_DIR`, `T_FILE` or `T_DEV`. -/
inductive Kind
  | free
  | dir
  | file
  | dev
deriving DecidableEq

structure Dinode where
  type : Kind
  major : BitVec 16
  minor : BitVec 16
  nlink : BitVec 16
  size : Nat
  addrs : Fin (NDIRECT + 1) → Nat

/-- `memset(dip, 0, sizeof(*dip))`. -/
def Dinode.zero : Dinode := ⟨.free, 0, 0, 0, 0, fun _ => 0⟩

abbrev Block := Nat → UInt8

structure Disk where
  dino : Nat → Dinode
  bit : Nat → Bool
  data : Nat → Block

/-- Word `j` of a block, as a `uint`. -/
def word (a : Block) (j : Nat) : Nat := Bytes.number (Bytes.slice a (4 * j) 4)

/-- A block with word `j` overwritten. -/
def putWord (a : Block) (j w : Nat) : Block := Bytes.store a (4 * j) (Bytes.le 4 w)

theorem word_putWord_self (a : Block) (j : Nat) {w : Nat} (h : w < 2 ^ 32) :
    word (putWord a j w) j = w := by
  have hs := Bytes.slice_store a (4 * j) (Bytes.le 4 w)
  rw [Bytes.length_le] at hs
  rw [word, putWord, hs, Bytes.number_le]
  exact Nat.mod_eq_of_lt h

theorem word_putWord_of_ne (a : Block) {j k : Nat} (w : Nat) (h : k ≠ j) :
    word (putWord a j w) k = word a k := by
  rw [word, putWord, Bytes.slice_store_of_disjoint, word]
  rw [Bytes.length_le]
  omega

/-- A place that may hold a block number: a direct or the indirect slot of the dinode, or an entry
of the indirect block. -/
inductive Slot
  | addr (k : Fin (NDIRECT + 1))
  | entry (j : Fin NINDIRECT)
deriving DecidableEq

/-- The slot of the indirect block. -/
abbrev indirect : Fin (NDIRECT + 1) := Fin.last NDIRECT

/-- The block numbers that a dinode and its indirect block hold. -/
def refs (data : Nat → Block) (d : Dinode) : Slot → Nat
  | .addr k => d.addrs k
  | .entry j => if d.addrs indirect = 0 then 0 else word (data (d.addrs indirect)) j

/-- The slot for block `bn` of a file. -/
def slotOf (bn : Nat) : Option Slot :=
  if h : bn < NDIRECT then some (.addr ⟨bn, Nat.lt_succ_of_lt h⟩)
  else if h : bn - NDIRECT < NINDIRECT then some (.entry ⟨bn - NDIRECT, h⟩)
  else none

/-- Byte `k` of the file whose blocks are in the slots `r`; a block that is not there reads as
zeros. -/
def content (data : Nat → Block) (r : Slot → Nat) (k : Nat) : UInt8 :=
  match slotOf (k / BSIZE) with
  | some sl => if r sl = 0 then 0 else data (r sl) (k % BSIZE)
  | none => 0

/-- The bytes of the file that a dinode describes. -/
def Disk.file (D : Disk) (d : Dinode) : Nat → UInt8 := content D.data (refs D.data d)

section Directories

/-- `struct dirent`. -/
structure Dirent where
  inum : Nat
  name : List UInt8

def Dirent.ofBytes (bs : List UInt8) : Dirent := ⟨Bytes.number (bs.take 2), bs.drop 2⟩

def Dirent.bytes (de : Dirent) : List UInt8 := Bytes.le 2 de.inum ++ de.name

/-- The entry at offset `off` of a directory's content. -/
def direntAt (c : Nat → UInt8) (off : Nat) : Dirent := .ofBytes (Bytes.slice c off DESIZE)

/-- `strncmp`; a string that has ended goes on with zeros. -/
def strncmp : Nat → List UInt8 → List UInt8 → Int
  | 0, _, _ => 0
  | n + 1, p, q =>
    if p.headD 0 ≠ 0 ∧ p.headD 0 = q.headD 0 then strncmp n p.tail q.tail
    else (p.headD 0).toNat - (q.headD 0).toNat

/-- The `n` bytes that `strncpy` writes. -/
def strncpy : Nat → List UInt8 → List UInt8
  | 0, _ => []
  | n + 1, t => if t.headD 0 = 0 then List.replicate (n + 1) 0 else t.headD 0 :: strncpy n t.tail

def namecmp (s t : List UInt8) : Int := strncmp DIRSIZ s t

/-- `'/'`. -/
abbrev slash : UInt8 := 47

/-- `"."` -/
abbrev dot : List UInt8 := [46]

/-- `".."` -/
abbrev dotdot : List UInt8 := [46, 46]

/-- The next path element, cut to `DIRSIZ` bytes, and the rest of the path after its slashes. -/
def skipelem (path : List UInt8) : Option (List UInt8 × List UInt8) :=
  let path := path.dropWhile (· = slash)
  if path.headD 0 = 0 then none
  else
    let elem := path.takeWhile fun c => c ≠ slash ∧ c ≠ 0
    let rest := path.dropWhile fun c => c ≠ slash ∧ c ≠ 0
    some (elem.take DIRSIZ, rest.dropWhile (· = slash))

end Directories

end Chameleon.Fs
