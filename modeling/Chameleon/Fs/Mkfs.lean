import Chameleon.Lib.Hoare
import Chameleon.Fs.Disk

/-! `mkfs.c`. The image is a file of sectors; a program that stops with a message is a failed assertion or
an exit with an error. The history records which part of the program wrote which sector, the block numbers
that were stored in inodes and indirect blocks, and the inode numbers that were used. -/

namespace Chameleon.Mkfs
open Fs

abbrev NINODES : Nat := 200
abbrev nbitmap : Nat := FSSIZE / (BSIZE * 8) + 1
abbrev ninodeblocks : Nat := NINODES / IPB + 1
abbrev nlog : Nat := LOGSIZE
abbrev inodestart : Nat := 2 + nlog
abbrev bmapstart : Nat := 2 + nlog + ninodeblocks
abbrev nmeta : Nat := 2 + nlog + ninodeblocks + nbitmap
abbrev T_DIR : Nat := 1
abbrev T_FILE : Nat := 2

def IBLOCK (inum : Nat) : Nat := inum / IPB + inodestart

/-- `struct dinode`, field by field. -/
structure Dino where
  type : Nat
  major : Nat
  minor : Nat
  nlink : Nat
  size : Nat
  addrs : Fin (NDIRECT + 1) → Nat

/-- Its sixteen words. -/
def Dino.words (d : Dino) : List Nat :=
  [d.type + 2 ^ 16 * d.major, d.minor + 2 ^ 16 * d.nlink, d.size] ++ (List.finRange (NDIRECT + 1)).map d.addrs

def Dino.bytes (d : Dino) : List UInt8 := d.words.flatMap (Bytes.le 4)

/-- Dinode `k` of a block. -/
def Dino.ofBlock (a : Block) (k : Nat) : Dino where
  type := word a (16 * k) % 2 ^ 16
  major := word a (16 * k) / 2 ^ 16
  minor := word a (16 * k + 1) % 2 ^ 16
  nlink := word a (16 * k + 1) / 2 ^ 16
  size := word a (16 * k + 2)
  addrs j := word a (16 * k + 3 + j)

inductive Part
  | zero
  | super
  | inode
  | data
  | bitmap
deriving DecidableEq

structure State where
  sect : Nat → Block
  /-- The length of the image in sectors. -/
  len : Nat
  freeinode : Nat
  freeblock : Nat
  writes : List (Part × Nat)
  stored : List Nat
  inums : List Nat

abbrev M := Hoare.Prog State

section Sectors

def wsect (part : Part) (sec : Nat) (a : Block) : M Unit :=
  modify fun s => { s with
    sect := Function.update s.sect sec a
    len := max s.len (sec + 1)
    writes := s.writes ++ [(part, sec)] }

def rsect (sec : Nat) : M Block := do
  let s ← get
  if sec < s.len then pure (s.sect sec) else throw "read"

def winode (inum : Nat) (d : Dino) : M Unit := do
  let a ← rsect (IBLOCK inum)
  wsect .inode (IBLOCK inum) (Bytes.store a (64 * (inum % IPB)) d.bytes)

def rinode (inum : Nat) : M Dino := do
  let a ← rsect (IBLOCK inum)
  pure (.ofBlock a (inum % IPB))

/-- `xint(freeblock++)` -/
def newBlock : M Nat := do
  let s ← get
  modify fun s => { s with freeblock := s.freeblock + 1, stored := s.stored ++ [s.freeblock] }
  pure s.freeblock

end Sectors

section Inodes

def ialloc (type : Nat) : M Nat := do
  let s ← get
  modify fun s => { s with freeinode := s.freeinode + 1, inums := s.inums ++ [s.freeinode] }
  winode s.freeinode ⟨type, 0, 0, 1, 0, fun _ => 0⟩
  pure s.freeinode

/-- `din.addrs[k]`, which gets a new block if it has none. -/
def addrFor (d : Dino) (k : Fin (NDIRECT + 1)) : M Dino :=
  if d.addrs k = 0 then do
    let b ← newBlock
    pure { d with addrs := Function.update d.addrs k b }
  else pure d

/-- The block for index `fbn` of the file. -/
def blockFor (d : Dino) (fbn : Nat) : M (Dino × Nat) :=
  if h : fbn < NDIRECT then do
    let d ← addrFor d ⟨fbn, Nat.lt_succ_of_lt h⟩
    pure (d, d.addrs ⟨fbn, Nat.lt_succ_of_lt h⟩)
  else do
    let d ← addrFor d indirect
    let a ← rsect (d.addrs indirect)
    if word a (fbn - NDIRECT) = 0 then do
      let b ← newBlock
      wsect .data (d.addrs indirect) (putWord a (fbn - NDIRECT) b)
      pure (d, b)
    else pure (d, word a (fbn - NDIRECT))

/-- The loop of `iappend`; each turn takes a byte or more of `p`. -/
def appendLoop : Nat → Dino → Nat → List UInt8 → M (Dino × Nat)
  | 0, d, off, _ => pure (d, off)
  | fuel + 1, d, off, p =>
    if p = [] then pure (d, off)
    else if MAXFILE ≤ off / BSIZE then throw "assert"
    else do
      let (d, x) ← blockFor d (off / BSIZE)
      let n1 := min p.length ((off / BSIZE + 1) * BSIZE - off)
      let a ← rsect x
      wsect .data x (Bytes.store a (off - off / BSIZE * BSIZE) (p.take n1))
      appendLoop fuel d (off + n1) (p.drop n1)

def iappend (inum : Nat) (p : List UInt8) : M Unit := do
  let d ← rinode inum
  let (d, off) ← appendLoop p.length d d.size p
  winode inum { d with size := off }

/-- The bytes of `buf` in `balloc`. -/
def bitmapBlock (used : Nat) : Block :=
  (List.range used).foldl
    (fun a i => Function.update a (i / 8) (a (i / 8) ||| 1 <<< UInt8.ofNat (i % 8))) fun _ => 0

def balloc (used : Nat) : M Unit :=
  if BSIZE * 8 ≤ used then throw "assert" else wsect .bitmap bmapstart (bitmapBlock used)

end Inodes

section Main

/-- A file of the command line, with what the calls of `read` return for it. -/
structure Input where
  name : List UInt8
  opens : Bool
  chunks : List { c : List UInt8 // 0 < c.length ∧ c.length ≤ BSIZE }

def zeroSectors : List Nat → M Unit
  | [] => pure ()
  | i :: is => do
    wsect .zero i fun _ => 0
    zeroSectors is

/-- All sectors are written once, so that the image has its length. -/
@[irreducible] def zeroImage : M Unit := zeroSectors (List.range FSSIZE)

def superBlock : Block :=
  Bytes.store (fun _ => 0) 0
    ([FSSIZE, FSSIZE - nmeta, NINODES, nlog, 2, inodestart, bmapstart].flatMap (Bytes.le 4))

def appendChunks (inum : Nat) : List { c : List UInt8 // 0 < c.length ∧ c.length ≤ BSIZE } → M Unit
  | [] => pure ()
  | c :: cs => do
    iappend inum c
    appendChunks inum cs

/-- `'_'`. -/
abbrev underscore : UInt8 := 95

/-- The name that the file gets in the image. -/
def Input.target (f : Input) : List UInt8 := if f.name.headD 0 = underscore then f.name.tail else f.name

def addFile (rootino : Nat) (f : Input) : M Unit :=
  if slash ∈ f.name then throw "assert"
  else if f.opens = false then throw "open"
  else do
    let inum ← ialloc T_FILE
    iappend rootino (Dirent.bytes ⟨inum, strncpy DIRSIZ f.target⟩)
    appendChunks inum f.chunks

def addFiles (rootino : Nat) : List Input → M Unit
  | [] => pure ()
  | f :: fs => do
    addFile rootino f
    addFiles rootino fs

/-- The size of the root directory is taken up to the next block. -/
def fixRoot (rootino : Nat) : M Unit := do
  let d ← rinode rootino
  winode rootino { d with size := (d.size / BSIZE + 1) * BSIZE }

def main (files : List Input) : M Unit := do
  modify fun s => { s with freeblock := nmeta }
  zeroImage
  wsect .super 1 superBlock
  let rootino ← ialloc T_DIR
  if rootino ≠ ROOTINO then throw "assert"
  else do
    iappend rootino (Dirent.bytes ⟨rootino, strncpy DIRSIZ dot⟩)
    iappend rootino (Dirent.bytes ⟨rootino, strncpy DIRSIZ dotdot⟩)
    addFiles rootino files
    fixRoot rootino
    let s ← get
    balloc s.freeblock

/-- Before `main`, with the image just truncated. -/
def start : State := ⟨fun _ _ => 0, 0, 1, 0, [], [], []⟩

end Main

end Chameleon.Mkfs
