import Mathlib.Data.List.FinRange
import Chameleon.Lib.Conc
import Chameleon.Fs.Disk

/-! `fs.c` as threads of atomic actions. An action is a section under `icache.lock`, under the
spinlock of a sleep-lock, or under the lock of one buffer; one access to the fields that a held
`ip->lock` protects; or one access to a `struct file` or to the slot of the calling process. -/

namespace Chameleon.Fs
open Conc

abbrev Pid := Fin NPROC
/-- A slot of `icache.inode`. -/
abbrev Entry := Fin NINODE
/-- A slot of `ftable.file`. -/
abbrev FileId := Fin NFILE

/-- The fields of `struct inode` that `icache.lock` protects. -/
structure Icache where
  inum : Nat
  ref : Nat

/-- The lock of a `struct inode`, and the fields that it protects. -/
structure Inode where
  holder : Option Pid
  valid : Bool
  d : Dinode

/-- `type` of a `struct file` and the pointer that goes with it. -/
inductive Ftype
  | none
  | pipe (q : Nat)
  | inode (e : Entry)
deriving DecidableEq

structure File where
  ref : Nat
  type : Ftype
  readable : Bool
  writable : Bool
  off : Nat

structure Proc where
  cwd : Option Entry

/-- The tables of counted objects. -/
structure Tables where
  icache : Entry → Icache
  file : FileId → File
  proc : Pid → Proc

structure State where
  tab : Tables
  ino : Entry → Inode
  disk : Disk
  /-- What the coming reads of the console and of pipes return. -/
  input : List (Option (List UInt8))

namespace State

def setIcache (s : State) (e : Entry) (x : Icache) : State :=
  { s with tab := { s.tab with icache := Function.update s.tab.icache e x } }

def setFile (s : State) (f : FileId) (x : File) : State :=
  { s with tab := { s.tab with file := Function.update s.tab.file f x } }

def setIno (s : State) (e : Entry) (x : Inode) : State :=
  { s with ino := Function.update s.ino e x }

def setDino (s : State) (i : Nat) (d : Dinode) : State :=
  { s with disk := { s.disk with dino := Function.update s.disk.dino i d } }

def setBit (s : State) (b : Nat) (x : Bool) : State :=
  { s with disk := { s.disk with bit := Function.update s.disk.bit b x } }

def setData (s : State) (b : Nat) (a : Block) : State :=
  { s with disk := { s.disk with data := Function.update s.disk.data b a } }

end State

inductive Act : Type → Type
  | iget (inum : Nat) : Act (Option Entry)
  | idup (e : Entry) : Act Unit
  | ref (e : Entry) : Act Nat
  /-- `ip->ref--` -/
  | decRef (e : Entry) : Act Unit
  | acquiresleep (e : Entry) : Act Unit
  | holdingsleep (e : Entry) : Act Bool
  | releasesleep (e : Entry) : Act Unit
  | valid (e : Entry) : Act Bool
  /-- The dinode is read into the inode, which becomes valid. -/
  | ifill (e : Entry) : Act Dinode
  /-- `ip->valid = 0` -/
  | setInvalid (e : Entry) : Act Unit
  | load (e : Entry) : Act Dinode
  | store (e : Entry) (d : Dinode) : Act Unit
  | iupdate (e : Entry) : Act Unit
  /-- One turn of the outer loop of `balloc`, over one block of the bitmap. -/
  | ballocIn (j : Nat) : Act (Option Nat)
  | bzero (b : Nat) : Act Unit
  | bfree (b : Nat) : Act Bool
  | bread (b : Nat) : Act Block
  /-- `memmove(bp->data + off, bs, ..)`, then `log_write`. -/
  | bwrite (b off : Nat) (bs : List UInt8) : Act Unit
  | file (f : FileId) : Act File
  | setOff (f : FileId) (off : Nat) : Act Unit
  | cwd : Act (Option Entry)
  /-- The console or a pipe, asked for `n` bytes. -/
  | device (n : Nat) : Act (Option (List UInt8))

/-- The slot in which `iget` finds the inode. -/
def Tables.cached (t : Tables) (inum : Nat) : Option Entry :=
  (List.finRange NINODE).find? fun e => decide (0 < (t.icache e).ref ∧ (t.icache e).inum = inum)

/-- The slot that `iget` recycles. -/
def Tables.empty (t : Tables) : Option Entry :=
  (List.finRange NINODE).find? fun e => decide ((t.icache e).ref = 0)

/-- The first clear bit in block `j` of the bitmap. -/
def Disk.clear (sb : Super) (D : Disk) (j : Nat) : Option Nat :=
  (List.range' (j * BPB) (min BPB (sb.size - j * BPB))).find? fun b => !D.bit b

/-- An action that ends with an answer. -/
def answer {β : Type} (b : β) (s : State) : Option (Option β × State) := some (some b, s)

def sem (sb : Super) : Sem State Pid Act
  | _, _, .iget inum, s =>
    match s.tab.cached inum with
    | some e => answer (some e) (s.setIcache e ⟨inum, (s.tab.icache e).ref + 1⟩)
    | none =>
      match s.tab.empty with
      | some e => answer (some e) ((s.setIcache e ⟨inum, 1⟩).setIno e { s.ino e with valid := false })
      | none => answer none s
  | _, _, .idup e, s =>
    answer () (s.setIcache e { s.tab.icache e with ref := (s.tab.icache e).ref + 1 })
  | _, _, .ref e, s => answer (s.tab.icache e).ref s
  | _, _, .decRef e, s =>
    answer () (s.setIcache e { s.tab.icache e with ref := (s.tab.icache e).ref - 1 })
  | p, _, .acquiresleep e, s =>
    if (s.ino e).holder = none then answer () (s.setIno e { s.ino e with holder := some p })
    else none
  | p, _, .holdingsleep e, s => answer (decide ((s.ino e).holder = some p)) s
  | _, _, .releasesleep e, s => answer () (s.setIno e { s.ino e with holder := none })
  | _, _, .valid e, s => answer (s.ino e).valid s
  | _, _, .ifill e, s =>
    answer (s.disk.dino (s.tab.icache e).inum)
      (s.setIno e { s.ino e with valid := true, d := s.disk.dino (s.tab.icache e).inum })
  | _, _, .setInvalid e, s => answer () (s.setIno e { s.ino e with valid := false })
  | _, _, .load e, s => answer (s.ino e).d s
  | _, _, .store e d, s => answer () (s.setIno e { s.ino e with d := d })
  | _, _, .iupdate e, s => answer () (s.setDino (s.tab.icache e).inum (s.ino e).d)
  | _, _, .ballocIn j, s =>
    match s.disk.clear sb j with
    | some b => answer (some b) (s.setBit b true)
    | none => answer none s
  | _, _, .bzero b, s => answer () (s.setData b fun _ => 0)
  | _, _, .bfree b, s => if s.disk.bit b then answer true (s.setBit b false) else answer false s
  | _, _, .bread b, s => answer (s.disk.data b) s
  | _, _, .bwrite b off bs, s => answer () (s.setData b (Bytes.store (s.disk.data b) off bs))
  | _, _, .file f, s => answer (s.tab.file f) s
  | _, _, .setOff f off, s => answer () (s.setFile f { s.tab.file f with off := off })
  | p, _, .cwd, s => answer (s.tab.proc p).cwd s
  | _, _, .device n, s =>
    answer ((s.input.headD none).map fun bs => bs.take n) { s with input := s.input.tail }

abbrev M := Prog Act

section Inodes

open Prog (lift)

def iget (inum : Nat) : M Entry := do
  let found ← lift (.iget inum)
  match found with
  | some e => pure e
  | none => .panic "iget: no inodes"

def idup (e : Entry) : M Entry := do
  lift (.idup e)
  pure e

def ilock (e : Entry) : M Unit := do
  let r ← lift (.ref e)
  if r < 1 then .panic "ilock" else do
    lift (.acquiresleep e)
    let valid ← lift (.valid e)
    if valid then pure () else do
      let d ← lift (.ifill e)
      if d.type = .free then .panic "ilock: no type" else pure ()

def iunlock (e : Entry) : M Unit := do
  let held ← lift (.holdingsleep e)
  let r ← lift (.ref e)
  if held = false ∨ r < 1 then .panic "iunlock" else lift (.releasesleep e)

/-- The outer loop of `balloc` over the blocks of the bitmap that are left. -/
def ballocFrom : List Nat → M Nat
  | [] => .panic "balloc: out of blocks"
  | j :: js => do
    let found ← lift (.ballocIn j)
    match found with
    | some b => do
      lift (.bzero b)
      pure b
    | none => ballocFrom js

def balloc (sb : Super) : M Nat := ballocFrom (List.range ((sb.size + BPB - 1) / BPB))

def bfree (b : Nat) : M Unit := do
  let used ← lift (.bfree b)
  if used then pure () else .panic "freeing free block"

/-- `ip->addrs[k]`, with a new block if there is none. -/
def bmapAddr (sb : Super) (e : Entry) (k : Fin (NDIRECT + 1)) : M Nat := do
  let d ← lift (.load e)
  if d.addrs k = 0 then do
    let addr ← balloc sb
    lift (.store e { d with addrs := Function.update d.addrs k addr })
    pure addr
  else pure (d.addrs k)

/-- `a[j]` of the indirect block `b`, with a new block if there is none. -/
def bmapEntry (sb : Super) (b j : Nat) : M Nat := do
  let a ← lift (.bread b)
  if word a j = 0 then do
    let addr ← balloc sb
    lift (.bwrite b (4 * j) (Bytes.le 4 addr))
    pure addr
  else pure (word a j)

def bmap (sb : Super) (e : Entry) (bn : Nat) : M Nat :=
  if h : bn < NDIRECT then bmapAddr sb e ⟨bn, Nat.lt_succ_of_lt h⟩
  else if bn - NDIRECT < NINDIRECT then do
    let addr ← bmapAddr sb e indirect
    bmapEntry sb addr (bn - NDIRECT)
  else .panic "bmap: out of range"

/-- One turn of the first loop of `itrunc`. -/
def freeAddr (e : Entry) (k : Fin (NDIRECT + 1)) : M Unit := do
  let d ← lift (.load e)
  if d.addrs k = 0 then pure () else do
    bfree (d.addrs k)
    lift (.store e { d with addrs := Function.update d.addrs k 0 })

def freeAddrs (e : Entry) : List (Fin (NDIRECT + 1)) → M Unit
  | [] => pure ()
  | k :: ks => do
    freeAddr e k
    freeAddrs e ks

/-- The loop of `itrunc` over the entries of the indirect block `a`. -/
def freeEntries (a : Block) : List (Fin NINDIRECT) → M Unit
  | [] => pure ()
  | j :: js =>
    if word a j = 0 then freeEntries a js else do
      bfree (word a j)
      freeEntries a js

/-- The part of `itrunc` for the indirect block. -/
def freeIndirect (e : Entry) : M Unit := do
  let d ← lift (.load e)
  if d.addrs indirect = 0 then pure () else do
    let a ← lift (.bread (d.addrs indirect))
    freeEntries a (List.finRange NINDIRECT)
    bfree (d.addrs indirect)
    lift (.store e { d with addrs := Function.update d.addrs indirect 0 })

def itrunc (e : Entry) : M Unit := do
  freeAddrs e ((List.finRange NDIRECT).map Fin.castSucc)
  freeIndirect e
  let d ← lift (.load e)
  lift (.store e { d with size := 0 })
  lift (.iupdate e)

/-- What `iput` does for an inode without links and without other references. -/
def ifree (e : Entry) : M Unit := do
  itrunc e
  let d ← lift (.load e)
  lift (.store e { d with type := .free })
  lift (.iupdate e)
  lift (.setInvalid e)

/-- The body of `iput` under the inode's lock. -/
def iputLocked (e : Entry) : M Unit := do
  let valid ← lift (.valid e)
  if valid then do
    let d ← lift (.load e)
    if d.nlink = 0 then do
      let r ← lift (.ref e)
      if r = 1 then ifree e else pure ()
    else pure ()
  else pure ()

def iput (e : Entry) : M Unit := do
  lift (.acquiresleep e)
  iputLocked e
  lift (.releasesleep e)
  lift (.decRef e)

def iunlockput (e : Entry) : M Unit := do
  iunlock e
  iput e

/-- `devsw[major]` has functions for the console only. -/
def devsw (major : BitVec 16) : Bool :=
  decide (0 ≤ major.toInt ∧ major.toInt < NDEV ∧ major.toInt = CONSOLE)

def consoleread (e : Entry) (n : Nat) : M (Option (List UInt8)) := do
  iunlock e
  let r ← lift (.device n)
  ilock e
  pure r

def consolewrite (e : Entry) (n : Nat) : M (Option Nat) := do
  iunlock e
  ilock e
  pure (some n)

/-- The loop of `readi` for the `n` bytes from `off` on; each turn reads one byte or more. -/
def readLoop (sb : Super) (e : Entry) : Nat → Nat → Nat → M (List UInt8)
  | 0, _, _ => pure []
  | fuel + 1, off, n =>
    if n = 0 then pure [] else do
      let b ← bmap sb e (off / BSIZE)
      let a ← lift (.bread b)
      let m := min n (BSIZE - off % BSIZE)
      let rest ← readLoop sb e fuel (off + m) (n - m)
      pure (Bytes.slice a (off % BSIZE) m ++ rest)

/-- `readi`, with the bytes it copies for the number it returns; none stands for -1. -/
def readi (sb : Super) (e : Entry) (off n : Nat) : M (Option (List UInt8)) := do
  let d ← lift (.load e)
  if d.type = .dev then
    if devsw d.major then consoleread e n else pure none
  else if d.size < off ∨ (off + n) % 2 ^ 32 < off then pure none
  else do
    let n := if d.size < off + n then d.size - off else n
    let bs ← readLoop sb e n off n
    pure (some bs)

/-- The loop of `writei` for the bytes that are left. -/
def writeLoop (sb : Super) (e : Entry) : Nat → Nat → List UInt8 → M Unit
  | 0, _, _ => pure ()
  | fuel + 1, off, src =>
    if src = [] then pure () else do
      let b ← bmap sb e (off / BSIZE)
      let m := min src.length (BSIZE - off % BSIZE)
      lift (.bwrite b (off % BSIZE) (src.take m))
      writeLoop sb e fuel (off + m) (src.drop m)

/-- The end of `writei`, with `off` behind the last byte written. -/
def growTo (e : Entry) (n off : Nat) : M Unit := do
  let d ← lift (.load e)
  if 0 < n ∧ d.size < off then do
    lift (.store e { d with size := off })
    lift (.iupdate e)
  else pure ()

/-- `writei` of the bytes `src`; none stands for -1. -/
def writei (sb : Super) (e : Entry) (src : List UInt8) (off : Nat) : M (Option Nat) := do
  let d ← lift (.load e)
  if d.type = .dev then
    if devsw d.major then consolewrite e src.length else pure none
  else if d.size < off ∨ (off + src.length) % 2 ^ 32 < off then pure none
  else if MAXFILE * BSIZE < off + src.length then pure none
  else do
    writeLoop sb e src.length off src
    growTo e src.length (off + src.length)
    pure (some src.length)

end Inodes

section Directories

open Prog (lift)

/-- `readi` of one entry, which must be read whole. -/
def readDirent (sb : Super) (msg : String) (dp : Entry) (off : Nat) : M Dirent := do
  let r ← readi sb dp off DESIZE
  match r with
  | some bs => if bs.length = DESIZE then pure (.ofBytes bs) else .panic msg
  | none => .panic msg

/-- The loop of `dirlookup` from `off` on, with `fuel` turns left. -/
def dirlookupFrom (sb : Super) (dp : Entry) (name : List UInt8) :
    Nat → Nat → M (Option (Entry × Nat))
  | 0, _ => pure none
  | fuel + 1, off => do
    let d ← lift (.load dp)
    if off < d.size then do
      let de ← readDirent sb "dirlookup read" dp off
      if de.inum = 0 then dirlookupFrom sb dp name fuel (off + DESIZE)
      else if namecmp name de.name = 0 then do
        let e ← iget de.inum
        pure (some (e, off))
      else dirlookupFrom sb dp name fuel (off + DESIZE)
    else pure none

/-- `dirlookup`, with the offset of the entry it found. -/
def dirlookup (sb : Super) (dp : Entry) (name : List UInt8) : M (Option (Entry × Nat)) := do
  let d ← lift (.load dp)
  if d.type = .dir then dirlookupFrom sb dp name d.size 0 else .panic "dirlookup not DIR"

/-- The loop of `namex`; with `parent` the last path element comes along. -/
def namexFrom (sb : Super) (parent : Bool) :
    Nat → Entry → List UInt8 → M (Option (Entry × List UInt8))
  | 0, _, _ => pure none
  | fuel + 1, e, path =>
    match skipelem path with
    | none =>
      if parent then do
        iput e
        pure none
      else pure (some (e, []))
    | some (name, rest) => do
      ilock e
      let d ← lift (.load e)
      if d.type ≠ .dir then do
        iunlockput e
        pure none
      else if parent = true ∧ rest.headD 0 = 0 then do
        iunlock e
        pure (some (e, name))
      else do
        let found ← dirlookup sb e name
        match found with
        | none => do
          iunlockput e
          pure none
        | some (next, _) => do
          iunlockput e
          namexFrom sb parent fuel next rest

/-- Where `namex` starts. A process without `cwd` would follow a null pointer. -/
def namexStart (path : List UInt8) : M Entry :=
  if path.headD 0 = slash then iget ROOTINO else do
    let cwd ← lift .cwd
    match cwd with
    | some e => idup e
    | none => .panic "trap"

def namex (sb : Super) (parent : Bool) (path : List UInt8) : M (Option (Entry × List UInt8)) := do
  let e ← namexStart path
  namexFrom sb parent (path.length + 1) e path

def namei (sb : Super) (path : List UInt8) : M (Option Entry) := do
  let r ← namex sb false path
  pure (r.map Prod.fst)

def nameiparent (sb : Super) (path : List UInt8) : M (Option (Entry × List UInt8)) :=
  namex sb true path

end Directories

end Chameleon.Fs
