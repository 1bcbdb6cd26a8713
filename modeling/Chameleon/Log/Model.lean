import Chameleon.Lib.Conc
import Chameleon.Log.Bio

/-! The log of `log.c` over the buffer cache, as threads of atomic actions. An action is a section
under `bcache.lock` or `log.lock`, one access to a buffer the process has locked, or one transfer
between a buffer and the disk. The history records what the log has been asked to do. -/

namespace Chameleon.Log
open Conc Bio

/-- The log on disk, as the superblock describes it: a header block and the logged blocks. -/
structure Area where
  start : Nat
  size : Nat
  pos : 0 < size

/-- A block outside the log area. -/
def Area.Home (La : Area) (b : Nat) : Prop := b < La.start ∨ La.start + La.size ≤ b

instance (La : Area) (b : Nat) : Decidable (La.Home b) := inferInstanceAs (Decidable (_ ∨ _))

/-- One call of `log_write`: the operation that made it, and what it logged. -/
structure Update where
  op : Nat
  blockno : Nat
  data : Block

structure Hist where
  /-- The transaction groups whose header reached the disk, oldest first. -/
  groups : List (List Update)
  /-- The calls of `log_write` since then. -/
  cur : List Update
  /-- The operation each process is in. -/
  op : Pid → Option Nat
  nextOp : Nat

structure State where
  disk : Nat → Block
  cache : Bcache
  lh : List Nat
  outstanding : Nat
  committing : Bool
  /-- Processes that sleep in `begin_op`. -/
  asleep : Pid → Bool
  /-- `initlog` has returned. -/
  up : Bool
  hist : Hist

namespace State

def setBuf (s : State) (i : Fin NBUF) (x : Buf) : State := { s with cache := s.cache.setBuf i x }

abbrev buf (s : State) (i : Fin NBUF) : Buf := s.cache.buf i

end State

/-- `struct logheader` read from a block: the count, then the block numbers. -/
def header (d : Block) : List Nat := (List.range (d 0)).map fun i => d (i + 1)

/-- `struct logheader` written over a block. -/
def putHeader (l : List Nat) (d : Block) : Block
  | 0 => l.length
  | k + 1 => l.getD k (d (k + 1))

/-- A block written to disk: a non-empty header commits the group it describes. -/
def Hist.written (La : Area) (h : Hist) (b : Nat) (d : Block) : Hist :=
  if b = La.start ∧ d 0 ≠ 0 then { h with groups := h.groups ++ [h.cur], cur := [] } else h

/-- The transfer that `iderw` waits for. -/
def transfer (La : Area) (s : State) (i : Fin NBUF) : State :=
  if (s.buf i).dirty then
    { s with
      disk := Function.update s.disk (s.buf i).blockno (s.buf i).data
      cache := s.cache.setBuf i { s.buf i with valid := true, dirty := false }
      hist := s.hist.written La (s.buf i).blockno (s.buf i).data }
  else s.setBuf i { s.buf i with valid := true, data := s.disk (s.buf i).blockno }

/-- The section of `log_write` under `log.lock`: absorption, and pinning the buffer. -/
def append (p : Pid) (s : State) (i : Fin NBUF) : State :=
  { s with
    lh := if (s.buf i).blockno ∈ s.lh then s.lh else s.lh ++ [(s.buf i).blockno]
    cache := s.cache.setBuf i { s.buf i with dirty := true }
    hist := { s.hist with
      cur := s.hist.cur ++ [⟨(s.hist.op p).getD 0, (s.buf i).blockno, (s.buf i).data⟩] } }

/-- `begin_op` may not let another operation in. -/
def State.full (s : State) : Bool :=
  s.committing || decide (LOGSIZE < s.lh.length + (s.outstanding + 1) * MAXOPBLOCKS)

def enterOp (p : Pid) (s : State) : State :=
  { s with
    outstanding := s.outstanding + 1
    hist := { s.hist with
      op := Function.update s.hist.op p (some s.hist.nextOp), nextOp := s.hist.nextOp + 1 } }

def State.sleepOn (s : State) (p : Pid) : State :=
  { s with asleep := Function.update s.asleep p true }

/-- The first section of `end_op`; the answer is `do_commit`. -/
def leave (p : Pid) (s : State) : State :=
  { s with
    outstanding := s.outstanding - 1
    committing := s.committing || decide (s.outstanding - 1 = 0)
    asleep := if s.outstanding - 1 = 0 then s.asleep else fun _ => false
    hist := { s.hist with op := Function.update s.hist.op p none } }

inductive Act : Type → Type
  | bget (b : Nat) : Act (Option (Fin NBUF))
  | acquiresleep (i : Fin NBUF) : Act Unit
  | holdingsleep (i : Fin NBUF) : Act Bool
  | releasesleep (i : Fin NBUF) : Act Unit
  | put (i : Fin NBUF) : Act Unit
  /-- `B_VALID` and `B_DIRTY`. -/
  | flags (i : Fin NBUF) : Act (Bool × Bool)
  | setDirty (i : Fin NBUF) : Act Unit
  | transfer (i : Fin NBUF) : Act Unit
  | data (i : Fin NBUF) : Act Block
  | setData (i : Fin NBUF) (d : Block) : Act Unit
  | lhN : Act Nat
  | outstanding : Act Nat
  | append (i : Fin NBUF) : Act Unit
  | beginOp : Act Unit
  | endOp : Act (Option Bool)
  | endCommit : Act Unit
  | lh : Act (List Nat)
  | setLh (l : List Nat) : Act Unit
  | ready : Act Unit

/-- An action that ends with an answer. -/
def answer {β : Type} (b : β) (s : State) : Option (Option β × State) := some (some b, s)

theorem answer_eq {β : Type} {b b' : β} {s s' : State} (h : answer b s = some (some b', s')) :
    b' = b ∧ s' = s := by
  obtain ⟨hb, hs⟩ := Prod.mk.inj (Option.some.inj h)
  exact ⟨(Option.some.inj hb).symm, hs.symm⟩

theorem answer_ne {β : Type} {b : β} {s s' : State} : answer b s ≠ some (none, s') := by
  simp [answer]

def sem (La : Area) : Sem State Pid Act
  | _, _, .bget b, s =>
    match Bio.bget s.cache b with
    | some (i, c) => answer (some i) { s with cache := c }
    | none => answer none s
  | p, _, .acquiresleep i, s =>
    if (s.buf i).holder = none then answer () (s.setBuf i { s.buf i with holder := some p })
    else none
  | p, _, .holdingsleep i, s => answer (decide ((s.buf i).holder = some p)) s
  | _, _, .releasesleep i, s => answer () (s.setBuf i { s.buf i with holder := none })
  | _, _, .put i, s => answer () { s with cache := Bio.put s.cache i }
  | _, _, .flags i, s => answer ((s.buf i).valid, (s.buf i).dirty) s
  | _, _, .setDirty i, s => answer () (s.setBuf i { s.buf i with dirty := true })
  | _, _, .transfer i, s => answer () (Log.transfer La s i)
  | _, _, .data i, s => answer (s.buf i).data s
  | _, _, .setData i d, s => answer () (s.setBuf i { s.buf i with data := d })
  | _, _, .lhN, s => answer s.lh.length s
  | _, _, .outstanding, s => answer s.outstanding s
  | p, _, .append i, s => answer () (Log.append p s i)
  | p, _, .beginOp, s =>
    if s.asleep p then none
    else if s.full then some (none, s.sleepOn p)
    else answer () (enterOp p s)
  | p, _, .endOp, s =>
    if s.committing then answer none (leave p s)
    else answer (some (decide (s.outstanding - 1 = 0))) (leave p s)
  | _, _, .endCommit, s => answer () { s with committing := false, asleep := fun _ => false }
  | _, _, .lh, s => answer s.lh s
  | _, _, .setLh l, s => answer () { s with lh := l }
  | _, _, .ready, s => answer () { s with up := true }

abbrev M := Prog Act

section Programs

open Prog (lift)

def iderw (i : Fin NBUF) : M Unit := do
  let held ← lift (.holdingsleep i)
  if held then
    let flags ← lift (.flags i)
    if flags = (true, false) then .panic "iderw: nothing to do" else lift (.transfer i)
  else .panic "iderw: buf not locked"

def bread (b : Nat) : M (Fin NBUF) := do
  let found ← lift (.bget b)
  match found with
  | none => .panic "bget: no buffers"
  | some i =>
    lift (.acquiresleep i)
    let flags ← lift (.flags i)
    if flags.1 then pure i else do
      iderw i
      pure i

def bwrite (i : Fin NBUF) : M Unit := do
  let held ← lift (.holdingsleep i)
  if held then do
    lift (.setDirty i)
    iderw i
  else .panic "bwrite"

def brelse (i : Fin NBUF) : M Unit := do
  let held ← lift (.holdingsleep i)
  if held then do
    lift (.releasesleep i)
    lift (.put i)
  else .panic "brelse"

/-- `memmove(dst->data, src->data, BSIZE)`. -/
def memmove (dst src : Fin NBUF) : M Unit := do
  let d ← lift (.data src)
  lift (.setData dst d)

/-- The loop of `write_log` from `tail` on. -/
def writeLogFrom (La : Area) : Nat → List Nat → M Unit
  | _, [] => pure ()
  | tail, b :: bs => do
    let dst ← bread (La.start + tail + 1)
    let src ← bread b
    memmove dst src
    bwrite dst
    brelse src
    brelse dst
    writeLogFrom La (tail + 1) bs

def writeLog (La : Area) : M Unit := do
  let lh ← lift .lh
  writeLogFrom La 0 lh

/-- The loop of `install_trans` from `tail` on. -/
def installFrom (La : Area) : Nat → List Nat → M Unit
  | _, [] => pure ()
  | tail, b :: bs => do
    let lbuf ← bread (La.start + tail + 1)
    let dbuf ← bread b
    memmove dbuf lbuf
    bwrite dbuf
    brelse lbuf
    brelse dbuf
    installFrom La (tail + 1) bs

def installTrans (La : Area) : M Unit := do
  let lh ← lift .lh
  installFrom La 0 lh

def readHead (La : Area) : M Unit := do
  let i ← bread La.start
  let d ← lift (.data i)
  lift (.setLh (header d))
  brelse i

def writeHead (La : Area) : M Unit := do
  let i ← bread La.start
  let lh ← lift .lh
  let d ← lift (.data i)
  lift (.setData i (putHeader lh d))
  bwrite i
  brelse i

def recoverFromLog (La : Area) : M Unit := do
  readHead La
  installTrans La
  lift (.setLh [])
  writeHead La

def initlog (La : Area) : M Unit := do
  recoverFromLog La
  lift .ready

def commit (La : Area) : M Unit := do
  let lh ← lift .lh
  if lh = [] then pure () else do
    writeLog La
    writeHead La
    installTrans La
    lift (.setLh [])
    writeHead La

def endOp (La : Area) : M Unit := do
  let doCommit ← lift .endOp
  match doCommit with
  | none => .panic "log.committing"
  | some false => pure ()
  | some true => do
    commit La
    lift .endCommit

/-- `log_write`. It tests the log's size before it takes `log.lock`. -/
def logWrite (La : Area) (i : Fin NBUF) : M Unit := do
  let n ← lift .lhN
  if LOGSIZE ≤ n then .panic "too big a transaction" else do
    let n ← lift .lhN
    if La.size ≤ n + 1 then .panic "too big a transaction" else do
      let out ← lift .outstanding
      if out < 1 then .panic "log_write outside of trans" else lift (.append i)

end Programs

/-- What an operation does between `begin_op` and `end_op`. -/
inductive Cmd
  | bread (b : Nat)
  | modify (b : Nat) (f : Block → Block)
  | logWrite (b : Nat)
  | brelse (b : Nat)

section Operations

open Prog (lift)

/-- The buffer in which the operation holds a block. -/
def locate (held : List (Nat × Fin NBUF)) (b : Nat) : Option (Fin NBUF) :=
  (held.find? fun e => e.1 = b).map Prod.snd

def opBody (La : Area) : List Cmd → List (Nat × Fin NBUF) → M Unit
  | [], _ => endOp La
  | .bread b :: cs, held => do
    let i ← bread b
    opBody La cs ((b, i) :: held)
  | .modify b f :: cs, held =>
    match locate held b with
    | none => .panic "block not held"
    | some i => do
      let d ← lift (.data i)
      lift (.setData i (f d))
      opBody La cs held
  | .logWrite b :: cs, held =>
    match locate held b with
    | none => .panic "block not held"
    | some i => do
      logWrite La i
      opBody La cs held
  | .brelse b :: cs, held =>
    match locate held b with
    | none => .panic "block not held"
    | some i => do
      brelse i
      opBody La cs (held.filter fun e => e.1 ≠ b)

/-- The protocol of an operation: it works on blocks outside the log, on a block only while it
holds it, logs what it modifies before it releases it, and ends holding nothing. A held block is
marked while it has a modification that is not logged. -/
def follows (La : Area) : List Cmd → List (Nat × Bool) → Bool
  | [], held => held.isEmpty
  | .bread b :: cs, held =>
    decide (La.Home b) && !held.any (fun e => e.1 = b) && follows La cs ((b, false) :: held)
  | .modify b _ :: cs, held =>
    held.any (fun e => e.1 = b) &&
      follows La cs (held.map fun e => if e.1 = b then (b, true) else e)
  | .logWrite b :: cs, held =>
    held.any (fun e => e.1 = b) &&
      follows La cs (held.map fun e => if e.1 = b then (b, false) else e)
  | .brelse b :: cs, held =>
    held.contains (b, false) && follows La cs (held.filter fun e => e.1 ≠ b)

/-- What a process may do with the disk: an operation, or reading a block outside of one. -/
inductive Job
  | op (cs : List Cmd)
  | read (b : Nat)

def body (La : Area) : Job → M Unit
  | .op cs => do
    lift .beginOp
    opBody La cs []
  | .read b => do
    let i ← bread b
    brelse i

def may (La : Area) : Job → State → Bool
  | .op cs, s => s.up && follows La cs []
  | .read b, s => s.up && decide (La.Home b)

end Operations

/-- A crash keeps the disk; memory starts afresh. -/
def State.reboot (s : State) : State where
  disk := s.disk
  cache := binit
  lh := []
  outstanding := 0
  committing := false
  asleep := fun _ => false
  up := false
  hist := { s.hist with cur := [], op := fun _ => none }

/-- The process that runs `initlog`. -/
def boot : Pid := 0

abbrev World := Pool State Pid Act

def World.crash (La : Area) (w : World) : World where
  st := w.st.reboot
  thr := fun p => if p = boot then initlog La else .ret ()

def system (La : Area) : System State Pid Job Unit Act where
  sem := sem La
  may := fun _ j s => may La j s
  body := fun _ j => body La j
  env := fun _ w => some (World.crash La w)

abbrev Event := Conc.Event Pid Job Unit

def step (La : Area) : World → Event → Option World := (system La).step

/-- A disk whose log is empty, about to be booted. -/
def diskState (disk : Nat → Block) : State where
  disk := disk
  cache := binit
  lh := []
  outstanding := 0
  committing := false
  asleep := fun _ => false
  up := false
  hist := ⟨[], [], fun _ => none, 0⟩

def powerOn (La : Area) (disk : Nat → Block) : World :=
  World.crash La ⟨diskState disk, fun _ => .ret ()⟩

def Init (La : Area) (disk : Nat → Block) (w : World) : Prop :=
  header (disk La.start) = [] ∧ w = powerOn La disk

end Chameleon.Log
