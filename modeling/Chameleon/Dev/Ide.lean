import Chameleon.Param
import Chameleon.Lib.Machine
import Mathlib.Logic.Function.Basic

/-! The disk driver of `ide.c` and its stand-in `memide.c`. A process in `iderw` and the interrupt
handler take one step for each access to the queue, to the buffer's flags or to the device; the
device completes the command it was given at any time. The history records the requests in the
order in which they were queued, started and completed, and what `memide.c` would have made of
them. -/

namespace Chameleon.Ide

/-- The part of `struct buf` that the driver reads and writes, but for `qnext`. -/
structure Buf (D : Type) where
  /-- `B_VALID` -/
  valid : Bool
  /-- `B_DIRTY` -/
  dirty : Bool
  dev : Nat
  blockno : Nat
  data : D
deriving DecidableEq

/-- `(b->flags & (B_VALID|B_DIRTY)) == B_VALID` -/
def Buf.synced {D : Type} (x : Buf D) : Bool := x.valid && !x.dirty

/-- What `idestart` writes to the ports. -/
structure Cmd (D : Type) where
  drive : Nat
  lba : Nat
  write : Bool
  /-- The words sent with `outsl`, in a write command. -/
  data : D

/-- The disk controller with its two drives. -/
structure Device (D : Type) where
  disk : Nat → Nat → D
  /-- The command that is under way. -/
  cmd : Option (Cmd D)
  /-- The words that `insl` will read. -/
  port : D
  /-- `IDE_DF` or `IDE_ERR` is set in the status of the last command. -/
  err : Bool
  /-- An interrupt waits for its handler. -/
  intr : Bool

/-- The sector number as the device puts it together from the ports `0x1f3` to `0x1f6`. -/
def lba (sector : Nat) : Nat :=
  sector % 256 + 256 * (sector / 2 ^ 8 % 256) + 2 ^ 16 * (sector / 2 ^ 16 % 256) +
    2 ^ 24 * (sector / 2 ^ 24 % 16)

/-- A block is one sector. -/
theorem lba_eq {n : Nat} (h : n < FSSIZE) : lba n = n := by
  unfold lba
  unfold FSSIZE at h
  omega

/-- The command for a buffer. -/
def Buf.command {D : Type} (x : Buf D) : Cmd D where
  drive := x.dev % 2
  lba := lba x.blockno
  write := x.dirty
  data := x.data

/-- What `ideintr` does to the flags, whatever became of the command. -/
def Buf.mark {D : Type} (x : Buf D) : Buf D := { x with valid := true, dirty := false }

/-- Where a process stands in `iderw`. -/
inductive Pc (B : Type)
  | out
  /-- At `acquire(&idelock)`. -/
  | acquire (b : B)
  /-- At `b->qnext = 0`. -/
  | clear (b : B)
  /-- In the loop that looks for the end of the queue; `none` is `&idequeue`, a buffer stands for the
  address of its `qnext`. -/
  | walk (b : B) (pp : Option B)
  /-- At `if(idequeue == b)`. -/
  | start (b : B)
  /-- At the test of the loop that waits. -/
  | test (b : B)
  | asleep (b : B)
  /-- In `sleep`, woken, at `acquire(&idelock)`. -/
  | relock (b : B)
  /-- At `release(&idelock)`, with the return after it. -/
  | release (b : B)
deriving DecidableEq

/-- Where the interrupt handler stands in `ideintr`. -/
inductive Hpc (B D : Type)
  | idle
  | acquire
  /-- At `b = idequeue`. -/
  | pop
  /-- At the test of `B_DIRTY`, with the transfer after it. -/
  | read (b : B)
  /-- At the update of the flags, with what was transferred. -/
  | mark (b : B) (moved : Option D)
  /-- At `wakeup(b)`. -/
  | wake (b : B)
  /-- At `if(idequeue != 0)`. -/
  | next
  | release

/-- Who holds `idelock`. -/
inductive Owner (P : Type)
  | proc (p : P)
  | intr
deriving DecidableEq

/-- A request that `ideintr` has completed. -/
structure Outcome (B D : Type) where
  b : B
  write : Bool
  /-- The device reported `IDE_DF` or `IDE_ERR`. -/
  err : Bool
  /-- What `insl` stored in the buffer. -/
  moved : Option D
  /-- The block on the disk. -/
  block : D
  /-- The buffer when the flags have been set. -/
  after : Buf D

/-- The drive and the buffers of `memide.c`. -/
structure Sync (B D : Type) where
  disk : Nat → D
  buf : B → Buf D

structure Hist (B D : Type) where
  arrived : List B
  started : List B
  done : List (Outcome B D)
  /-- The device has reported an error. -/
  reported : Bool
  /-- A request was one that `memide.c` does not take: for another drive, or past its image. -/
  foreign : Bool
  /-- What `memide.c` makes of the requests, one after another as they arrive, and of what is done
  to buffers between them; nothing once it has panicked. -/
  sync : Option (Sync B D)

structure State (P B D : Type) where
  buf : B → Buf D
  qnext : B → Option B
  idequeue : Option B
  lock : Option (Owner P)
  /-- Who holds each buffer's sleep lock. -/
  holder : B → Option P
  pc : P → Pc B
  hpc : Hpc B D
  dev : Device D
  hist : Hist B D

inductive Event (P B D : Type)
  /-- `acquiresleep` -/
  | lockbuf (p : P) (b : B)
  /-- `releasesleep` -/
  | unlockbuf (p : P) (b : B)
  /-- The buffer cache or the holder of a buffer writes it outside of `iderw`. -/
  | touch (b : B) (x : Buf D)
  /-- A call of `iderw`. -/
  | call (p : P) (b : B)
  /-- A process goes on in `iderw`. -/
  | proc (p : P)
  /-- `kill`, which makes a process that sleeps runnable. -/
  | kill (p : P)
  /-- The interrupt is taken. -/
  | irq
  /-- The handler goes on. -/
  | handler
  /-- The device ends its command, with an error or without. -/
  | complete (err : Bool)

section Memide

variable {B D : Type} [DecidableEq B]

/-- `iderw` of `memide.c`, for an image of `FSSIZE` blocks; nothing where it panics. -/
def Sync.iderw (r : Sync B D) (b : B) : Option (Sync B D) :=
  if (r.buf b).synced then none
  else if (r.buf b).dev ≠ 1 then none
  else if FSSIZE ≤ (r.buf b).blockno then none
  else if (r.buf b).dirty then
    some { disk := Function.update r.disk (r.buf b).blockno (r.buf b).data
           buf := Function.update r.buf b (r.buf b).mark }
  else
    some { r with
      buf := Function.update r.buf b { (r.buf b).mark with data := r.disk (r.buf b).blockno } }

/-- `iderw` of `memide.c` for one buffer after another. -/
def Sync.run (r : Sync B D) (l : List B) : Option (Sync B D) := l.foldlM Sync.iderw r

/-- A buffer is changed between calls. -/
def Sync.touch (r : Sync B D) (b : B) (x : Buf D) : Sync B D :=
  { r with buf := Function.update r.buf b x }

end Memide

section Step

variable {P B D : Type} [DecidableEq P] [DecidableEq B]

/-- The buffer that the process has passed to `iderw`. -/
def Pc.buf : Pc B → Option B
  | .out => none
  | .acquire b => some b
  | .clear b => some b
  | .walk b _ => some b
  | .start b => some b
  | .test b => some b
  | .asleep b => some b
  | .relock b => some b
  | .release b => some b

namespace State

/-- The process moves on. -/
def goto (s : State P B D) (p : P) (x : Pc B) : State P B D :=
  { s with pc := Function.update s.pc p x }

/-- `*pp` -/
def deref (s : State P B D) : Option B → Option B
  | none => s.idequeue
  | some c => s.qnext c

/-- `*pp = b` -/
def link (s : State P B D) (b : B) : Option B → State P B D
  | none => { s with idequeue := some b }
  | some c => { s with qnext := Function.update s.qnext c (some b) }

/-- The request for `b` has been queued. -/
def arrive (s : State P B D) (b : B) : State P B D :=
  { s with hist := { s.hist with
      arrived := s.hist.arrived ++ [b]
      foreign := s.hist.foreign || (s.buf b).dev ≠ 1 || FSSIZE ≤ (s.buf b).blockno
      sync := s.hist.sync.bind fun r => r.iderw b } }

/-- `idestart`, which waits for the device to be ready. -/
def idestart (s : State P B D) (b : B) : Option (State P B D) :=
  if FSSIZE ≤ (s.buf b).blockno then none
  else if s.dev.cmd.isSome then none
  else
    some { s with
      dev := { s.dev with cmd := some (s.buf b).command }
      hist := { s.hist with started := s.hist.started ++ [b] } }

/-- `wakeup(b)` -/
def wakeup (s : State P B D) (b : B) : State P B D :=
  { s with pc := fun p => if s.pc p = .asleep b then .relock b else s.pc p }

/-- What `ideintr` leaves of a request. -/
def outcome (s : State P B D) (b : B) (moved : Option D) : Outcome B D where
  b := b
  write := (s.buf b).dirty
  err := s.dev.err
  moved := moved
  block := s.dev.disk ((s.buf b).dev % 2) (s.buf b).blockno
  after := (s.buf b).mark

/-- The next step of a process in `iderw`. -/
def proc (s : State P B D) (p : P) : Option (State P B D) :=
  match s.pc p with
  | .out => none
  | .acquire b =>
    if s.lock = none then some { s.goto p (.clear b) with lock := some (.proc p) } else none
  | .clear b => some { s.goto p (.walk b none) with qnext := Function.update s.qnext b none }
  | .walk b pp =>
    match s.deref pp with
    | some c => some (s.goto p (.walk b (some c)))
    | none => some (((s.link b pp).arrive b).goto p (.start b))
  | .start b =>
    if s.idequeue = some b then (s.goto p (.test b)).idestart b else some (s.goto p (.test b))
  | .test b =>
    if (s.buf b).synced then some (s.goto p (.release b))
    else some { s.goto p (.asleep b) with lock := none }
  | .asleep _ => none
  | .relock b =>
    if s.lock = none then some { s.goto p (.test b) with lock := some (.proc p) } else none
  | .release _ => some { s.goto p .out with lock := none }

/-- The next step of `ideintr`. -/
def handler (s : State P B D) : Option (State P B D) :=
  match s.hpc with
  | .idle => none
  | .acquire => if s.lock = none then some { s with lock := some .intr, hpc := .pop } else none
  | .pop =>
    match s.idequeue with
    | none => some { s with hpc := .release }
    | some b => some { s with idequeue := s.qnext b, hpc := .read b }
  | .read b =>
    -- a write command, or a read command that failed, transfers nothing
    if (s.buf b).dirty || s.dev.err then some { s with hpc := .mark b none }
    else
      some { s with
        buf := Function.update s.buf b { s.buf b with data := s.dev.port }
        hpc := .mark b (some s.dev.port) }
  | .mark b moved =>
    some { s with
      buf := Function.update s.buf b (s.buf b).mark
      hpc := .wake b
      hist := { s.hist with done := s.hist.done ++ [s.outcome b moved] } }
  | .wake b => some { s.wakeup b with hpc := .next }
  | .next =>
    match s.idequeue with
    | none => some { s with hpc := .release }
    | some c => { s with hpc := .release }.idestart c
  | .release => some { s with lock := none, hpc := .idle }

/-- `kill` of a process that sleeps in `iderw`. -/
def kill (s : State P B D) (p : P) : Option (State P B D) :=
  match s.pc p with
  | .asleep b => some (s.goto p (.relock b))
  | _ => none

/-- The handler is entered for an interrupt that waits. -/
def irq (s : State P B D) : Option (State P B D) :=
  match s.hpc with
  | .idle =>
    if s.dev.intr then some { s with dev := { s.dev with intr := false }, hpc := .acquire } else none
  | _ => none

/-- The device ends its command and raises the interrupt. A command that fails transfers nothing. -/
def complete (s : State P B D) (err : Bool) : Option (State P B D) :=
  match s.dev.cmd with
  | none => none
  | some c =>
    let dev := { s.dev with cmd := none, err := err, intr := true }
    if err then some { s with dev := dev, hist := { s.hist with reported := true } }
    else if c.write then
      some { s with dev := { dev with
        disk := Function.update dev.disk c.drive
          (Function.update (dev.disk c.drive) c.lba c.data) } }
    else some { s with dev := { dev with port := dev.disk c.drive c.lba } }

end State

/-- The holder of the buffer, if any, is not in a call of `iderw` for it. -/
def State.Unused (s : State P B D) (b : B) : Prop := ∀ p ∈ s.holder b, (s.pc p).buf ≠ some b

instance State.Unused.decidable (s : State P B D) (b : B) : Decidable (s.Unused b) :=
  inferInstanceAs (Decidable (∀ p ∈ s.holder b, (s.pc p).buf ≠ some b))

def step (havedisk1 : Bool) (s : State P B D) : Event P B D → Option (State P B D)
  | .lockbuf p b =>
    if s.holder b = none then some { s with holder := Function.update s.holder b (some p) } else none
  | .unlockbuf p b =>
    if s.holder b = some p ∧ s.Unused b then
      some { s with holder := Function.update s.holder b none }
    else none
  | .touch b x =>
    if s.Unused b then
      some { s with
        buf := Function.update s.buf b x
        hist := { s.hist with sync := s.hist.sync.map fun r => r.touch b x } }
    else none
  | .call p b =>
    -- otherwise `iderw` panics
    if s.pc p = .out ∧ s.holder b = some p ∧ ¬(s.buf b).synced ∧
        ((s.buf b).dev = 0 ∨ havedisk1) then some (s.goto p (.acquire b))
    else none
  | .proc p => s.proc p
  | .kill p => s.kill p
  | .irq => s.irq
  | .handler => s.handler
  | .complete err => s.complete err

/-- Before the first request. -/
structure Init (s : State P B D) : Prop where
  idequeue : s.idequeue = none
  lock : s.lock = none
  pc : s.pc = fun _ => .out
  hpc : s.hpc = .idle
  cmd : s.dev.cmd = none
  intr : s.dev.intr = false
  err : s.dev.err = false
  hist : s.hist = ⟨[], [], [], false, false, some ⟨s.dev.disk 1, s.buf⟩⟩

end Step

end Chameleon.Ide
