import Mathlib.Tactic.SplitIfs
import Chameleon.Lib.Machine

/-! Pipes, as `pipe.c` has them. A step is one stretch that a process runs under `p->lock`: from
the call, or from the end of a sleep, to the next sleep or the return. The processes are the
elements of any type; kills and closes come from anywhere, at any time. The history records what
the calls have stored and taken. -/

namespace Chameleon.Ipc

abbrev PIPESIZE : UInt32 := 512

structure Pipe where
  data : Nat → UInt8
  nread : UInt32
  nwrite : UInt32
  readopen : Bool
  writeopen : Bool

namespace Pipe

def full (p : Pipe) : Bool := p.nwrite == p.nread + PIPESIZE

def empty (p : Pipe) : Bool := p.nread == p.nwrite

/-- `p->data[p->nwrite++ % PIPESIZE] = b` -/
def put (p : Pipe) (b : UInt8) : Pipe :=
  { p with data := Function.update p.data (p.nwrite % PIPESIZE).toNat b, nwrite := p.nwrite + 1 }

/-- `p->data[p->nread++ % PIPESIZE]`: the byte. -/
def get (p : Pipe) : UInt8 := p.data (p.nread % PIPESIZE).toNat

def advance (p : Pipe) : Pipe := { p with nread := p.nread + 1 }

end Pipe

/-- How a stretch of `pipewrite` ends. -/
inductive WriteEnd
  | done
  | failed
  | asleep
  deriving DecidableEq

/-- The loop of `pipewrite` from some byte on: the pipe and the bytes it leaves, and how it ends. -/
def pipewriteLoop (killed : Bool) : Pipe → List UInt8 → Pipe × List UInt8 × WriteEnd
  | p, [] => (p, [], .done)
  | p, b :: bs =>
    if p.full then (p, b :: bs, if !p.readopen || killed then .failed else .asleep)
    else pipewriteLoop killed (p.put b) bs

/-- The copy loop of `piperead`: the pipe it leaves, and the bytes it has taken. -/
def pipereadCopy : Pipe → Nat → Pipe × List UInt8
  | p, 0 => (p, [])
  | p, n + 1 =>
    if p.empty then (p, [])
    else ((pipereadCopy p.advance n).1, p.get :: (pipereadCopy p.advance n).2)

/-- How a stretch of `piperead` ends. -/
inductive ReadEnd
  | returned (bytes : List UInt8)
  | failed
  | asleep
  deriving DecidableEq

/-- A stretch of `piperead`. -/
def pipereadPass (killed : Bool) (p : Pipe) (n : Nat) : Pipe × ReadEnd :=
  if p.empty && p.writeopen then (p, if killed then .failed else .asleep)
  else ((pipereadCopy p n).1, .returned (pipereadCopy p n).2)

/-- The channels processes sleep on. -/
inductive Chan
  | nread
  | nwrite
  deriving DecidableEq

/-- Where a process stands: a writer with the bytes it has not stored, a reader with its `n`. -/
inductive Pc
  | user
  | pipewrite (rest : List UInt8)
  | piperead (n : Nat)

structure Proc where
  pc : Pc
  /-- The channel, while the process is asleep. -/
  chan : Option Chan
  killed : Bool

/-- One call of `pipewrite`: its bytes, and how many of them it has stored so far. -/
structure Call where
  addr : List UInt8
  stored : Nat

structure Hist (ι : Type) where
  /-- The bytes stored, each with its writer, in the order stored. -/
  stored : List (ι × UInt8)
  /-- The bytes delivered to readers, in the order taken. -/
  taken : List UInt8
  /-- The calls of `pipewrite` that each process has made, the latest first. -/
  calls : ι → List Call

structure State (ι : Type) where
  pipe : Pipe
  proc : ι → Proc
  hist : Hist ι

inductive Event (ι : Type)
  | pipewrite (q : ι) (addr : List UInt8)
  | piperead (q : ι) (n : Nat)
  | run (q : ι)
  | kill (q : ι)
  | pipeclose (writable : Bool)

variable {ι : Type} [DecidableEq ι]

/-- `wakeup(chan)` -/
def wakeup (proc : ι → Proc) (chan : Chan) : ι → Proc := fun q =>
  if (proc q).chan = some chan then { proc q with chan := none } else proc q

/-- The latest call has stored `n` more bytes. -/
def storedMore (n : Nat) : List Call → List Call
  | [] => []
  | c :: cs => { c with stored := c.stored + n } :: cs

/-- The history after process `q` has stored `bs` in its latest call. -/
def Hist.store (h : Hist ι) (q : ι) (bs : List UInt8) : Hist ι where
  stored := h.stored ++ bs.map fun b => (q, b)
  taken := h.taken
  calls := Function.update h.calls q (storedMore bs.length (h.calls q))

/-- A stretch of `pipewrite` that has `bs` left to store. -/
def writeStretch (s : State ι) (q : ι) (bs : List UInt8) : State ι :=
  match pipewriteLoop (s.proc q).killed s.pipe bs with
  | (p, rest, stop) =>
    { pipe := p
      hist := s.hist.store q (bs.take (bs.length - rest.length))
      proc :=
        match stop with
        | .done => Function.update (wakeup s.proc .nread) q
            { s.proc q with pc := .user, chan := none }
        | .failed => Function.update s.proc q { s.proc q with pc := .user, chan := none }
        | .asleep => Function.update (wakeup s.proc .nread) q
            { s.proc q with pc := .pipewrite rest, chan := some .nwrite } }

/-- A stretch of `piperead`. -/
def readStretch (s : State ι) (q : ι) (n : Nat) : State ι :=
  match pipereadPass (s.proc q).killed s.pipe n with
  | (p, .returned bs) =>
    { pipe := p
      hist := { s.hist with taken := s.hist.taken ++ bs }
      proc := Function.update (wakeup s.proc .nwrite) q
        { s.proc q with pc := .user, chan := none } }
  | (p, .failed) =>
    { s with pipe := p, proc := Function.update s.proc q { s.proc q with pc := .user, chan := none } }
  | (p, .asleep) =>
    { s with
      pipe := p
      proc := Function.update s.proc q { s.proc q with pc := .piperead n, chan := some .nread } }

/-- `pipeclose` up to its last `release`. -/
def pipeclose (s : State ι) (writable : Bool) : State ι :=
  if writable then
    { s with pipe := { s.pipe with writeopen := false }, proc := wakeup s.proc .nread }
  else { s with pipe := { s.pipe with readopen := false }, proc := wakeup s.proc .nwrite }

/-- A new call of `pipewrite` in the history. -/
def Hist.call (h : Hist ι) (q : ι) (addr : List UInt8) : Hist ι :=
  { h with calls := Function.update h.calls q (⟨addr, 0⟩ :: h.calls q) }

/-- A pipe both ends of which are closed has been freed. -/
def step (s : State ι) (e : Event ι) : Option (State ι) :=
  if s.pipe.readopen || s.pipe.writeopen then
    match e with
    | .pipewrite q addr =>
      match (s.proc q).pc with
      | .user => some (writeStretch { s with hist := s.hist.call q addr } q addr)
      | _ => none
    | .piperead q n =>
      match (s.proc q).pc with
      | .user => some (readStretch s q n)
      | _ => none
    | .run q =>
      match (s.proc q).chan, (s.proc q).pc with
      | none, .pipewrite rest => some (writeStretch s q rest)
      | none, .piperead n => some (readStretch s q n)
      | _, _ => none
    | .kill q =>
      -- `kill` marks the process and takes it out of its sleep
      some { s with proc := Function.update s.proc q { s.proc q with killed := true, chan := none } }
    | .pipeclose writable => some (pipeclose s writable)
  else none

/-- The steps, each with the place its process stands at. -/
inductive Move (s : State ι) : Event ι → State ι → Prop
  | call (q addr) (hpc : (s.proc q).pc = .user) :
      Move s (.pipewrite q addr) (writeStretch { s with hist := s.hist.call q addr } q addr)
  | write (q rest) (hchan : (s.proc q).chan = none) (hpc : (s.proc q).pc = .pipewrite rest) :
      Move s (.run q) (writeStretch s q rest)
  | piperead (q n) (hpc : (s.proc q).pc = .user) : Move s (.piperead q n) (readStretch s q n)
  | read (q n) (hchan : (s.proc q).chan = none) (hpc : (s.proc q).pc = .piperead n) :
      Move s (.run q) (readStretch s q n)
  | kill (q) : Move s (.kill q) { s with
      proc := Function.update s.proc q { s.proc q with killed := true, chan := none } }
  | close (writable) : Move s (.pipeclose writable) (pipeclose s writable)

theorem Move.of_step {s s' : State ι} {e : Event ι} (h : step s e = some s') : Move s e s' := by
  unfold step at h
  split_ifs at h
  cases e with
  | pipewrite q addr =>
    cases hpc : (s.proc q).pc <;> simp only [hpc, Option.some.injEq, reduceCtorEq] at h
    exact h ▸ .call q addr hpc
  | piperead q n =>
    cases hpc : (s.proc q).pc <;> simp only [hpc, Option.some.injEq, reduceCtorEq] at h
    exact h ▸ .piperead q n hpc
  | run q =>
    cases hchan : (s.proc q).chan <;> cases hpc : (s.proc q).pc <;>
      simp only [hchan, hpc, Option.some.injEq, reduceCtorEq] at h
    · exact h ▸ .write q _ hchan hpc
    · exact h ▸ .read q _ hchan hpc
  | kill q => exact Option.some.inj h ▸ .kill q
  | pipeclose writable => exact Option.some.inj h ▸ .close writable

/-- A pipe that `pipealloc` has just made, with all processes outside it. -/
def Init (s : State ι) : Prop :=
  s.pipe.nread = 0 ∧ s.pipe.nwrite = 0 ∧ s.pipe.readopen = true ∧ s.pipe.writeopen = true ∧
  (∀ q, (s.proc q).pc = .user ∧ (s.proc q).chan = none) ∧
  s.hist.stored = [] ∧ s.hist.taken = [] ∧ ∀ q, s.hist.calls q = []

end Chameleon.Ipc
