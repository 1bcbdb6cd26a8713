import Chameleon.Lib.Machine
import Chameleon.Proc.Table

/-! The context switch of `proc.c`, for any number of CPUs. A stretch under `ptable.lock` begins
in a process, is handed to the scheduler of the CPU and ends in another process; here every part
of it is a step of its own, and the lock says who may take one. `ncli` and the interrupt flag are
not modelled, nor the lock that `sleep` gives up. -/

namespace Chameleon.Sched
open Ptable (ProcState Slot Chan Proc TableOf)

/-- The code that `swtch` returns into when a process is scheduled again. -/
inductive Ret
  | forkret | yield | sleep | exit
  deriving DecidableEq

/-- The code that a CPU executes: the loop of `scheduler`, with `ptable.lock` except when it is idle,
or a process, which holds the lock from its call of `sched` until it has been resumed. -/
inductive Ctl
  | idle
  | scan (i : Nat)
  | back
  | free
  | sched (r : Ret)
  | resumed
  deriving DecidableEq

structure Sys (C : Type) where
  /-- The process table, without CPUs of its own. -/
  table : TableOf Empty
  /-- `p->context` of every slot. -/
  ret : Slot → Ret
  /-- `c->proc` of every CPU. -/
  proc : C → Option Slot
  /-- The slot on whose kernel stack a CPU runs, if not on that of its scheduler. -/
  stack : C → Option Slot
  /-- The variable `p` of `scheduler`. -/
  loop : C → Slot
  ctl : C → Ctl
  /-- The holder of `ptable.lock`. -/
  lock : Option C
  panicked : Option String

inductive Event (C : Type)
  | acquire (c : C)
  | look (c : C)
  | back (c : C)
  | yield (c : C)
  | sleep (c : C) (a : Nat)
  | exit (c : C)
  | wait (c : C)
  | sched (c : C)
  | resume (c : C)
  | wakeup (chan : Chan)
  | kill (c : C) (pid : Int32)
  | fork (c : C)
  | kalloc (c : C) (r : Option Nat)
  | copyuvm (c : C) (r : Option Nat)
  | forkEnd (c : C)

section
variable {C : Type} [DecidableEq C]

namespace Sys

def state (s : Sys C) (p : Slot) : ProcState := (s.table.proc p).state

def setTable (s : Sys C) (t : TableOf Empty) : Sys C := { s with table := t }

def setProc (s : Sys C) (p : Slot) (f : Proc → Proc) : Sys C := { s with table := s.table.setProc p f }

def goto (s : Sys C) (c : C) (x : Ctl) : Sys C := { s with ctl := Function.update s.ctl c x }

def acquire (s : Sys C) (c : C) : Sys C := { s with lock := some c }

def release (s : Sys C) : Sys C := { s with lock := none }

def panic (s : Sys C) (msg : String) : Sys C := { s with panicked := some msg }

end Sys

/-- `scheduler` switches to process `p`. -/
def switch (s : Sys C) (c : C) (p : Slot) : Sys C :=
  { s.setProc p fun q => { q with state := .running } with
    proc := Function.update s.proc c (some p)
    stack := Function.update s.stack c (some p)
    loop := Function.update s.loop c p }.goto c .resumed

/-- `scheduler` looks at slot `i`. -/
def look (s : Sys C) (c : C) (i : Nat) : Sys C :=
  if h : i < NPROC then
    if s.state ⟨i, h⟩ ≠ .runnable then s.goto c (.scan (i + 1)) else switch s c ⟨i, h⟩
  else s.release.goto c .idle

/-- `scheduler` after `swtch` has returned. -/
def back (s : Sys C) (c : C) : Sys C :=
  { s with proc := Function.update s.proc c none }.goto c (.scan (s.loop c + 1))

/-- `sched`, for the process `p` that `myproc` returns. -/
def sched (s : Sys C) (c : C) (p : Slot) (r : Ret) : Sys C :=
  if s.lock ≠ some c then s.panic "sched ptable.lock"
  else if s.state p = .running then s.panic "sched running"
  else
    { s with
      ret := Function.update s.ret p r
      stack := Function.update s.stack c none }.goto c .back

/-- `yield` up to its call of `sched`. -/
def yield (s : Sys C) (c : C) (p : Slot) : Sys C :=
  ((s.acquire c).setProc p fun q => { q with state := .runnable }).goto c (.sched .yield)

/-- `sleep` up to its call of `sched`. -/
def sleep (s : Sys C) (c : C) (p : Slot) (chan : Chan) : Sys C :=
  ((s.acquire c).setProc p fun q => { q with chan := some chan, state := .sleeping }).goto c (.sched .sleep)

/-- `exit` from the point where it takes `ptable.lock` up to its call of `sched`. -/
def exit (s : Sys C) (c : C) (p : Slot) : Sys C :=
  (((s.acquire c).setTable (Ptable.reparent (Ptable.wakeParent s.table p) p)).setProc p
    fun q => { q with state := .zombie }).goto c (.sched .exit)

/-- One pass of the loop of `wait`, which ends without the lock or in `sleep`. -/
def waitPass (s : Sys C) (c : C) (p : Slot) : Sys C :=
  match s.table.scan fun q => q.parent == some p && q.state == .zombie with
  | some q => ((s.setTable ((s.table.setProc q Ptable.reap).setPc p .user)).release).goto c .free
  | none =>
    if (s.table.scan fun q => q.parent == some p).isNone || (s.table.proc p).killed then
      ((s.setTable (s.table.setPc p .user)).release).goto c .free
    else sleep (s.setTable (s.table.setPc p .wait)) c p (.proc p)

/-- What a process does that has been switched to. -/
def resume (s : Sys C) (c : C) (p : Slot) : Sys C :=
  match s.ret p with
  | .forkret => ((s.setTable (s.table.setPc p .user)).release).goto c .free
  | .yield => s.release.goto c .free
  | .sleep =>
    let s' := s.setProc p fun q => { q with chan := none }
    if s.table.pc p = .wait then waitPass s' c p else s'.release.goto c .free
  | .exit => s.panic "zombie exit"

/-- The steps of process `p`, while it does not hold `ptable.lock`, by where it stands in the kernel.
`free` says whether the lock can be taken. -/
def stepOf (s : Sys C) (p : Slot) (free : Prop) [Decidable free] : Ptable.Pc → Event C → Option (Sys C)
  | _, .yield c => if s.state p = .running ∧ free then some (yield s c p) else none
  | .user, .sleep c a => if free then some (sleep s c p (.addr a)) else none
  | .user, .exit c =>
    if p = s.table.initproc then some (s.panic "init exiting")
    else if free then some (exit s c p) else none
  | .user, .wait c => if free then some (waitPass s c p) else none
  | .user, .kill _ pid => if free then some (s.setTable (Ptable.kill s.table pid).2) else none
  | .user, .fork _ =>
    if free then
      match Ptable.allocproc s.table with
      | none => some s
      | some (np, t) => some (s.setTable (t.setPc p (.allocproc np)))
    else none
  | .allocproc np, .kalloc _ none =>
    some (s.setTable ((s.table.setProc np fun q => { q with kstack := none, state := .unused }).setPc p .user))
  | .allocproc np, .kalloc _ (some k) =>
    some { s.setTable ((s.table.setProc np fun q => { q with kstack := some k }).setPc p (.copyuvm np)) with
      ret := Function.update s.ret np .forkret }
  | .copyuvm np, .copyuvm _ none =>
    some (s.setTable ((s.table.setProc np fun q =>
      { q with pgdir := none, kstack := none, state := .unused }).setPc p .user))
  | .copyuvm np, .copyuvm _ (some d) =>
    some (s.setTable ((s.table.setProc np fun q =>
      { q with pgdir := some d, sz := (s.table.proc p).sz, parent := some p }).setPc p (.forkEnd np)))
  | .forkEnd np, .forkEnd _ =>
    if free then some (s.setTable ((s.table.setProc np fun q => { q with state := .runnable }).setPc p .user)) else none
  | _, _ => none

def Event.cpu : Event C → Option C
  | .wakeup _ => none
  | .acquire c | .look c | .back c | .yield c | .sleep c _ | .exit c | .wait c | .sched c | .resume c
  | .kill c _ | .fork c | .kalloc c _ | .copyuvm c _ | .forkEnd c => some c

/-- A step of CPU `c`, by the code it executes. A process reads its own slot from its stack after it
has been resumed, and asks `myproc` otherwise. -/
def stepAt (s : Sys C) (c : C) : Ctl → Event C → Option (Sys C)
  | .idle, .acquire _ => if s.lock = none then some ((s.acquire c).goto c (.scan 0)) else none
  | .scan i, .look _ => some (look s c i)
  | .back, .back _ => some (back s c)
  | .sched r, .sched _ => (s.proc c).map fun p => sched s c p r
  | .resumed, .resume _ => (s.stack c).map fun p => resume s c p
  | .free, e =>
    match s.proc c with
    | some p => stepOf s p (s.lock = none) (s.table.pc p) e
    | none =>
      match e with
      | .sleep _ _ => some (s.panic "sleep")
      | _ => none
  | _, _ => none

/-- A panic stops the machine. -/
def step (s : Sys C) (e : Event C) : Option (Sys C) :=
  if s.panicked ≠ none then none
  else match e with
    | .wakeup chan => if s.lock = none then some (s.setTable (Ptable.wakeup1 s.table chan)) else none
    | e => e.cpu.bind fun c => stepAt s c (s.ctl c) e

/-- `userinit` has filled slot 0 and every CPU has entered `scheduler`. -/
def Init (s : Sys C) : Prop :=
  Ptable.Init s.table ∧ s.ret = (fun _ => .forkret) ∧ s.proc = (fun _ => none) ∧ s.stack = (fun _ => none) ∧
    s.ctl = (fun _ => .idle) ∧ s.lock = none ∧ s.panicked = none

end
end Chameleon.Sched
