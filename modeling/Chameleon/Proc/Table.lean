import Mathlib.Data.Fintype.Basic
import Chameleon.Param

/-! The process table of `proc.c`. A label is one stretch that the code runs under
`ptable.lock`, or one of the unlocked writes that `allocproc` and `fork` make to a slot they
have claimed. Failures of `kalloc` and `copyuvm` are part of the label. -/

namespace Chameleon.Ptable

inductive ProcState
  | unused | embryo | sleeping | runnable | running | zombie
  deriving DecidableEq

/-- A slot of `ptable.proc`, named by its index. -/
abbrev Slot := Fin NPROC

/-- A sleep channel: `wait` sleeps on the address of its own slot. -/
inductive Chan
  | proc (p : Slot)
  | addr (a : Nat)
  deriving DecidableEq

structure Proc where
  sz : Nat
  pgdir : Option Nat
  kstack : Option Nat
  state : ProcState
  pid : Int32
  parent : Option Slot
  chan : Option Chan
  killed : Bool

/-- A slot as the zeroed kernel image leaves it. -/
def Proc.zero : Proc where
  sz := 0
  pgdir := none
  kstack := none
  state := .unused
  pid := 0
  parent := none
  chan := none
  killed := false

/-- Where the kernel thread of a slot stands between two stretches. -/
inductive Pc
  | user
  | allocproc (np : Slot)
  | copyuvm (np : Slot)
  | forkEnd (np : Slot)
  | wait
  deriving DecidableEq

/-- The process table, and what every CPU of `C` runs. -/
structure TableOf (C : Type) where
  proc : Slot → Proc
  pc : Slot → Pc
  /-- `c->proc` of every CPU. -/
  cpu : C → Option Slot
  nextpid : Int32
  initproc : Slot

abbrev Table := TableOf (Fin NCPU)

section
variable {C : Type}

namespace TableOf

def setProc (t : TableOf C) (p : Slot) (f : Proc → Proc) : TableOf C :=
  { t with proc := Function.update t.proc p (f (t.proc p)) }

def setPc (t : TableOf C) (p : Slot) (pc : Pc) : TableOf C :=
  { t with pc := Function.update t.pc p pc }

def setCpu (t : Table) (c : Fin NCPU) (p : Option Slot) : Table :=
  { t with cpu := Function.update t.cpu c p }

/-- The first slot that satisfies `test`, in the order in which every scan visits them. -/
def scan (t : TableOf C) (test : Proc → Bool) : Option Slot :=
  (List.finRange NPROC).find? fun p => test (t.proc p)

end TableOf

/-- The locked section of `allocproc`: claim the first unused slot. -/
def allocproc (t : TableOf C) : Option (Slot × TableOf C) :=
  (t.scan (·.state == .unused)).map fun p =>
    (p, { t.setProc p (fun q => { q with state := .embryo, pid := t.nextpid }) with
          nextpid := t.nextpid + 1 })

def wakeup1 (t : TableOf C) (chan : Chan) : TableOf C :=
  { t with proc := fun p =>
      (if (t.proc p).state = .sleeping ∧ (t.proc p).chan = some chan then
        { t.proc p with state := .runnable }
      else t.proc p) }

/-- What `kill` does to the slot it finds: mark it, and wake it from sleep if necessary. -/
def markKilled (q : Proc) : Proc :=
  { q with killed := true, state := if q.state = .sleeping then .runnable else q.state }

/-- `kill(pid)`: the return value and the new table. -/
def kill (t : TableOf C) (pid : Int32) : Int × TableOf C :=
  match t.scan (·.pid == pid) with
  | none => (-1, t)
  | some p => (0, t.setProc p markKilled)

/-- The loop of `exit` that passes abandoned children to init. -/
def reparent (t : TableOf C) (cur : Slot) : TableOf C :=
  let t' := { t with proc := fun p =>
    (if (t.proc p).parent = some cur then { t.proc p with parent := some t.initproc }
      else t.proc p) }
  if ∃ p, (t.proc p).parent = some cur ∧ (t.proc p).state = .zombie then
    wakeup1 t' (.proc t.initproc)
  else t'

/-- `wakeup1(curproc->parent)`: the parent might be sleeping in `wait`. -/
def wakeParent (t : TableOf C) (cur : Slot) : TableOf C :=
  match (t.proc cur).parent with
  | some pp => wakeup1 t (.proc pp)
  | none => t

end

/-- `sleep(chan, lk)` up to the switch to the scheduler of the CPU it runs on. -/
def sleep (t : Table) (c : Fin NCPU) (p : Slot) (chan : Chan) : Table :=
  (t.setProc p fun q => { q with chan := some chan, state := .sleeping }).setCpu c none

/-- The locked end of `exit`, up to the final `sched`. -/
def exit (t : Table) (c : Fin NCPU) (cur : Slot) : Table :=
  ((reparent (wakeParent t cur) cur).setProc cur fun q => { q with state := .zombie }).setCpu c none

/-- What `wait` resets when it reaps a zombie. -/
def reap (q : Proc) : Proc :=
  { q with kstack := none, pid := 0, parent := none, killed := false, state := .unused }

/-- How `wait` returns: with the `pid` of a child that it has reaped, or with -1. -/
inductive WaitResult
  | reaped (p : Slot) (pid : Int32)
  | failed
  deriving DecidableEq

/-- One pass of the loop of `wait`: reap the first zombie child, give up, or sleep. The call
returns after the first two. -/
def waitPass (t : Table) (c : Fin NCPU) (cur : Slot) : Option WaitResult × Table :=
  match t.scan fun q => q.parent == some cur && q.state == .zombie with
  | some p => (some (.reaped p (t.proc p).pid), (t.setProc p reap).setPc cur .user)
  | none =>
    if (t.scan fun q => q.parent == some cur).isNone || (t.proc cur).killed then
      (some .failed, t.setPc cur .user)
    else (none, (sleep t c cur (.proc cur)).setPc cur .wait)

/-- `scheduler` switches to `p`; after a `sleep`, `p` first clears `chan`. -/
def dispatch (t : Table) (c : Fin NCPU) (p : Slot) : Table :=
  (t.setProc p fun q => { q with state := .running, chan := none }).setCpu c (some p)

/-- `p` runs on in its own kernel stack until it gives up `ptable.lock`: inside `wait` it scans
again. -/
def schedule (t : Table) (c : Fin NCPU) (p : Slot) : Table :=
  if t.pc p = .wait then (waitPass (dispatch t c p) c p).2 else dispatch t c p

inductive Event
  | schedule (c : Fin NCPU) (p : Slot)
  | yield (c : Fin NCPU)
  | sleep (c : Fin NCPU) (a : Nat)
  | wakeup (chan : Chan)
  | fork (c : Fin NCPU)
  | kalloc (c : Fin NCPU) (r : Option Nat)
  | copyuvm (c : Fin NCPU) (r : Option Nat)
  | forkEnd (c : Fin NCPU)
  | exit (c : Fin NCPU)
  | wait (c : Fin NCPU)
  | kill (c : Fin NCPU) (pid : Int32)
  | trap (c : Fin NCPU)

/-- Steps of the process that runs on CPU `c`, by where its kernel thread stands. -/
def stepOf (t : Table) (c : Fin NCPU) (cur : Slot) : Pc → Event → Option Table
  | _, .yield _ => some ((t.setProc cur fun q => { q with state := .runnable }).setCpu c none)
  | .user, .sleep _ a => some (sleep t c cur (.addr a))
  | .user, .fork _ =>
    match allocproc t with
    | none => some t
    | some (np, t') => some (t'.setPc cur (.allocproc np))
  | .allocproc np, .kalloc _ none =>
    some ((t.setProc np fun q => { q with kstack := none, state := .unused }).setPc cur .user)
  | .allocproc np, .kalloc _ (some k) =>
    some ((t.setProc np fun q => { q with kstack := some k }).setPc cur (.copyuvm np))
  | .copyuvm np, .copyuvm _ none =>
    some ((t.setProc np fun q =>
      { q with pgdir := none, kstack := none, state := .unused }).setPc cur .user)
  | .copyuvm np, .copyuvm _ (some d) =>
    some ((t.setProc np fun q =>
      { q with pgdir := some d, sz := (t.proc cur).sz, parent := some cur }).setPc cur
        (.forkEnd np))
  | .forkEnd np, .forkEnd _ =>
    some ((t.setProc np fun q => { q with state := .runnable }).setPc cur .user)
  | .user, .exit _ =>
    -- `exit` panics when init calls it, and a panic ends the run
    if cur = t.initproc then none else some (exit t c cur)
  | .user, .wait _ => some (waitPass t c cur).2
  | .user, .kill _ pid => some (kill t pid).2
  | .user, .trap _ => some (t.setProc cur fun q => { q with killed := true })
  | _, _ => none

def Event.cpu : Event → Option (Fin NCPU)
  | .schedule _ _ | .wakeup _ => none
  | .yield c | .sleep c _ | .fork c | .kalloc c _ | .copyuvm c _ | .forkEnd c
  | .exit c | .wait c | .kill c _ | .trap c => some c

def step (t : Table) (e : Event) : Option Table :=
  match e with
  | .schedule c p =>
    if t.cpu c = none ∧ (t.proc p).state = .runnable then some (schedule t c p) else none
  | .wakeup chan => some (wakeup1 t chan)
  | e =>
    match e.cpu with
    | none => none
    | some c =>
      match t.cpu c with
      | none => none
      | some cur => stepOf t c cur (t.pc cur) e

/-- The table when `main` enters the scheduler: `userinit` has filled slot 0, at page
directory `d` and kernel stack `k`. -/
def afterUserinit {C : Type} (d k : Nat) : TableOf C where
  proc := Function.update (fun _ => Proc.zero) 0
    { Proc.zero with sz := 4096, pgdir := some d, kstack := some k, state := .runnable, pid := 1 }
  pc := fun _ => .user
  cpu := fun _ => none
  nextpid := 2
  initproc := 0

def Init {C : Type} (t : TableOf C) : Prop := ∃ d k, t = afterUserinit d k

end Chameleon.Ptable
