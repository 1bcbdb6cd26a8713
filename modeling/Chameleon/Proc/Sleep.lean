import Mathlib.Algebra.Ring.Nat
import Mathlib.Data.List.FinRange
import Mathlib.Logic.Function.Basic
import Chameleon.Lib.Machine

/-! `sleep`, `wakeup` and `kill` of `proc.c` between processes that wait for a condition under a
spinlock and processes that make it true, one acquire, release, test or update at a time. -/

namespace Chameleon.Sleep
open Machine

/-- The spinlock that protects each condition, and what the condition tests. -/
structure Conf (L C D : Type) where
  ptable : L
  lk : C → L
  cond : C → D → Bool

inductive Status
  | running
  | runnable
  | sleeping
  deriving DecidableEq

/-- The lines of `acquire(lk); while(!cond) sleep(chan, lk); update; release(lk)`, those of `sleep`
among them. -/
inductive Waiting
  | acquire
  | test
  | sleepAcquire
  | sleepRelease
  | setChan
  | setSleeping
  | sched
  /-- Switched out; the scheduler has released `ptable.lock`. -/
  | asleep
  | tidy
  | sleepUnlock
  | relock
  | update
  | release

/-- The lines of `acquire(lk); update; wakeup(chan); release(lk)`, those of `wakeup` and
`wakeup1` among them. -/
inductive Waking (n : Nat)
  | acquire
  | update
  | lock
  | scan (rest : List (Fin n))
  | unlock
  /-- `wakeup` has returned. -/
  | release

/-- The lines of a call that reads or changes something in one section. -/
inductive Section
  | acquire
  | body
  | release

inductive PC (C D : Type) (n : Nat)
  | user
  | wait (c : C) (f : D → D) (at_ : Waiting)
  | wake (c : C) (f : D → D) (at_ : Waking n)
  | look (c : C) (at_ : Section)
  | kill (q : Fin n) (at_ : Section)

structure Proc (C D : Type) (n : Nat) where
  pc : PC C D n
  status : Status
  chan : Option C
  killed : Bool

structure State (L C D : Type) (n : Nat) where
  lock : L → Option (Fin n)
  proc : Fin n → Proc C D n
  data : C → D
  /-- The process has returned from a wait for the condition and has not begun to wake others
  since. -/
  past : Fin n → C → Bool

inductive Event (C D : Type) (n : Nat)
  | run (p : Fin n)
  | wait (p : Fin n) (c : C) (f : D → D)
  | wake (p : Fin n) (c : C) (f : D → D)
  | look (p : Fin n) (c : C)
  | kill (p q : Fin n)

section Step
variable {L C D : Type} {n : Nat} [DecidableEq L] [DecidableEq C]

namespace State
variable (s : State L C D n) (p : Fin n)

def setProc (x : Proc C D n) : State L C D n := { s with proc := Function.update s.proc p x }

def goto (pc : PC C D n) : State L C D n := s.setProc p { s.proc p with pc := pc }

/-- `acquire` spins while the lock is taken. -/
def acquire (l : L) (pc : PC C D n) : Option (State L C D n) :=
  if s.lock l = none then some { s.goto p pc with lock := Function.update s.lock l (some p) }
  else none

def release (l : L) (pc : PC C D n) : State L C D n :=
  { s.goto p pc with lock := Function.update s.lock l none }

def update (c : C) (f : D → D) (pc : PC C D n) : State L C D n :=
  { s.goto p pc with data := Function.update s.data c (f (s.data c)) }

/-- The body of the loop of `wakeup1`. -/
def wake (q : Fin n) (c : C) : State L C D n :=
  if (s.proc q).status = .sleeping ∧ (s.proc q).chan = some c then
    s.setProc q { s.proc q with status := .runnable }
  else s

/-- What `kill` does to the process it has found. -/
def kill (q : Fin n) : State L C D n :=
  s.setProc q { s.proc q with
    killed := true
    status := if (s.proc q).status = .sleeping then .runnable else (s.proc q).status }

end State

def runWait (K : Conf L C D) (s : State L C D n) (p : Fin n) (c : C) (f : D → D) :
    Waiting → Option (State L C D n)
  | .acquire => s.acquire p (K.lk c) (.wait c f .test)
  | .test =>
    some (s.goto p (.wait c f (if K.cond c (s.data c) then .update
      else if K.lk c = K.ptable then .setChan else .sleepAcquire)))
  | .sleepAcquire => s.acquire p K.ptable (.wait c f .sleepRelease)
  | .sleepRelease => some (s.release p (K.lk c) (.wait c f .setChan))
  | .setChan =>
    some (s.setProc p { s.proc p with chan := some c, pc := .wait c f .setSleeping })
  | .setSleeping =>
    some (s.setProc p { s.proc p with status := .sleeping, pc := .wait c f .sched })
  | .sched => some (s.release p K.ptable (.wait c f .asleep))
  -- The scheduler has picked the process, with `ptable.lock` held.
  | .asleep =>
    if (s.proc p).status = .runnable then
      (s.setProc p { s.proc p with status := .running }).acquire p K.ptable (.wait c f .tidy)
    else none
  | .tidy =>
    some (s.setProc p { s.proc p with
      chan := none
      pc := .wait c f (if K.lk c = K.ptable then .test else .sleepUnlock) })
  | .sleepUnlock => some (s.release p K.ptable (.wait c f .relock))
  | .relock => s.acquire p (K.lk c) (.wait c f .test)
  | .update => some (s.update p c f (.wait c f .release))
  | .release =>
    some { s.release p (K.lk c) .user with
      past := Function.update s.past p (Function.update (s.past p) c true) }

/-- A process that holds `ptable.lock` calls `wakeup1`, the others `wakeup`. -/
def runWake (K : Conf L C D) (s : State L C D n) (p : Fin n) (c : C) (f : D → D) :
    Waking n → Option (State L C D n)
  | .acquire => s.acquire p (K.lk c) (.wake c f .update)
  | .update =>
    some (s.update p c f (.wake c f
      (if K.lk c = K.ptable then .scan (List.finRange n) else .lock)))
  | .lock => s.acquire p K.ptable (.wake c f (.scan (List.finRange n)))
  | .scan (q :: rest) => some ((s.wake q c).goto p (.wake c f (.scan rest)))
  | .scan [] =>
    some (s.goto p (.wake c f (if K.lk c = K.ptable then .release else .unlock)))
  | .unlock => some (s.release p K.ptable (.wake c f .release))
  | .release => some (s.release p (K.lk c) .user)

def runLook (K : Conf L C D) (s : State L C D n) (p : Fin n) (c : C) :
    Section → Option (State L C D n)
  | .acquire => s.acquire p (K.lk c) (.look c .body)
  | .body => some (s.goto p (.look c .release))
  | .release => some (s.release p (K.lk c) .user)

def runKill (K : Conf L C D) (s : State L C D n) (p q : Fin n) :
    Section → Option (State L C D n)
  | .acquire => s.acquire p K.ptable (.kill q .body)
  | .body => some ((s.kill q).goto p (.kill q .release))
  | .release => some (s.release p K.ptable .user)

/-- The next line of a process. -/
def run (K : Conf L C D) (s : State L C D n) (p : Fin n) : Option (State L C D n) :=
  match (s.proc p).pc with
  | .user => none
  | .wait c f l => runWait K s p c f l
  | .wake c f l => runWake K s p c f l
  | .look c l => runLook K s p c l
  | .kill q l => runKill K s p q l

/-- A process in user code begins a call. -/
def State.begin (s : State L C D n) (p : Fin n) (pc : PC C D n) : Option (State L C D n) :=
  match (s.proc p).pc with
  | .user => some (s.goto p pc)
  | _ => none

def step (K : Conf L C D) (s : State L C D n) : Event C D n → Option (State L C D n)
  | .run p => run K s p
  | .wait p c f => s.begin p (.wait c f .acquire)
  | .wake p c f =>
    ({ s with past := Function.update s.past p (Function.update (s.past p) c false) }).begin p
      (.wake c f .acquire)
  | .look p c => s.begin p (.look c .acquire)
  | .kill p q => s.begin p (.kill q .acquire)

end Step

/-- All locks are free and all processes in user code. -/
def Init {L C D : Type} {n : Nat} (s : State L C D n) : Prop :=
  (∀ l, s.lock l = none) ∧ (∀ p, (s.proc p).pc = .user ∧ (s.proc p).status ≠ .sleeping) ∧
    ∀ p c, s.past p c = false

/-- `p` is `SLEEPING` on a channel. -/
def State.SleepingOn {L C D : Type} {n : Nat} (s : State L C D n) (q : Fin n) (c : C) : Prop :=
  (s.proc q).status = .sleeping ∧ (s.proc q).chan = some c

end Chameleon.Sleep
