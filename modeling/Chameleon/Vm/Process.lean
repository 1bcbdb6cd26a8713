import Chameleon.Lib.Machine
import Chameleon.Proc.Table
import Chameleon.Vm.Exec

/-! The operations that create, replace, resize and reap address spaces, and the pipes, as one
machine. An operation runs to its end before the next one starts; `kalloc` may refuse any of
its calls. A panic ends the run. -/

namespace Chameleon.Vm
open Ptable (Slot)

/-- The process table; which CPU a process runs on does not matter here. -/
abbrev Table := Ptable.TableOf Empty

/-- The page directory of a process; a null one faults on its first use. -/
def pgdirOf (q : Ptable.Proc) : Kern Nat :=
  match q.pgdir with
  | some d => pure d
  | none => throw "no pgdir"

/-- The state in which a process calls `exec`. -/
def called (k : Kmem) (u : UserImage) : ExecState where
  kmem := k
  user := u
  fs := { begun := 0, ended := 0, refs := 0, locked := false }

/-- `exec(path, argv)`, where `file` is what the path leads to, as the process table sees it. -/
def exec (L : Layout) (path : List UInt8) (file : Option (List UInt8)) (argv : List (List UInt8)) (t : Table)
    (cur : Slot) : Kern Table := do
  let pgdir ← pgdirOf (t.proc cur)
  let k ← get
  match (execFile copyoutChecked L path file argv).run (called k ⟨pgdir, (t.proc cur).sz, 0, 0, []⟩) with
  | .error e => throw e
  | .ok (_, s) =>
    set s.kmem
    pure (t.setProc cur fun q => { q with pgdir := some s.user.pgdir, sz := s.user.sz })

/-- `fork`, with the slot `allocproc` claims for the child. -/
def fork (L : Layout) (t : Table) (cur : Slot) : Kern Table := do
  match Ptable.allocproc t with
  | none => pure t
  | some (np, t) =>
    match ← kalloc with
    | none => pure (t.setProc np fun q => { q with kstack := none, state := .unused })
    | some stack =>
      let pgdir ← pgdirOf (t.proc cur)
      match ← copyuvm L pgdir (t.proc cur).sz with
      | none =>
        kfree L stack
        pure (t.setProc np fun q => { q with pgdir := none, kstack := none, state := .unused })
      | some d =>
        pure (t.setProc np fun q =>
          { q with pgdir := some d, kstack := some stack, sz := (t.proc cur).sz, parent := some cur,
                   state := .runnable })

/-- The end of `growproc`, for the size that `allocuvm` or `deallocuvm` returned. -/
def resize (t : Table) (cur : Slot) (sz : Nat) : Kern (Int × Table) :=
  if sz = 0 then pure (-1, t) else pure (0, t.setProc cur fun q => { q with sz := sz })

/-- `growproc(n)`. -/
def growproc (L : Layout) (n : Int) (t : Table) (cur : Slot) : Kern (Int × Table) := do
  let sz := (t.proc cur).sz
  let newsz := ((sz + n) % WORD).toNat
  let pgdir ← pgdirOf (t.proc cur)
  if n > 0 then
    let sz ← allocuvm L pgdir sz newsz
    resize t cur sz
  else if n < 0 then
    let sz ← deallocuvm L pgdir sz newsz
    resize t cur sz
  else pure (0, t.setProc cur fun q => { q with sz := sz })

/-- The end of `exit`: the address space stays until the parent waits. -/
def exit (t : Table) (cur : Slot) : Kern Table :=
  if cur = t.initproc then throw "init exiting"
  else pure ((Ptable.reparent (Ptable.wakeParent t cur) cur).setProc cur fun q => { q with state := .zombie })

/-- `wait`, when a child has exited: reap it. Otherwise nothing changes. -/
def wait (L : Layout) (t : Table) (cur : Slot) : Kern Table :=
  match t.scan fun q => q.parent == some cur && q.state == .zombie with
  | none => pure t
  | some p => do
    match (t.proc p).kstack with
    | none => throw "kfree"
    | some stack =>
      kfree L stack
      let pgdir ← pgdirOf (t.proc p)
      freevm L pgdir
      pure (t.setProc p Ptable.reap)

structure Pipe where
  page : Nat
  readopen : Bool
  writeopen : Bool

/-- `pipealloc`, given whether the two calls of `filealloc` succeed. -/
def pipealloc (f0 f1 : Bool) (pipes : List Pipe) : Kern (List Pipe) :=
  if !f0 || !f1 then pure pipes
  else do
    match ← kalloc with
    | none => pure pipes
    | some p => pure (⟨p, true, true⟩ :: pipes)

/-- `pipeclose(p, writable)` on a pipe of which that end is still open. -/
def closeEnd (writable : Bool) (p : Pipe) : Pipe :=
  if writable then { p with writeopen := false } else { p with readopen := false }

def pipeclose (L : Layout) (i : Nat) (writable : Bool) (pipes : List Pipe) : Kern (List Pipe) :=
  match pipes[i]? with
  | none => throw "fileclose"
  | some p =>
    -- `fileclose` closes an end once, when its last reference goes
    if (if writable then p.writeopen else p.readopen) then
      if (closeEnd writable p).readopen || (closeEnd writable p).writeopen then
        pure (pipes.set i (closeEnd writable p))
      else do
        kfree L p.page
        pure (pipes.eraseIdx i)
    else throw "fileclose"

/-- The kernel's own records of pages, beside the page tables. -/
structure Records where
  table : Table
  kpgdir : Nat
  /-- The stacks that `startothers` gave to the other CPUs. -/
  cpuStacks : List Nat
  pipes : List Pipe

inductive Op
  | fork (p : Slot)
  | exec (p : Slot) (path : List UInt8) (file : Option (List UInt8)) (argv : List (List UInt8))
  | growproc (p : Slot) (n : Int)
  | exit (p : Slot)
  | wait (p : Slot)
  | pipealloc (f0 f1 : Bool)
  | pipeclose (i : Nat) (writable : Bool)

/-- A process that can make a system call. -/
def Live (t : Table) (p : Slot) : Prop :=
  (t.proc p).state = .runnable ∨ (t.proc p).state = .running ∨ (t.proc p).state = .sleeping

instance (t : Table) (p : Slot) : Decidable (Live t p) := inferInstanceAs (Decidable (_ ∨ _))

/-- An operation that changes the process table only, made by a live process. -/
def onTable (y : Records) (p : Slot) (f : Table → Slot → Kern Table) : Kern Records :=
  if Live y.table p then do
    let t ← f y.table p
    pure { y with table := t }
  else throw "not running"

def runOp (L : Layout) (y : Records) : Op → Kern Records
  | .fork p => onTable y p (fork L)
  | .exec p path file argv => onTable y p (exec L path file argv)
  | .growproc p n => onTable y p fun t cur => do
    let (_, t) ← growproc L n t cur
    pure t
  | .exit p => onTable y p exit
  | .wait p => onTable y p (wait L)
  | .pipealloc f0 f1 => do
    let pipes ← pipealloc f0 f1 y.pipes
    pure { y with pipes := pipes }
  | .pipeclose i writable => do
    let pipes ← pipeclose L i writable y.pipes
    pure { y with pipes := pipes }

/-- One operation, with the calls of `kalloc` that are refused during it. -/
def step (L : Layout) (s : Records × Kmem) (e : Op × List Bool) : Option (Records × Kmem) :=
  match (runOp L s.1 e.1).run { s.2 with deny := e.2 } with
  | .ok r => some r
  | .error _ => none

/-! ### Boot -/

/-- The loop of `startothers`: a stack for each of the other CPUs. -/
def startothers : Nat → Kern (List Nat)
  | 0 => pure []
  | n + 1 => do
    match ← kalloc with
    | none => throw "startothers: null stack"
    | some stack =>
      let rest ← startothers n
      pure (stack :: rest)

/-- `userinit`. -/
def userinit (L : Layout) (initcode : List UInt8) : Kern Table := do
  match ← kalloc with
  | none => throw "userinit: null stack"
  | some stack =>
    match ← setupkvm L with
    | none => throw "userinit: out of memory?"
    | some pgdir =>
      inituvm pgdir initcode
      pure (Ptable.afterUserinit pgdir stack)

/-- The calls of `main` that move page frames. -/
def main (L : Layout) (initcode : List UInt8) : Kern Records := do
  freerange L L.endp (4 * 1024 * 1024)
  match ← setupkvm L with
  | none => throw "kvmalloc: null pgdir"
  | some kpgdir =>
    let cpuStacks ← startothers (L.ncpu - 1)
    freerange L (4 * 1024 * 1024) PHYSTOP
    let t ← userinit L initcode
    pure { table := t, kpgdir := kpgdir, cpuStacks := cpuStacks, pipes := [] }

/-- `main` has reached the scheduler, from a memory with any contents and an `initcode` of less
than a page; no call of `kalloc` was refused on the way. -/
def Booted (L : Layout) (s : Records × Kmem) : Prop :=
  ∃ m initcode, initcode.length < PGSIZE ∧ (main L initcode).run ⟨m, [], []⟩ = .ok s

end Chameleon.Vm
