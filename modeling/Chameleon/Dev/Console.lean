import Chameleon.Lib.Machine
import Chameleon.Lib.Ring

/-! The input side of `console.c`. A step is one stretch under `cons.lock`: the characters that one
interrupt delivers, or what a reader does from its call, or from the end of a sleep, to the next
sleep or the return. The history records the characters that the indices have moved over and what
the readers were given. -/

namespace Chameleon.Console

abbrev INPUT_BUF : UInt32 := 128

/-- `C('D')`, end of file. -/
abbrev ctrlD : UInt8 := 4
/-- `C('H')`, backspace. -/
abbrev ctrlH : UInt8 := 8
/-- `C('P')`, process listing. -/
abbrev ctrlP : UInt8 := 16
/-- `C('U')`, kill line. -/
abbrev ctrlU : UInt8 := 21
/-- `'\x7f'`, the other backspace. -/
abbrev del : UInt8 := 127
abbrev newline : UInt8 := 10
abbrev cr : UInt8 := 13

structure Input where
  buf : Nat → UInt8
  /-- Read index. -/
  r : UInt32
  /-- Write index. -/
  w : UInt32
  /-- Edit index. -/
  e : UInt32

namespace Input

/-- The characters from index `a` up to index `b`. -/
def between (s : Input) (a b : UInt32) : List UInt8 :=
  (List.range (b - a).toNat).map fun j => s.buf ((a.toNat + j) % INPUT_BUF.toNat)

/-- The committed characters that no reader has taken. -/
abbrev unread (s : Input) : List UInt8 := s.between s.r s.w

/-- `input.e--` -/
def back (s : Input) : Input := { s with e := s.e - 1 }

/-- The loop of the kill-line character, which goes back to `w` at most. -/
def killLine : Nat → Input → Input
  | 0, s => s
  | fuel + 1, s =>
    if s.e ≠ s.w ∧ s.buf ((s.e - 1) % INPUT_BUF).toNat ≠ newline then killLine fuel s.back else s

/-- `input.buf[input.e++ % INPUT_BUF] = c` -/
def put (s : Input) (c : UInt8) : Input :=
  { s with buf := Function.update s.buf (s.e % INPUT_BUF).toNat c, e := s.e + 1 }

/-- The stored character `c` commits the line if it ends one or fills the buffer. -/
def finish (s : Input) (c : UInt8) : Input × Bool :=
  if c = newline ∨ c = ctrlD ∨ s.e = s.r + INPUT_BUF then ({ s with w := s.e }, true)
  else (s, false)

/-- `(c == '\r') ? '\n' : c` -/
def lineEnd (c : UInt8) : UInt8 := if c = cr then newline else c

/-- One turn of the loop of `consoleintr`; whether it calls `wakeup`. -/
def intr (s : Input) (c : UInt8) : Input × Bool :=
  if c = ctrlP then (s, false)
  else if c = ctrlU then (killLine (s.e - s.w).toNat s, false)
  else if c = ctrlH ∨ c = del then (if s.e ≠ s.w then s.back else s, false)
  else if c ≠ 0 ∧ s.e - s.r < INPUT_BUF then (s.put (lineEnd c)).finish (lineEnd c)
  else (s, false)

end Input

/-- How a stretch of `consoleread` ends. -/
inductive ReadEnd
  | returned
  | failed
  | asleep
deriving DecidableEq

/-- The loop of `consoleread` for the `n` bytes that are left of `target`, with the bytes stored so
far; it returns their number. -/
def readLoop (killed : Bool) (target : Nat) :
    Nat → Input → List UInt8 → Input × List UInt8 × ReadEnd
  | 0, s, got => (s, got, .returned)
  | n + 1, s, got =>
    if s.r = s.w then (s, got, if killed then .failed else .asleep)
    else
      let c := s.buf (s.r % INPUT_BUF).toNat
      let s := { s with r := s.r + 1 }
      if c = ctrlD then
        -- with data in hand, `^D` stays for the next call
        (if n + 1 < target then { s with r := s.r - 1 } else s, got, .returned)
      else if c = newline then (s, got ++ [c], .returned)
      else readLoop killed target n s (got ++ [c])

/-- Where a process stands: in a call of `consoleread` for `target` bytes, with those it has. -/
inductive Pc
  | user
  | reading (target : Nat) (got : List UInt8)

structure Proc where
  pc : Pc
  asleep : Bool
  killed : Bool

structure Hist (ι : Type) where
  /-- The characters that `w` has moved over. -/
  committed : List UInt8
  /-- The characters that `r` has moved over. -/
  taken : List UInt8
  /-- The bytes stored for readers, in the order stored. -/
  delivered : List (ι × UInt8)
  /-- What the calls of each process have returned. -/
  returned : ι → List (List UInt8)

structure State (ι : Type) where
  input : Input
  proc : ι → Proc
  hist : Hist ι

inductive Event (ι : Type)
  | intr (cs : List UInt8)
  | read (q : ι) (n : Nat)
  | run (q : ι)
  | kill (q : ι)

section Step

variable {ι : Type} [DecidableEq ι]

/-- `wakeup(&input.r)` -/
def wakeup (proc : ι → Proc) : ι → Proc := fun q => { proc q with asleep := false }

def State.intr (s : State ι) (c : UInt8) : State ι where
  input := (s.input.intr c).1
  proc := if (s.input.intr c).2 then wakeup s.proc else s.proc
  hist := { s.hist with
    committed := s.hist.committed ++
      (s.input.intr c).1.between s.input.w (s.input.intr c).1.w }

/-- Reader `q` has left its loop. -/
def Proc.leave (x : Proc) (target : Nat) (got : List UInt8) : ReadEnd → Proc
  | .returned => { x with pc := .user, asleep := false }
  | .failed => { x with pc := .user, asleep := false }
  | .asleep => { x with pc := .reading target got, asleep := true }

/-- The calls that have returned; a call that fails returns no bytes. -/
def ReadEnd.note (rs : List (List UInt8)) (got : List UInt8) : ReadEnd → List (List UInt8)
  | .returned => rs ++ [got]
  | _ => rs

/-- A stretch of `consoleread` by `q`, which has `got` of `target` bytes. -/
def State.read (s : State ι) (q : ι) (target : Nat) (got : List UInt8) : State ι :=
  let x := readLoop (s.proc q).killed target (target - got.length) s.input got
  { input := x.1
    proc := Function.update s.proc q ((s.proc q).leave target x.2.1 x.2.2)
    hist := { s.hist with
      taken := s.hist.taken ++ s.input.between s.input.r x.1.r
      delivered := s.hist.delivered ++ (x.2.1.drop got.length).map fun c => (q, c)
      returned := Function.update s.hist.returned q (x.2.2.note (s.hist.returned q) x.2.1) } }

def step (s : State ι) : Event ι → Option (State ι)
  | .intr cs => some (cs.foldl State.intr s)
  | .read q n =>
    match (s.proc q).pc with
    | .user => some (s.read q n [])
    | .reading _ _ => none
  | .run q =>
    match (s.proc q).pc with
    | .reading target got => if (s.proc q).asleep then none else some (s.read q target got)
    | .user => none
  | .kill q =>
    some { s with proc := Function.update s.proc q { s.proc q with killed := true, asleep := false } }

/-- A console that nobody has used. -/
def Init (s : State ι) : Prop :=
  s.input.r = 0 ∧ s.input.w = 0 ∧ s.input.e = 0 ∧ (∀ q, (s.proc q).pc = .user) ∧
    (∀ q, (s.proc q).killed = false) ∧
    s.hist = ⟨[], [], [], fun _ => []⟩

/-- A step that kills nobody. -/
def NoKill (_ : State ι) : Event ι → Prop
  | .kill _ => False
  | _ => True

instance NoKill.decidable (s : State ι) : (e : Event ι) → Decidable (NoKill s e)
  | .intr _ => inferInstanceAs (Decidable True)
  | .read _ _ => inferInstanceAs (Decidable True)
  | .run _ => inferInstanceAs (Decidable True)
  | .kill _ => inferInstanceAs (Decidable False)

end Step

end Chameleon.Console
