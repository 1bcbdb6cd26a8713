import Mathlib.Logic.Function.Basic
import Chameleon.Lib.Bytes
import Chameleon.Lib.Machine

/-! The memory allocator of `umalloc.c`. A `Header` is eight bytes of memory, a pointer and a size,
and pointers to headers are byte addresses. -/

namespace Chameleon.Umalloc
open Bytes

/-- A stretch of memory of `size` units of `sizeof(Header)` bytes, the header included. -/
structure Block where
  addr : Nat
  size : Nat
  deriving DecidableEq, Repr

def Block.stop (b : Block) : Nat := b.addr + 8 * b.size

/-- The byte `x` lies in the block. -/
def Block.Has (b : Block) (x : Nat) : Prop := b.addr ≤ x ∧ x < b.stop

instance (b : Block) (x : Nat) : Decidable (b.Has x) := inferInstanceAs (Decidable (_ ∧ _))

/-- The memory of the process and the allocator's `freep`. `brk` is the end of everything `sbrk`
has returned, to any caller, and `got` is what `morecore` has obtained. -/
structure Heap where
  mem : Nat → UInt8
  freep : Nat
  brk : Nat
  got : List Block

namespace Heap

/-- `p->s.ptr` -/
def ptr (h : Heap) (p : Nat) : Nat := number (slice h.mem p 4)

/-- `p->s.size` -/
def size (h : Heap) (p : Nat) : Nat := number (slice h.mem (p + 4) 4)

def setPtr (h : Heap) (p v : Nat) : Heap := { h with mem := store h.mem p (le 4 v) }

def setSize (h : Heap) (p v : Nat) : Heap := { h with mem := store h.mem (p + 4) (le 4 v) }

end Heap

/-- `p + n` for a `Header *p` -/
def plus (p n : Nat) : Nat := (p + 8 * n) % 2 ^ 32

/-- Why a call does not come back: it is still in a loop after `fuel` rounds, it calls `sbrk` with
an argument that is not a positive `int`, or a page fault has killed the process. -/
inductive Stop
  | fuel
  | sbrk
  | fault (h : Heap)

section Free

/-- The loop of `free`. -/
def freeLoop (h : Heap) (bp : Nat) : Nat → Nat → Except Stop Nat
  | 0, _ => .error .fuel
  | fuel + 1, p =>
    if p < bp ∧ bp < h.ptr p then .ok p
    else if h.ptr p ≤ p ∧ (p < bp ∨ bp < h.ptr p) then .ok p
    else freeLoop h bp fuel (h.ptr p)

/-- The block `bp` takes over the successor of `p`, or that successor itself when it begins where
`bp` ends. -/
def joinUpper (h : Heap) (bp p : Nat) : Heap :=
  if plus bp (h.size bp) = h.ptr p then
    let h := h.setSize bp (h.size bp + h.size (h.ptr p))
    h.setPtr bp (h.ptr (h.ptr p))
  else h.setPtr bp (h.ptr p)

/-- `p` gets `bp` as its successor, or takes `bp` itself when that begins where `p` ends. -/
def joinLower (h : Heap) (bp p : Nat) : Heap :=
  if plus p (h.size p) = bp then
    let h := h.setSize p (h.size p + h.size bp)
    h.setPtr p (h.ptr bp)
  else h.setPtr p bp

def free (fuel ap : Nat) (h : Heap) : Except Stop Heap := do
  let bp := (ap + (2 ^ 32 - 8)) % 2 ^ 32
  let p ← freeLoop h bp fuel h.freep
  .ok { joinLower (joinUpper h bp p) bp p with freep := p }

end Free

section Malloc

/-- What `morecore` gets from `sbrk` for a `uint`: the start of the bytes, or nothing. -/
abbrev Sbrk := Nat → Heap → Except Stop (Option Nat × Heap)

/-- `sbrk` for a positive `int`: it fails, or it returns the start of `k` fresh bytes, `gap` bytes
above everything returned before. The end of the memory is a `uint`. -/
def sbrk (gap : Option Nat) : Sbrk := fun k h =>
  if k = 0 ∨ 2 ^ 31 ≤ k then .error .sbrk
  else
    match gap with
    | none => .ok (none, h)
    | some gap =>
      if h.brk + gap + k < 2 ^ 32 then .ok (some (h.brk + gap), { h with brk := h.brk + gap + k })
      else .ok (none, h)

/-- `morecore`, with 0 for the null pointer. -/
def morecore (sbrk : Sbrk) (fuel nu : Nat) (h : Heap) : Except Stop (Nat × Heap) := do
  let nu := if nu < 4096 then 4096 else nu
  let (p, h) ← sbrk (nu * 8 % 2 ^ 32) h
  match p with
  | none => .ok (0, h)
  | some hp =>
    let h := { h with got := ⟨hp, nu⟩ :: h.got }
    let h ← free fuel (plus hp 1) (h.setSize hp nu)
    .ok (h.freep, h)

/-- The part of `malloc` that has found a large enough block `p` behind `prevp`: the result and the
new heap. -/
def take (nunits prevp p : Nat) (h : Heap) : Nat × Heap :=
  if h.size p = nunits then
    (plus p 1, { h.setPtr prevp (h.ptr p) with freep := prevp })
  else
    let h := h.setSize p (h.size p - nunits)
    let p := plus p (h.size p)
    (plus p 1, { h.setSize p nunits with freep := prevp })

/-- The loop of `malloc`. `sbrks i` is what `sbrk` does at the `i`th call of `morecore`; the last
component of the result counts these calls. -/
def mallocLoop (nunits : Nat) (sbrks : Nat → Sbrk) :
    Nat → Nat → Nat → Nat → Heap → Except Stop (Nat × Heap × Nat)
  | 0, _, _, _, _ => .error .fuel
  | fuel + 1, calls, prevp, p, h =>
    if nunits ≤ h.size p then
      let (r, h) := take nunits prevp p h
      .ok (r, h, calls)
    else if p = h.freep then do
      let (p, h) ← morecore (sbrks calls) fuel nunits h
      if p = 0 then .ok (0, h, calls + 1)
      else mallocLoop nunits sbrks fuel (calls + 1) p (h.ptr p) h
    else mallocLoop nunits sbrks fuel calls p (h.ptr p) h

/-- The number of units `malloc` looks for. -/
def units (nbytes : Nat) : Nat := (nbytes + 8 - 1) % 2 ^ 32 / 8 + 1

/-- `malloc` makes the list at its first call; the variable `base` is at the address `base`. -/
def prepare (base : Nat) (h : Heap) : Heap :=
  if h.freep = 0 then ({ h with freep := base }.setPtr base base).setSize base 0 else h

def malloc (base fuel nbytes : Nat) (sbrks : Nat → Sbrk) (h : Heap) :
    Except Stop (Nat × Heap × Nat) :=
  let h := prepare base h
  mallocLoop (units nbytes) sbrks fuel 0 h.freep (h.ptr h.freep) h

end Malloc

section Runs

/-- A block that `malloc` has returned: what was asked for, and its header at that moment. -/
structure Live extends Block where
  nbytes : Nat
  ptr : Nat
  deriving DecidableEq, Repr

/-- A program that uses the allocator: its heap and the blocks it has not freed yet. -/
structure State where
  heap : Heap
  live : List Live

inductive Call
  | malloc (fuel nbytes : Nat) (gaps : Nat → Option Nat)
  | free (fuel ap : Nat)
  /-- The program stores the byte `v` at the address `a`. -/
  | write (a : Nat) (v : UInt8)

/-- The header of the block behind a pointer that `malloc` returned. -/
def Heap.live (h : Heap) (ap nbytes : Nat) : Live :=
  ⟨⟨ap - 8, h.size (ap - 8)⟩, nbytes, h.ptr (ap - 8)⟩

/-- A call that comes back. -/
def step (base : Nat) (s : State) : Call → Option State
  | .malloc fuel nbytes gaps =>
    match malloc base fuel nbytes (fun i => sbrk (gaps i)) s.heap with
    | .ok (ap, h, _) => some ⟨h, if ap = 0 then s.live else h.live ap nbytes :: s.live⟩
    | .error _ => none
  | .free fuel ap =>
    match free fuel ap s.heap with
    | .ok h => some ⟨h, s.live.filter fun b => b.addr + 8 ≠ ap⟩
    | .error _ => none
  | .write a v => some { s with heap := { s.heap with mem := Function.update s.heap.mem a v } }

/-- Before the first call; the program's variables lie below its heap. -/
def Init (base : Nat) (s : State) : Prop :=
  0 < base ∧ base + 8 ≤ s.heap.brk ∧ s.heap.brk < 2 ^ 32 ∧ s.heap.freep = 0 ∧ s.heap.got = [] ∧
    s.live = []

/-- `nunits * sizeof(Header)` is a positive `int`. -/
def Small (nbytes : Nat) : Prop := ((nbytes + 8 - 1) / 8 + 1) * 8 < 2 ^ 31

instance (nbytes : Nat) : Decidable (Small nbytes) := inferInstanceAs (Decidable (_ < _))

/-- The calls a correct program makes: it frees what it got from `malloc` and has not freed yet,
and of the allocator's memory it writes only the bytes behind the headers of its blocks. -/
def Proper (base : Nat) (s : State) : Call → Prop
  | .malloc _ nbytes _ => Small nbytes
  | .free _ ap => ∃ b ∈ s.live, ap = b.addr + 8
  | .write a _ => ¬ (base ≤ a ∧ a < base + 8) ∧
      ((∃ c ∈ s.heap.got, c.Has a) → ∃ b ∈ s.live, b.addr + 8 ≤ a ∧ a < b.stop)

instance (base : Nat) (s : State) (e : Call) : Decidable (Proper base s e) :=
  match e with
  | .malloc _ nbytes _ => inferInstanceAs (Decidable (Small nbytes))
  | .free _ ap => inferInstanceAs (Decidable (∃ b ∈ s.live, ap = b.addr + 8))
  | .write a _ => inferInstanceAs (Decidable (¬ (base ≤ a ∧ a < base + 8) ∧
      ((∃ c ∈ s.heap.got, c.Has a) → ∃ b ∈ s.live, b.addr + 8 ≤ a ∧ a < b.stop)))

end Runs

end Chameleon.Umalloc
