import Chameleon.Param
import Chameleon.Lib.Hoare
import Chameleon.Vm.Copyout

/-! The page allocator of `kalloc.c` and the functions of `vm.c` that build, copy and free
address spaces. Pages are named by their physical address, so `P2V` and `V2P` do not appear;
a null page pointer is `none`. A message is a panic of the code, or a write through a null
pointer that the code does not test. -/

namespace Chameleon.Vm

/-- Where the linker puts the kernel, as physical addresses, and how many CPUs were found. -/
structure Layout where
  /-- `V2P(data)` -/
  data : Nat
  /-- `V2P(end)` -/
  endp : Nat
  ncpu : Nat
  data_aligned : data % PGSIZE = 0
  extmem_lt_data : EXTMEM < data
  data_le_endp : data ≤ endp
  /-- The kernel leaves enough of the first 4 MB to `kinit1` for the calls of `kalloc` up to
  `kinit2`. -/
  endp_le : endp ≤ 0x1F0000
  ncpu_le : ncpu ≤ NCPU

/-- `memset(page, c, PGSIZE)`, in both views of the memory. -/
def Mem.fill (m : Mem) (page : Nat) (c : UInt8) : Mem where
  entry := Function.update m.entry page fun _ => c.toNat * 0x01010101
  byte := fun x => if page ≤ x ∧ x < page + PGSIZE then c else m.byte x

def Mem.setEntry (m : Mem) (page i w : Nat) : Mem :=
  { m with entry := Function.update m.entry page (Function.update (m.entry page) i w) }

/-- `memmove(dst, src, PGSIZE)` for two pages that hold user data. -/
def Mem.copyPage (m : Mem) (dst src : Nat) : Mem :=
  { m with byte := fun x => if dst ≤ x ∧ x < dst + PGSIZE then m.byte (src + (x - dst)) else m.byte x }

structure Kmem where
  mem : Mem
  freelist : List Nat
  /-- Which of the next calls of `kalloc` are refused although pages are left. -/
  deny : List Bool

namespace Kmem

def setMem (k : Kmem) (f : Mem → Mem) : Kmem := { k with mem := f k.mem }

end Kmem

abbrev Kern := Hoare.Prog Kmem

def kalloc : Kern (Option Nat) := fun k =>
  match k.deny, k.freelist with
  | true :: ds, _ => .ok (none, { k with deny := ds })
  | ds, [] => .ok (none, { k with deny := ds.tail })
  | ds, r :: rs => .ok (some r, { k with freelist := rs, deny := ds.tail })

def kfree (L : Layout) (v : Nat) : Kern Unit := do
  if v % PGSIZE ≠ 0 ∨ v < L.endp ∨ PHYSTOP ≤ v then throw "kfree"
  else modify fun k => { k.setMem (·.fill v 1) with freelist := v :: k.freelist }

/-- `n` turns of the loop of `freerange`. -/
def freePages (L : Layout) : Nat → Nat → Kern Unit
  | 0, _ => pure ()
  | n + 1, p => do
    kfree L p
    freePages L n (p + PGSIZE)

/-- `freerange(vstart, vend)`: the pages that fit between the two. -/
def freerange (L : Layout) (vstart vend : Nat) : Kern Unit :=
  freePages L ((vend - PGROUNDUP vstart) / PGSIZE) (PGROUNDUP vstart)

/-- `walkpgdir(pgdir, va, 1)`. -/
def walkpgdirAlloc (pgdir va : Nat) : Kern (Option (Nat × Nat)) := do
  let k ← get
  match walkpgdir k.mem pgdir va with
  | some e => pure (some e)
  | none =>
    match ← kalloc with
    | none => pure none
    | some pgtab =>
      modify fun k => k.setMem fun m =>
        (m.fill pgtab 0).setEntry pgdir (PDX va) (pgtab ||| PTE_P ||| PTE_W ||| PTE_U)
      pure (some (pgtab, PTX va))

/-- One turn of the loop of `mappages`: make the entry of page `a` point to `pa`. -/
def mappage (pgdir perm a pa : Nat) : Kern Bool := do
  match ← walkpgdirAlloc pgdir a with
  | none => pure false
  | some (t, i) =>
    let k ← get
    if present (k.mem.entry t i) then throw "remap"
    else
      modify fun k => k.setMem (·.setEntry t i (pa ||| perm ||| PTE_P))
      pure true

/-- The loop of `mappages`, with `n` turns after the one for page `a`. -/
def mapLoop (pgdir perm : Nat) : Nat → Nat → Nat → Kern Int
  | 0, a, pa => do
    if ← mappage pgdir perm a pa then pure 0 else pure (-1)
  | n + 1, a, pa => do
    if ← mappage pgdir perm a pa then
      mapLoop pgdir perm n ((a + PGSIZE) % WORD) ((pa + PGSIZE) % WORD)
    else pure (-1)

/-- `mappages(pgdir, va, size, pa, perm)`. The loop ends when `a == last`, in 32-bit
arithmetic. -/
def mappages (pgdir va size pa perm : Nat) : Kern Int :=
  let a := PGROUNDDOWN va
  let last := PGROUNDDOWN ((va + size + WORD - 1) % WORD)
  mapLoop pgdir perm ((last + WORD - a) % WORD / PGSIZE) a pa

/-- The loop of `deallocuvm` at address `a`, for at most `n` pages up to `oldsz`. -/
def deallocLoop (L : Layout) (pgdir oldsz : Nat) : Nat → Nat → Kern Unit
  | 0, _ => pure ()
  | n + 1, a => do
    if a < oldsz then
      let k ← get
      match walkpgdir k.mem pgdir a with
      | none => deallocLoop L pgdir oldsz n (PGADDR (PDX a + 1) 0 0)
      | some (t, i) =>
        if present (k.mem.entry t i) then
          if PTE_ADDR (k.mem.entry t i) = 0 then throw "kfree"
          else
            kfree L (PTE_ADDR (k.mem.entry t i))
            modify fun k => k.setMem (·.setEntry t i 0)
            deallocLoop L pgdir oldsz n (a + PGSIZE)
        else deallocLoop L pgdir oldsz n (a + PGSIZE)
    else pure ()

/-- The number of pages that start in `[a, b)`, for a page-aligned `a`. -/
def pagesIn (a b : Nat) : Nat := (b - a + (PGSIZE - 1)) / PGSIZE

def deallocuvm (L : Layout) (pgdir oldsz newsz : Nat) : Kern Nat := do
  if newsz ≥ oldsz then pure oldsz
  else
    deallocLoop L pgdir oldsz (pagesIn (PGROUNDUP newsz) oldsz) (PGROUNDUP newsz)
    pure newsz

/-- `n` turns of the loop of `freevm` that frees the page tables, from index `i` on. -/
def freeTables (L : Layout) (pgdir : Nat) : Nat → Nat → Kern Unit
  | 0, _ => pure ()
  | n + 1, i => do
    let k ← get
    if present (k.mem.entry pgdir i) then
      kfree L (PTE_ADDR (k.mem.entry pgdir i))
      freeTables L pgdir n (i + 1)
    else freeTables L pgdir n (i + 1)

def freevm (L : Layout) (pgdir : Nat) : Kern Unit := do
  let _ ← deallocuvm L pgdir KERNBASE 0
  freeTables L pgdir NPDENTRIES 0
  kfree L pgdir

/-- A row of the table `kmap`. -/
structure Kmap where
  virt : Nat
  phys_start : Nat
  phys_end : Nat
  perm : Nat

def kmap (L : Layout) : List Kmap :=
  [⟨KERNBASE, 0, EXTMEM, PTE_W⟩,
   ⟨KERNLINK, EXTMEM, L.data, 0⟩,
   ⟨L.data + KERNBASE, L.data, PHYSTOP, PTE_W⟩,
   ⟨DEVSPACE, DEVSPACE, 0, PTE_W⟩]

/-- The loop of `setupkvm` over the rows of `kmap`, up to the first that fails. -/
def mapRows (pgdir : Nat) : List Kmap → Kern Int
  | [] => pure 0
  | e :: es => do
    let r ← mappages pgdir e.virt ((e.phys_end + WORD - e.phys_start) % WORD) e.phys_start e.perm
    if r < 0 then pure (-1) else mapRows pgdir es

def setupkvm (L : Layout) : Kern (Option Nat) := do
  match ← kalloc with
  | none => pure none
  | some pgdir =>
    modify fun k => k.setMem (·.fill pgdir 0)
    if PHYSTOP + KERNBASE > DEVSPACE then throw "PHYSTOP too high"
    else
      let r ← mapRows pgdir (kmap L)
      if r < 0 then
        freevm L pgdir
        pure none
      else pure (some pgdir)

/-- `inituvm(pgdir, init, sz)`, which does not test the result of `kalloc` or `mappages`. -/
def inituvm (pgdir : Nat) (init : List UInt8) : Kern Unit := do
  if init.length ≥ PGSIZE then throw "inituvm: more than a page"
  else
    match ← kalloc with
    | none => throw "inituvm: null page"
    | some mem =>
      modify fun k => k.setMem (·.fill mem 0)
      let _ ← mappages pgdir 0 PGSIZE mem (PTE_W ||| PTE_U)
      modify fun k => k.setMem fun m => m.setBytes (Bytes.store m.byte mem init)

/-- `n` turns of the loop of `allocuvm`, from page `a` on. -/
def allocLoop (L : Layout) (pgdir oldsz newsz : Nat) : Nat → Nat → Kern Nat
  | 0, _ => pure newsz
  | n + 1, a => do
    match ← kalloc with
    | none =>
      let _ ← deallocuvm L pgdir newsz oldsz
      pure 0
    | some mem =>
      modify fun k => k.setMem (·.fill mem 0)
      let r ← mappages pgdir a PGSIZE mem (PTE_W ||| PTE_U)
      if r < 0 then
        let _ ← deallocuvm L pgdir newsz oldsz
        kfree L mem
        pure 0
      else allocLoop L pgdir oldsz newsz n (a + PGSIZE)

def allocuvm (L : Layout) (pgdir oldsz newsz : Nat) : Kern Nat :=
  if newsz ≥ KERNBASE then pure 0
  else if newsz < oldsz then pure oldsz
  else allocLoop L pgdir oldsz newsz (pagesIn (PGROUNDUP oldsz) newsz) (PGROUNDUP oldsz)

/-- `n` turns of the loop of `copyuvm`, from page `i` on; `false` is its `goto bad`. -/
def copyLoop (L : Layout) (pgdir d : Nat) : Nat → Nat → Kern Bool
  | 0, _ => pure true
  | n + 1, i => do
    let k ← get
    match walkpgdir k.mem pgdir i with
    | none => throw "copyuvm: pte should exist"
    | some (t, j) =>
      if !present (k.mem.entry t j) then throw "copyuvm: page not present"
      else
        match ← kalloc with
        | none => pure false
        | some mem =>
          modify fun k' => k'.setMem (·.copyPage mem (PTE_ADDR (k.mem.entry t j)))
          let r ← mappages d i PGSIZE mem (PTE_FLAGS (k.mem.entry t j))
          if r < 0 then
            kfree L mem
            pure false
          else copyLoop L pgdir d n (i + PGSIZE)

def copyuvm (L : Layout) (pgdir sz : Nat) : Kern (Option Nat) := do
  match ← setupkvm L with
  | none => pure none
  | some d =>
    if ← copyLoop L pgdir d (pagesIn 0 sz) 0 then pure (some d)
    else
      freevm L d
      pure none

/-- `*pte & ~PTE_U` -/
def clearU (pte : Nat) : Nat := if user pte then pte - PTE_U else pte

def clearpteu (pgdir uva : Nat) : Kern Unit := do
  let k ← get
  match walkpgdir k.mem pgdir uva with
  | none => throw "clearpteu"
  | some (t, i) => modify fun k => k.setMem (·.setEntry t i (clearU (k.mem.entry t i)))

/-- The bytes `readi` delivers from the program file: `n` of them from offset `off`, or
fewer at the end of the file. -/
abbrev File := Nat → Nat → List UInt8

/-- `n` turns of the loop of `loaduvm`, at page offset `i`. -/
def loadLoop (file : File) (pgdir addr offset sz : Nat) : Nat → Nat → Kern Int
  | 0, _ => pure 0
  | n + 1, i => do
    let k ← get
    match walkpgdir k.mem pgdir (addr + i) with
    | none => throw "loaduvm: address should exist"
    | some (t, j) =>
      let got := file ((offset + i) % WORD) (min (sz - i) PGSIZE)
      modify fun k => k.setMem fun m =>
        m.setBytes (Bytes.store m.byte (PTE_ADDR (m.entry t j)) got)
      if got.length ≠ min (sz - i) PGSIZE then pure (-1)
      else loadLoop file pgdir addr offset sz n (i + PGSIZE)

def loaduvm (file : File) (pgdir addr offset sz : Nat) : Kern Int :=
  if addr % PGSIZE ≠ 0 then throw "loaduvm: addr must be page aligned"
  else loadLoop file pgdir addr offset sz (pagesIn 0 sz) 0

end Chameleon.Vm
