import Chameleon.Vm.Uvm

/-! `exec` of `exec.c`, from the bytes of the program file on. A watch is a ghost statement that
is told the new page directory and the value of `sz`; the code calls it wherever it changes the
memory of the new image. -/

namespace Chameleon.Vm
open Hoare

abbrev ELF_MAGIC : Nat := 0x464C457F

/-- `sizeof(struct elfhdr)` -/
abbrev ELFHDRSIZE : Nat := 52

/-- `sizeof(struct proghdr)` -/
abbrev PROGHDRSIZE : Nat := 32

abbrev ELF_PROG_LOAD : Nat := 1

abbrev MAXARG : Nat := 32

structure Proghdr where
  type : Nat
  off : Nat
  vaddr : Nat
  filesz : Nat
  memsz : Nat
deriving DecidableEq

/-- The little-endian number in `n` bytes from offset `off` on. -/
def field (bs : List UInt8) (off n : Nat) : Nat :=
  ((bs.drop off).take n).foldr (fun b x => b.toNat + 256 * x) 0

structure Elfhdr where
  magic : Nat
  entry : Nat
  phoff : Nat
  phnum : Nat

def elfhdr (bs : List UInt8) : Elfhdr where
  magic := field bs 0 4
  entry := field bs 24 4
  phoff := field bs 28 4
  phnum := field bs 44 2

def proghdr (bs : List UInt8) : Proghdr where
  type := field bs 0 4
  off := field bs 4 4
  vaddr := field bs 8 4
  filesz := field bs 16 4
  memsz := field bs 20 4

theorem field_lt (bs : List UInt8) (off n : Nat) : field bs off n < 256 ^ n := by
  have hfold : ∀ l : List UInt8, l.foldr (fun b x => b.toNat + 256 * x) 0 < 256 ^ l.length := by
    intro l
    induction l with
    | nil => exact Nat.one_pos
    | cons b l ih =>
      have hb := b.toNat_lt
      rw [List.foldr_cons, List.length_cons, Nat.pow_succ]
      omega
  refine lt_of_lt_of_le (hfold _) (Nat.pow_le_pow_right (by decide) ?_)
  exact List.length_take_le _ _

theorem proghdr_lt (bs : List UInt8) : (proghdr bs).vaddr < WORD ∧ (proghdr bs).memsz < WORD :=
  ⟨field_lt bs 8 4, field_lt bs 20 4⟩

/-- The bytes that `readi(ip, dst, off, n)` delivers from a file; none when it returns -1. -/
def readi (content : List UInt8) : File := fun off n =>
  if off > content.length ∨ (off + n) % WORD < off then [] else (content.drop off).take n

/-- `copyout`, as the code of `exec` uses it. -/
abbrev Copyout := Nat → Nat → List UInt8 → Kern Int

/-- `copyout` on the memory of the kernel, where `null` is what the null pointer reads. -/
def copyoutK (null : Except Fault Nat) : Copyout := fun pgdir va buf k =>
  match copyout Mem.setBytes null k.mem pgdir va buf with
  | (.error _, _) => .error "null PTE pointer"
  | (.ok r, m) => .ok (r, k.setMem fun _ => m)

/-- `copyout` taken to return -1 on an unmapped page: the null pointer reads as an entry that is
not present. -/
abbrev copyoutChecked : Copyout := copyoutK (.ok 0)

/-- The bytes of a 32-bit word. -/
def wordBytes (w : Nat) : List UInt8 :=
  [UInt8.ofNat w, UInt8.ofNat (w / 2 ^ 8), UInt8.ofNat (w / 2 ^ 16), UInt8.ofNat (w / 2 ^ 24)]

namespace Watched

/-- `n` turns of the loop of `allocuvm`, from page `a` on. -/
def allocLoop (w : Kern Unit) (L : Layout) (pgdir oldsz newsz : Nat) : Nat → Nat → Kern Nat
  | 0, _ => pure newsz
  | n + 1, a => do
    match ← kalloc with
    | none =>
      let _ ← deallocuvm L pgdir newsz oldsz
      w
      pure 0
    | some mem =>
      modify fun k => k.setMem (·.fill mem 0)
      w
      let r ← mappages pgdir a PGSIZE mem (PTE_W ||| PTE_U)
      w
      if r < 0 then
        let _ ← deallocuvm L pgdir newsz oldsz
        w
        kfree L mem
        w
        pure 0
      else allocLoop w L pgdir oldsz newsz n (a + PGSIZE)

def allocuvm (w : Kern Unit) (L : Layout) (pgdir oldsz newsz : Nat) : Kern Nat :=
  if newsz ≥ KERNBASE then pure 0
  else if newsz < oldsz then pure oldsz
  else allocLoop w L pgdir oldsz newsz (pagesIn (PGROUNDUP oldsz) newsz) (PGROUNDUP oldsz)

/-- The loop of `exec` over the program headers, with `n` left, the next one at `off`; `none` is
its `goto bad`. -/
def loadSegments (w : Nat → Kern Unit) (L : Layout) (content : List UInt8) (pgdir : Nat) :
    Nat → Nat → Nat → Kern (Option Nat)
  | 0, _, sz => pure (some sz)
  | n + 1, off, sz =>
    let bytes := readi content off PROGHDRSIZE
    let ph := proghdr bytes
    if bytes.length ≠ PROGHDRSIZE then pure none
    else if ph.type ≠ ELF_PROG_LOAD then
      loadSegments w L content pgdir n ((off + PROGHDRSIZE) % WORD) sz
    else if ph.memsz < ph.filesz then pure none
    else if (ph.vaddr + ph.memsz) % WORD < ph.vaddr then pure none
    else do
      let sz ← allocuvm (w sz) L pgdir sz ((ph.vaddr + ph.memsz) % WORD)
      w sz
      if sz = 0 then pure none
      else if ph.vaddr % PGSIZE ≠ 0 then pure none
      else
        let r ← loaduvm (readi content) pgdir ph.vaddr ph.off ph.filesz
        w sz
        if r < 0 then pure none
        else loadSegments w L content pgdir n ((off + PROGHDRSIZE) % WORD) sz

/-- The loop of `exec` that pushes the argument strings: the stack pointer and the words of
`ustack` it has collected, or `none` for its `goto bad`. -/
def pushArgs (w : Kern Unit) (co : Copyout) (pgdir : Nat) :
    List (List UInt8) → Nat → List Nat → Kern (Option (Nat × List Nat))
  | [], sp, ustack => pure (some (sp, ustack))
  | arg :: rest, sp, ustack =>
    if ustack.length ≥ MAXARG then pure none
    else do
      let sp := (sp + WORD - (arg.length + 1) % WORD) % WORD / 4 * 4
      let r ← co pgdir sp (arg ++ [0])
      w
      if r < 0 then pure none else pushArgs w co pgdir rest sp (ustack ++ [sp])

/-- The end of `ustack`, on top of the pushed strings: the final stack pointer, or `none` for
its `goto bad`. -/
def pushUstack (w : Kern Unit) (co : Copyout) (pgdir sp : Nat) (args : List Nat) : Kern (Option Nat) := do
  let argc := args.length
  let ustack := [0xffffffff, argc, (sp + WORD - (argc + 1) * 4) % WORD] ++ args ++ [0]
  let sp := (sp + WORD - (3 + argc + 1) * 4) % WORD
  let r ← co pgdir sp (ustack.flatMap wordBytes)
  w
  if r < 0 then pure none else pure (some sp)

/-- The part of `exec` between the end of the transaction and the commit: the size of the new
image and the stack pointer, or `none` for its `goto bad`. -/
def buildStack (w : Nat → Kern Unit) (co : Copyout) (L : Layout) (argv : List (List UInt8)) (pgdir sz : Nat) :
    Kern (Option (Nat × Nat)) := do
  let sz := PGROUNDUP sz
  w sz
  let sz ← allocuvm (w sz) L pgdir sz ((sz + 2 * PGSIZE) % WORD)
  w sz
  if sz = 0 then pure none
  else
    clearpteu pgdir (sz - 2 * PGSIZE)
    w sz
    match ← pushArgs (w sz) co pgdir argv sz [] with
    | none => pure none
    | some (sp, args) =>
      match ← pushUstack (w sz) co pgdir sp args with
      | none => pure none
      | some sp => pure (some (sz, sp))

end Watched

/-! ### The whole call -/

/-- What `exec` replaces in the calling process. -/
structure UserImage where
  pgdir : Nat
  sz : Nat
  eip : Nat
  esp : Nat
  name : List UInt8

/-- What `exec` does to the log and to the inode of the program. -/
structure FsUse where
  begun : Nat
  ended : Nat
  refs : Nat
  locked : Bool
  deriving DecidableEq

structure ExecState where
  kmem : Kmem
  user : UserImage
  fs : FsUse

abbrev ExecM := Prog ExecState

/-- A function of `vm.c`, which works on memory only. -/
def onKmem {α : Type} (x : Kern α) : ExecM α := fun s =>
  match x.run s.kmem with
  | .error e => .error e
  | .ok (a, k) => .ok (a, { s with kmem := k })

def begin_op : ExecM Unit := modify fun s => { s with fs := { s.fs with begun := s.fs.begun + 1 } }

def end_op : ExecM Unit := modify fun s => { s with fs := { s.fs with ended := s.fs.ended + 1 } }

/-- `namei(path)`: the file that the path leads to, with a reference to its inode. -/
def namei (file : Option (List UInt8)) : ExecM (Option (List UInt8)) := do
  if file.isSome then modify fun s => { s with fs := { s.fs with refs := s.fs.refs + 1 } }
  pure file

def ilock : ExecM Unit := do
  let s ← get
  if s.fs.refs < 1 then throw "ilock" else set { s with fs := { s.fs with locked := true } }

def iunlockput : ExecM Unit := do
  let s ← get
  if !s.fs.locked || s.fs.refs < 1 then throw "iunlock"
  else set { s with fs := { s.fs with locked := false, refs := s.fs.refs - 1 } }

/-- The code at `bad`, given `pgdir` and whether `ip` is not 0. There is no new image then. -/
def bad (L : Layout) (pgdir : Option Nat) (ip : Bool) : ExecM (Option UserImage) := do
  match pgdir with
  | some d => onKmem (freevm L d)
  | none => pure ()
  if ip then
    iunlockput
    end_op
    pure none
  else pure none

/-- What `safestrcpy(curproc->name, last, sizeof(curproc->name))` stores: the part of the path
after its last slash, cut to 15 bytes. -/
def progName (path : List UInt8) : List UInt8 :=
  ((path.reverse.takeWhile (· ≠ 47)).reverse).take 15

/-- The part of `exec` after the check of the ELF header, up to the commit. -/
def loadImage (w : Nat → Nat → Kern Unit) (co : Copyout) (L : Layout) (path content : List UInt8)
    (argv : List (List UInt8)) (elf : Elfhdr) : ExecM (Option UserImage) := do
  match ← onKmem (setupkvm L) with
  | none => bad L none true
  | some pgdir =>
    match ← onKmem (Watched.loadSegments (w pgdir) L content pgdir elf.phnum elf.phoff 0) with
    | none => bad L (some pgdir) true
    | some sz =>
      iunlockput
      end_op
      match ← onKmem (Watched.buildStack (w pgdir) co L argv pgdir sz) with
      | none => bad L (some pgdir) false
      | some (sz, sp) =>
        pure (some { pgdir := pgdir, sz := sz, eip := elf.entry, esp := sp, name := progName path })

/-- The part of `exec` up to the commit, where `file` is what the path leads to: the new image,
or `none` where the code returns -1. -/
def prepare (w : Nat → Nat → Kern Unit) (co : Copyout) (L : Layout) (path : List UInt8)
    (file : Option (List UInt8)) (argv : List (List UInt8)) : ExecM (Option UserImage) := do
  begin_op
  match ← namei file with
  | none =>
    end_op
    pure none
  | some content =>
    ilock
    let bytes := readi content 0 ELFHDRSIZE
    if bytes.length ≠ ELFHDRSIZE then bad L none true
    else if (elfhdr bytes).magic ≠ ELF_MAGIC then bad L none true
    else loadImage w co L path content argv (elfhdr bytes)

/-- The commit to the new image. -/
def commit (L : Layout) (new : UserImage) : ExecM Int := do
  let s ← get
  set { s with user := new }
  onKmem (freevm L s.user.pgdir)
  pure 0

/-- `exec(path, argv)` with a watch. -/
def execWatched (w : Nat → Nat → Kern Unit) (co : Copyout) (L : Layout) (path : List UInt8)
    (file : Option (List UInt8)) (argv : List (List UInt8)) : ExecM Int := do
  match ← prepare w co L path file argv with
  | none => pure (-1)
  | some new => commit L new

/-- The code itself, without a watch. -/
def execFile (co : Copyout) (L : Layout) (path : List UInt8) (file : Option (List UInt8))
    (argv : List (List UInt8)) : ExecM Int :=
  execWatched (fun _ _ => pure ()) co L path file argv

/-! ### Watches do not change what the code does -/

namespace Watched
variable {w : Kern Unit} {ws : Nat → Kern Unit} {L : Layout} {co : Copyout} {pgdir : Nat}

/-- Without a watch the functions are those of `vm.c`. -/
theorem allocuvm_unwatched (L : Layout) (d oldsz newsz : Nat) :
    allocuvm (pure ()) L d oldsz newsz = Vm.allocuvm L d oldsz newsz := by
  have hloop : ∀ n a, allocLoop (pure ()) L d oldsz newsz n a = Vm.allocLoop L d oldsz newsz n a := by
    intro n
    induction n with
    | zero => exact fun a => rfl
    | succ n ih =>
      intro a
      rw [allocLoop, Vm.allocLoop]
      refine bind_congr fun r => ?_
      cases r with
      | none => simp only [pure_bind]
      | some mem => simp only [pure_bind, ih]
  rw [allocuvm, Vm.allocuvm, hloop]

theorem allocLoop_erases (hw : Watches w) {oldsz newsz : Nat} (n : Nat) {a : Nat} :
    Erases (allocLoop w L pgdir oldsz newsz n a) (allocLoop (pure ()) L pgdir oldsz newsz n a) := by
  induction n generalizing a with
  | zero => exact Erases.refl _
  | succ n ih =>
    refine (Erases.refl _).bind fun r => ?_
    cases r with
    | none => exact (Erases.refl _).bind fun _ => (Erases.refl _).watch hw
    | some mem =>
      refine (Erases.refl _).bind fun _ => Erases.watch hw ?_
      refine (Erases.refl _).bind fun r => Erases.watch hw (Erases.ite ?_ ih)
      exact (Erases.refl _).bind fun _ => Erases.watch hw ((Erases.refl _).bind fun _ => (Erases.refl _).watch hw)

theorem allocuvm_erases (hw : Watches w) {oldsz newsz : Nat} :
    Erases (allocuvm w L pgdir oldsz newsz) (allocuvm (pure ()) L pgdir oldsz newsz) :=
  (Erases.refl _).ite ((Erases.refl _).ite (allocLoop_erases hw _))

theorem loadSegments_erases (hw : ∀ sz, Watches (ws sz)) {content : List UInt8} (n : Nat) {off sz : Nat} :
    Erases (loadSegments ws L content pgdir n off sz)
      (loadSegments (fun _ => pure ()) L content pgdir n off sz) := by
  induction n generalizing off sz with
  | zero => exact Erases.refl _
  | succ n ih =>
    refine (Erases.refl _).ite (ih.ite ((Erases.refl _).ite ((Erases.refl _).ite ?_)))
    refine (allocuvm_erases (hw _)).bind fun r => Erases.watch (hw _) ?_
    refine (Erases.refl _).ite ((Erases.refl _).ite ((Erases.refl _).bind fun r => Erases.watch (hw _) ?_))
    exact (Erases.refl _).ite ih

theorem pushArgs_erases (hw : Watches w) (argv : List (List UInt8)) {sp : Nat} {ustack : List Nat} :
    Erases (pushArgs w co pgdir argv sp ustack) (pushArgs (pure ()) co pgdir argv sp ustack) := by
  induction argv generalizing sp ustack with
  | nil => exact Erases.refl _
  | cons arg rest ih =>
    refine (Erases.refl _).ite ((Erases.refl _).bind fun r => Erases.watch hw ?_)
    exact (Erases.refl _).ite ih

theorem buildStack_erases (hw : ∀ sz, Watches (ws sz)) {argv : List (List UInt8)} {sz : Nat} :
    Erases (buildStack ws co L argv pgdir sz) (buildStack (fun _ => pure ()) co L argv pgdir sz) := by
  refine Erases.watch (hw _) ((allocuvm_erases (hw _)).bind fun r => Erases.watch (hw _) ?_)
  refine (Erases.refl _).ite ((Erases.refl _).bind fun _ => Erases.watch (hw _) ?_)
  refine (pushArgs_erases (hw _) argv).bind fun args => ?_
  cases args with
  | none => exact Erases.refl _
  | some args =>
    refine Erases.bind ?_ fun _ => Erases.refl _
    exact (Erases.refl _).bind fun _ => (Erases.refl _).watch (hw _)

end Watched

theorem onKmem_erases {α : Type} {x y : Kern α} (h : Erases x y) : Erases (onKmem x) (onKmem y) := by
  intro s r hr
  unfold onKmem at hr ⊢
  simp only [StateT.run] at hr ⊢
  cases hx : x s.kmem with
  | error e =>
    rw [hx] at hr
    cases hr
  | ok p =>
    have hy : y s.kmem = .ok p := h s.kmem p hx
    rw [hx] at hr
    rw [hy]
    exact hr

theorem execWatched_erases {w : Nat → Nat → Kern Unit} (hw : ∀ d sz, Watches (w d sz)) (co : Copyout)
    (L : Layout) (path : List UInt8) (file : Option (List UInt8)) (argv : List (List UInt8)) :
    Erases (execWatched w co L path file argv) (execFile co L path file argv) := by
  have hload : ∀ content elf, Erases (loadImage w co L path content argv elf)
      (loadImage (fun _ _ => pure ()) co L path content argv elf) := by
    intro content elf
    refine (Erases.refl _).bind fun r => ?_
    cases r with
    | none => exact Erases.refl _
    | some pgdir =>
      refine (onKmem_erases (Watched.loadSegments_erases (hw pgdir) _)).bind fun r => ?_
      cases r with
      | none => exact Erases.refl _
      | some sz =>
        refine (Erases.refl _).bind fun _ => (Erases.refl _).bind fun _ => ?_
        exact (onKmem_erases (Watched.buildStack_erases (hw pgdir))).bind fun _ => Erases.refl _
  refine Erases.bind ?_ fun _ => Erases.refl _
  refine (Erases.refl _).bind fun _ => (Erases.refl _).bind fun r => ?_
  cases r with
  | none => exact Erases.refl _
  | some content => exact (Erases.refl _).bind fun _ => (Erases.refl _).ite ((Erases.refl _).ite (hload _ _))

end Chameleon.Vm
