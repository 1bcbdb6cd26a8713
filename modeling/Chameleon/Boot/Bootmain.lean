import Chameleon.Lib.Bytes
import Chameleon.Lib.While
import Chameleon.Vm.Exec

/-! The boot loader of `bootmain.c`. `disk` is the boot disk byte by byte; the kernel image begins at its sector 1. -/

namespace Chameleon.Bootmain
open Bytes
open Vm (WORD EXTMEM ELF_MAGIC)

abbrev SECTSIZE : Nat := 512

/-- Bytes stored at consecutive 32-bit addresses. -/
def put (mem : Nat → UInt8) (a : Nat) (bs : List UInt8) : Nat → UInt8 :=
  scatter mem (fun i => (a + i) % WORD) bs bs.length

/-- `readsect`: the number of the sector goes to the disk in 28 bits. -/
def readsect (disk : Nat → UInt8) (dst offset : Nat) (mem : Nat → UInt8) : Nat → UInt8 :=
  put mem dst (slice disk (SECTSIZE * (offset % 2 ^ 28)) SECTSIZE)

/-- The variables of the loop of `readseg`, and the memory. -/
structure Copy where
  mem : Nat → UInt8
  pa : Nat
  offset : Nat

def copySector (disk : Nat → UInt8) (s : Copy) : Copy :=
  ⟨readsect disk s.pa s.offset s.mem, (s.pa + SECTSIZE) % WORD, (s.offset + 1) % WORD⟩

def readseg (fuel : Nat) (disk : Nat → UInt8) (pa count offset : Nat) (mem : Nat → UInt8) : Option (Nat → UInt8) :=
  let epa := (pa + count) % WORD
  -- round down to a sector boundary
  let pa := (pa + (WORD - offset % SECTSIZE)) % WORD
  (While.run (fun s => s.pa < epa) (copySector disk) fuel ⟨mem, pa, offset / SECTSIZE + 1⟩).map Copy.mem

/-- The fields of a program header that the loader reads. -/
structure Proghdr where
  off : Nat
  paddr : Nat
  filesz : Nat
  memsz : Nat
  deriving DecidableEq

def proghdr (mem : Nat → UInt8) (ph : Nat) : Proghdr where
  off := number (slice mem (ph + 4) 4)
  paddr := number (slice mem (ph + 12) 4)
  filesz := number (slice mem (ph + 16) 4)
  memsz := number (slice mem (ph + 20) 4)

/-- The body of the loop over the program headers. The header is read again after the segment has been copied. -/
def loadSegment (fuel : Nat) (disk : Nat → UInt8) (ph : Nat) (mem : Nat → UInt8) : Option (Nat → UInt8) :=
  let pa := (proghdr mem ph).paddr
  (readseg fuel disk pa (proghdr mem ph).filesz (proghdr mem ph).off mem).map fun mem =>
    let h := proghdr mem ph
    if h.memsz > h.filesz then put mem (pa + h.filesz) (List.replicate (h.memsz - h.filesz) 0) else mem

def loadSegments (fuel : Nat) (disk : Nat → UInt8) (eph : Nat) : Nat → Nat → (Nat → UInt8) → Option (Nat → UInt8)
  | 0, _, _ => none
  | n + 1, ph, mem =>
    if ph < eph then (loadSegment fuel disk ph mem).bind (loadSegments fuel disk eph n ((ph + 32) % WORD)) else some mem

/-- How `bootmain` ends: it returns to `bootasm.S`, or it jumps to the entry point of the kernel. -/
inductive Outcome
  | returns (mem : Nat → UInt8)
  | jumps (entry : Nat) (mem : Nat → UInt8)

/-- The scratch space for the first page of the image. -/
abbrev elf : Nat := 0x10000

def phoff (elf : Nat) (mem : Nat → UInt8) : Nat := number (slice mem (elf + 28) 4)

def phnum (elf : Nat) (mem : Nat → UInt8) : Nat := number (slice mem (elf + 44) 2)

def entry (elf : Nat) (mem : Nat → UInt8) : Nat := number (slice mem (elf + 24) 4)

def bootmain (fuel : Nat) (disk mem : Nat → UInt8) : Option Outcome :=
  (readseg fuel disk elf 4096 0 mem).bind fun mem =>
    if number (slice mem elf 4) ≠ ELF_MAGIC then some (.returns mem)
    else
      let ph := (elf + phoff elf mem) % WORD
      let eph := (ph + 32 * phnum elf mem) % WORD
      (loadSegments fuel disk eph fuel ph mem).map fun mem => .jumps (entry elf mem) mem

section Copying
variable {mem disk : Nat → UInt8} {a : Nat} {bs : List UInt8}

theorem put_eq_store (h : a + bs.length ≤ WORD) : put mem a bs = store mem a bs := by
  have hp : ∀ i < bs.length, (a + i) % WORD = a + i := fun i hi => Nat.mod_eq_of_lt (by omega)
  rw [put, scatter_congr mem bs hp, scatter_add mem a bs (Nat.le_refl _), List.take_length]

theorem copySector_eq {pa offset : Nat} (hpa : pa + SECTSIZE < WORD) (hdisk : offset < 2 ^ 28) :
    copySector disk ⟨mem, pa, offset⟩ =
      ⟨store mem pa (slice disk (SECTSIZE * offset) SECTSIZE), pa + SECTSIZE, offset + 1⟩ := by
  have hlt : offset + 1 < WORD := Nat.lt_of_le_of_lt hdisk (by decide)
  have hfit : pa + (slice disk (SECTSIZE * offset) SECTSIZE).length ≤ WORD := by
    rw [length_slice]
    exact Nat.le_of_lt hpa
  unfold copySector readsect
  rw [Nat.mod_eq_of_lt hdisk, put_eq_store hfit, Nat.mod_eq_of_lt hpa, Nat.mod_eq_of_lt hlt]

/-- The loop of `readseg` copies the `n` sectors that begin below `epa`. -/
theorem copy_ends {epa : Nat} (n : Nat) {pa offset : Nat} (hend : epa ≤ pa + SECTSIZE * n)
    (hlast : pa + SECTSIZE * n < epa + SECTSIZE) (hwrap : pa + SECTSIZE * n < WORD) (hdisk : offset + n < 2 ^ 28) :
    ∃ t, While.Ends (fun s => s.pa < epa) (copySector disk) ⟨mem, pa, offset⟩ t ∧
      t.mem = store mem pa (slice disk (SECTSIZE * offset) (SECTSIZE * n)) := by
  induction n generalizing mem pa offset with
  | zero => exact ⟨_, .stop (decide_eq_false (Nat.not_lt.mpr hend)), (store_nil mem pa).symm⟩
  | succ n ih =>
    have hsplit : SECTSIZE * (n + 1) = SECTSIZE + SECTSIZE * n := by rw [Nat.mul_succ, Nat.add_comm]
    rw [hsplit] at hend hlast hwrap ⊢
    have hround : copySector disk ⟨mem, pa, offset⟩ =
        ⟨store mem pa (slice disk (SECTSIZE * offset) SECTSIZE), pa + SECTSIZE, offset + 1⟩ :=
      copySector_eq (by omega) (by omega)
    obtain ⟨t, ht, hmem⟩ := @ih (store mem pa (slice disk (SECTSIZE * offset) SECTSIZE)) (pa + SECTSIZE) (offset + 1)
      (by omega) (by omega) (by omega) (by omega)
    rw [← hround] at ht
    refine ⟨t, ht.round (decide_eq_true (by dsimp only; omega)), ?_⟩
    rw [hmem, slice_add, store_append, length_slice, Nat.mul_succ]

/-- The number of sectors that hold `count` bytes. -/
def sectors (count : Nat) : Nat := (count + (SECTSIZE - 1)) / SECTSIZE

theorem sectors_spec (count : Nat) : count ≤ SECTSIZE * sectors count ∧ SECTSIZE * sectors count < count + SECTSIZE := by
  unfold sectors SECTSIZE
  omega

theorem readseg_returns {pa count offset : Nat} (hoff : offset % SECTSIZE = 0) (hlt : offset < WORD)
    (hwrap : pa + SECTSIZE * sectors count < WORD) : Returns (fun fuel => readseg fuel disk pa count offset mem)
      (store mem pa (slice disk (SECTSIZE + offset) (SECTSIZE * sectors count))) := by
  obtain ⟨hle, hlast⟩ := sectors_spec count
  have hepa : (pa + count) % WORD = pa + count := Nat.mod_eq_of_lt (by omega)
  have hpa : (pa + (WORD - offset % SECTSIZE)) % WORD = pa := by
    rw [hoff, Nat.sub_zero, Nat.add_mod_right]
    exact Nat.mod_eq_of_lt (by omega)
  have hsector : SECTSIZE * (offset / SECTSIZE + 1) = SECTSIZE + offset := by
    unfold SECTSIZE at *
    omega
  have hdisk : offset / SECTSIZE + 1 + sectors count < 2 ^ 28 := by
    unfold SECTSIZE WORD at *
    omega
  obtain ⟨t, ht, hmem⟩ : ∃ t, While.Ends (fun s => s.pa < pa + count) (copySector disk) ⟨mem, pa, offset / SECTSIZE + 1⟩ t ∧
      t.mem = store mem pa (slice disk (SECTSIZE * (offset / SECTSIZE + 1)) (SECTSIZE * sectors count)) :=
    copy_ends (sectors count) (by omega) (by omega) hwrap hdisk
  unfold readseg
  rw [hepa, hpa, ← hsector, ← hmem]
  exact ht.map Copy.mem

end Copying

/-! ### The kernel image -/

/-- The kernel image on the boot disk. -/
def image (disk : Nat → UInt8) (i : Nat) : UInt8 := disk (SECTSIZE + i)

/-- The program headers of an image. -/
def segments (img : Nat → UInt8) : List Proghdr :=
  (List.range (phnum 0 img)).map fun i => proghdr img (phoff 0 img + 32 * i)

/-- The address `x` is in the memory of the segment. -/
def Proghdr.Has (s : Proghdr) (x : Nat) : Prop := s.paddr ≤ x ∧ x < s.paddr + s.memsz

/-- A segment in the memory above 1 MiB, at a sector boundary of the image. Its end and the end of its last sector
are 32-bit addresses. -/
structure Proghdr.Fits (s : Proghdr) : Prop where
  above : EXTMEM ≤ s.paddr
  filesz_le : s.filesz ≤ s.memsz
  aligned : s.off % SECTSIZE = 0
  memory : s.paddr + s.memsz ≤ WORD
  disk : s.paddr + SECTSIZE * sectors s.filesz < WORD

def Before (s t : Proghdr) : Prop := s.paddr ≤ t.paddr ∧ ∀ x, ¬ (s.Has x ∧ t.Has x)

/-- The images that the loader is made for. -/
structure Bootable (img : Nat → UInt8) : Prop where
  magic : number (slice img 0 4) = ELF_MAGIC
  headers : phoff 0 img + 32 * phnum 0 img ≤ 4096
  fits : ∀ s ∈ segments img, s.Fits
  ascending : (segments img).Pairwise Before

/-- The memory of a segment holds its bytes of the image, and zeros behind them. -/
structure Loaded (img mem : Nat → UInt8) (s : Proghdr) : Prop where
  file : ∀ i < s.filesz, mem (s.paddr + i) = img (s.off + i)
  zero : ∀ i, s.filesz ≤ i → i < s.memsz → mem (s.paddr + i) = 0

/-- The first page of the image is in the scratch space. -/
def Scratch (img mem : Nat → UInt8) : Prop := ∀ i < 4096, mem (elf + i) = img i

section Segments
variable {mem mem' disk img : Nat → UInt8} {s t : Proghdr} {o : Nat}

theorem Loaded.congr (h : Loaded img mem s) (hsame : ∀ x, s.Has x → mem' x = mem x) (hle : s.filesz ≤ s.memsz) :
    Loaded img mem' s := by
  constructor
  · intro i hi
    rw [hsame _ ⟨Nat.le_add_right .., by omega⟩]
    exact h.file i hi
  · intro i hlo hhi
    rw [hsame _ ⟨Nat.le_add_right .., by omega⟩]
    exact h.zero i hlo hhi

theorem proghdr_congr {a b : Nat} (h : ∀ i < 32, mem (a + i) = mem' (b + i)) : proghdr mem a = proghdr mem' b := by
  have hfield : ∀ k n, k + n ≤ 32 → slice mem (a + k) n = slice mem' (b + k) n := by
    intro k n hk
    apply slice_congr
    intro i hi
    rw [Nat.add_assoc, Nat.add_assoc]
    exact h (k + i) (by omega)
  unfold proghdr
  rw [hfield 4 4 (by decide), hfield 12 4 (by decide), hfield 16 4 (by decide), hfield 20 4 (by decide)]

theorem Scratch.proghdr (h : Scratch img mem) (ho : o + 32 ≤ 4096) : proghdr mem (elf + o) = proghdr img o := by
  apply proghdr_congr
  intro i hi
  rw [Nat.add_assoc]
  exact h (o + i) (by omega)

theorem Scratch.congr (h : Scratch img mem) (hsame : ∀ x < EXTMEM, mem' x = mem x) : Scratch img mem' := by
  intro i hi
  rw [hsame _ (by unfold EXTMEM elf; omega)]
  exact h i hi

theorem proghdr_off_lt (mem : Nat → UInt8) (a : Nat) : (proghdr mem a).off < WORD := by
  have hlt := number_lt (slice mem (a + 4) 4)
  rw [length_slice] at hlt
  exact hlt

/-- The loader writes the zeros behind the bytes of the file. -/
def zeroTail (mem : Nat → UInt8) (s : Proghdr) : Nat → UInt8 :=
  store mem (s.paddr + s.filesz) (List.replicate (s.memsz - s.filesz) 0)

/-- What a segment is loaded as: whole sectors, and then the zeros. -/
def load (disk mem : Nat → UInt8) (s : Proghdr) : Nat → UInt8 :=
  zeroTail (store mem s.paddr (slice disk (SECTSIZE + s.off) (SECTSIZE * sectors s.filesz))) s

theorem load_of_lt {x : Nat} (hx : x < s.paddr) : load disk mem s x = mem x := by
  unfold load zeroTail
  rw [store_of_lt _ _ (by omega), store_of_lt _ _ hx]

theorem load_loaded : Loaded (image disk) (load disk mem s) s := by
  obtain ⟨hle, -⟩ := sectors_spec s.filesz
  constructor
  · intro i hi
    have hin : i < (slice disk (SECTSIZE + s.off) (SECTSIZE * sectors s.filesz)).length := by
      rw [length_slice]
      omega
    unfold load zeroTail
    rw [store_of_lt _ _ (by omega), store_add _ _ hin, getElem_slice, Nat.add_assoc]
    rfl
  · intro i hlo hhi
    have hin : i - s.filesz < (List.replicate (s.memsz - s.filesz) (0 : UInt8)).length := by
      rw [List.length_replicate]
      omega
    have hat : s.paddr + i = s.paddr + s.filesz + (i - s.filesz) := by omega
    unfold load zeroTail
    rw [hat, store_add _ _ hin, List.getElem_replicate]

theorem load_empty (hf : s.filesz = 0) (hm : s.memsz = 0) : load disk mem s = mem := by
  unfold load zeroTail
  rw [hf, hm]
  exact (store_nil _ _).trans (store_nil _ _)

/-- A segment behind `s` does not write to the memory of `s`. -/
theorem Before.load_eq (h : Before s t) (hle : t.filesz ≤ t.memsz) {x : Nat} (hx : s.Has x) : load disk mem t x = mem x := by
  by_cases hempty : t.memsz = 0
  · rw [load_empty (by omega) hempty]
  · -- the first byte of `t` is not in `s`, and it is not below `s`
    have hfirst := h.2 t.paddr
    have hlow := h.1
    unfold Proghdr.Has at hfirst hx
    apply load_of_lt
    omega

theorem loadSegment_returns (hscratch : Scratch (image disk) mem) (ho : o + 32 ≤ 4096)
    (hp : proghdr (image disk) o = s) (hfit : s.Fits) :
    Returns (fun fuel => loadSegment fuel disk (elf + o) mem) (load disk mem s) := by
  have hread : Returns (fun fuel => readseg fuel disk s.paddr s.filesz s.off mem)
      (store mem s.paddr (slice disk (SECTSIZE + s.off) (SECTSIZE * sectors s.filesz))) :=
    readseg_returns hfit.aligned (hp ▸ proghdr_off_lt _ _) hfit.disk
  have hscratch' : Scratch (image disk)
      (store mem s.paddr (slice disk (SECTSIZE + s.off) (SECTSIZE * sectors s.filesz))) := by
    apply hscratch.congr
    intro x hx
    exact store_of_lt _ _ (Nat.lt_of_lt_of_le hx hfit.above)
  unfold loadSegment
  rw [hscratch.proghdr ho, hp]
  convert hread.map _ using 1
  dsimp only
  rw [hscratch'.proghdr ho, hp, load, zeroTail]
  have hmemory := hfit.memory
  split
  · rw [put_eq_store]
    rw [List.length_replicate]
    omega
  · have hnone : s.memsz - s.filesz = 0 := by omega
    rw [hnone]
    exact store_nil _ _

/-- The loop over the program headers at `o` and behind it loads `rest`, and what is loaded stays. -/
theorem loadSegments_returns {eph : Nat} (done rest : List Proghdr) (hscratch : Scratch (image disk) mem)
    (ho : o + 32 * rest.length ≤ 4096) (heph : eph = elf + o + 32 * rest.length)
    (hrest : ∀ i (hi : i < rest.length), proghdr (image disk) (o + 32 * i) = rest[i])
    (hfits : ∀ s ∈ done ++ rest, s.Fits) (hbefore : (done ++ rest).Pairwise Before)
    (hdone : ∀ s ∈ done, Loaded (image disk) mem s) :
    ∃ mem', (∃ N, ∀ fuel ≥ N, ∀ m > rest.length, loadSegments fuel disk eph m (elf + o) mem = some mem') ∧
      Scratch (image disk) mem' ∧ ∀ s ∈ done ++ rest, Loaded (image disk) mem' s := by
  induction rest generalizing mem o done with
  | nil =>
    refine ⟨mem, ⟨0, fun fuel _ m hm => ?_⟩, hscratch, by rwa [List.append_nil]⟩
    obtain ⟨k, rfl⟩ := Nat.exists_eq_succ_of_ne_zero (Nat.ne_of_gt hm)
    rw [loadSegments, if_neg (by rw [heph]; exact Nat.lt_irrefl _)]
  | cons s rest ih =>
    rw [List.length_cons] at ho heph
    have hfit : s.Fits := hfits s (by simp)
    have hp : proghdr (image disk) o = s := hrest 0 (Nat.succ_pos _)
    obtain ⟨N, hN⟩ := loadSegment_returns hscratch (by omega) hp hfit
    have hcons : done ++ s :: rest = (done ++ [s]) ++ rest := by rw [List.append_assoc, List.singleton_append]
    rw [hcons] at hfits hbefore ⊢
    have hscratch' : Scratch (image disk) (load disk mem s) := by
      apply hscratch.congr
      intro x hx
      exact load_of_lt (Nat.lt_of_lt_of_le hx hfit.above)
    have hdone' : ∀ t ∈ done ++ [s], Loaded (image disk) (load disk mem s) t := by
      intro t ht
      rcases List.mem_append.mp ht with ht | ht
      -- A later segment leaves the memory of the earlier ones alone.
      · have hts : Before t s :=
          (List.pairwise_append.mp (List.pairwise_append.mp hbefore).1).2.2 t ht s (List.mem_singleton_self s)
        have htfit : t.Fits := hfits t (List.mem_append_left rest (List.mem_append_left [s] ht))
        exact (hdone t ht).congr (fun x hx => hts.load_eq hfit.filesz_le hx) htfit.filesz_le
      · rw [List.mem_singleton.mp ht]
        exact load_loaded
    obtain ⟨mem', ⟨M, hM⟩, hall⟩ := ih (o := o + 32) (done ++ [s]) hscratch' (by omega) (by omega)
      (fun i hi => by
        have := hrest (i + 1) (Nat.succ_lt_succ hi)
        rw [Nat.mul_succ, Nat.add_comm (32 * i), ← Nat.add_assoc] at this
        exact this) hfits hbefore hdone'
    refine ⟨mem', ⟨max N M, fun fuel hf m hm => ?_⟩, hall⟩
    obtain ⟨k, rfl⟩ := Nat.exists_eq_succ_of_ne_zero (Nat.ne_of_gt (Nat.lt_trans (Nat.succ_pos _) hm))
    have hlt : elf + o < eph := by omega
    have hnext : (elf + o + 32) % WORD = elf + (o + 32) := Nat.mod_eq_of_lt (by unfold elf WORD; omega)
    have hload : loadSegment fuel disk (elf + o) mem = some (load disk mem s) :=
      hN fuel (Nat.le_trans (Nat.le_max_left N M) hf)
    rw [loadSegments, if_pos hlt, hload, Option.bind_some, hnext]
    exact hM fuel (Nat.le_trans (Nat.le_max_right N M) hf) k (Nat.lt_of_succ_lt_succ hm)

end Segments

theorem Scratch.slice_eq {mem img : Nat → UInt8} (h : Scratch img mem) {k n : Nat} (hk : k + n ≤ 4096) :
    slice mem (elf + k) n = slice img (0 + k) n := by
  apply slice_congr
  intro i hi
  rw [Nat.add_assoc, Nat.zero_add]
  exact h (k + i) (by omega)

/-- The boot loader loads every image it is made for: `bootmain` jumps to the entry point, with every segment in
its memory. -/
theorem bootmain_loads {disk : Nat → UInt8} (h : Bootable (image disk)) (mem : Nat → UInt8) :
    ∃ mem', Returns (fun fuel => bootmain fuel disk mem) (.jumps (entry 0 (image disk)) mem') ∧
      ∀ s ∈ segments (image disk), Loaded (image disk) mem' s := by
  have hpage : Returns (fun fuel => readseg fuel disk elf 4096 0 mem) (store mem elf (slice disk SECTSIZE 4096)) :=
    readseg_returns rfl (by decide) (by decide)
  have hscratch : Scratch (image disk) (store mem elf (slice disk SECTSIZE 4096)) := by
    intro i hi
    rw [store_add _ _ (by rwa [length_slice]), getElem_slice]
    rfl
  generalize store mem elf (slice disk SECTSIZE 4096) = mem₁ at hpage hscratch
  have hheaders := h.headers
  have hmagic : number (slice mem₁ elf 4) = ELF_MAGIC := by
    rw [← h.magic]
    exact congrArg number (hscratch.slice_eq (k := 0) (by decide))
  have hphoff : phoff elf mem₁ = phoff 0 (image disk) := congrArg number (hscratch.slice_eq (by decide))
  have hphnum : phnum elf mem₁ = phnum 0 (image disk) := congrArg number (hscratch.slice_eq (by decide))
  have hlen : (segments (image disk)).length = phnum 0 (image disk) := by
    rw [segments, List.length_map, List.length_range]
  have hph : (elf + phoff 0 (image disk)) % WORD = elf + phoff 0 (image disk) :=
    Nat.mod_eq_of_lt (by unfold elf WORD; omega)
  have heph : (elf + phoff 0 (image disk) + 32 * phnum 0 (image disk)) % WORD =
      elf + phoff 0 (image disk) + 32 * (segments (image disk)).length := by
    rw [hlen]
    exact Nat.mod_eq_of_lt (by unfold elf WORD; omega)
  obtain ⟨mem', ⟨N, hN⟩, hscratch', hall⟩ := loadSegments_returns [] (segments (image disk)) hscratch
    (by rw [hlen]; exact hheaders) heph (fun i hi => by simp [segments]) h.fits h.ascending fun s hs => nomatch hs
  have hentry : entry elf mem' = entry 0 (image disk) := congrArg number (hscratch'.slice_eq (by decide))
  refine ⟨mem', hpage.bind ?_, hall⟩
  refine ⟨max N ((segments (image disk)).length + 1), fun fuel hf => ?_⟩
  have hloop := hN fuel (Nat.le_trans (Nat.le_max_left ..) hf) fuel (Nat.lt_of_succ_le (Nat.le_trans (Nat.le_max_right ..) hf))
  show (if number (slice mem₁ elf 4) ≠ ELF_MAGIC then some (Outcome.returns mem₁) else _) = _
  rw [if_neg (not_not.mpr hmagic), hphoff, hphnum, hph]
  dsimp only
  rw [hloop, Option.map_some, hentry]

/-- A kernel of two segments. The last sector of the first one reaches into the second one. -/
def twoSegments : Nat → UInt8 :=
  let phdr (off paddr filesz memsz : Nat) := le 4 1 ++ le 4 off ++ le 4 0 ++ le 4 paddr ++ le 4 filesz ++ le 4 memsz ++ le 8 0
  let elf := le 4 ELF_MAGIC ++ le 20 0 ++ le 4 0x100000 ++ le 4 52 ++ le 12 0 ++ le 2 2 ++ le 6 0
  store (fun i => UInt8.ofNat i) SECTSIZE (elf ++ phdr 4096 0x100000 600 700 ++ phdr 8192 0x1002bc 10 600)

theorem bootmain_loads_twoSegments : Bootable (image twoSegments) ∧
    ∃ mem', Returns (fun fuel => bootmain fuel twoSegments fun _ => 0xff) (.jumps (entry 0 (image twoSegments)) mem') ∧
      ∀ s ∈ segments (image twoSegments), Loaded (image twoSegments) mem' s := by
  have heval : number (slice (image twoSegments) 0 4) = ELF_MAGIC ∧
      phoff 0 (image twoSegments) + 32 * phnum 0 (image twoSegments) ≤ 4096 ∧
      segments (image twoSegments) = [⟨4096, 0x100000, 600, 700⟩, ⟨8192, 0x1002bc, 10, 600⟩] := by decide +kernel
  obtain ⟨hmagic, hheaders, hsegs⟩ := heval
  have hboot : Bootable (image twoSegments) := by
    refine ⟨hmagic, hheaders, ?_, ?_⟩
    · rw [hsegs]
      refine List.forall_mem_cons.mpr ⟨?_, List.forall_mem_singleton.mpr ?_⟩ <;> constructor <;> decide
    · rw [hsegs]
      refine List.pairwise_pair.mpr ⟨by decide, fun x hx => ?_⟩
      have hlow := hx.2.1
      have hhigh := hx.1.2
      dsimp only at hlow hhigh
      omega
  exact ⟨hboot, bootmain_loads hboot _⟩

end Chameleon.Bootmain
