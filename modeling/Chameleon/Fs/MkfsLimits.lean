import Chameleon.Fs.MkfsRun

/-! What `mkfs` guarantees about the image when it ends: where it wrote, and that the kernel finds every block. -/

namespace Chameleon.Mkfs
open Fs Hoare

section Count

/-! The inode numbers, for any number of files. -/

/-- The inodes up to `k` are in use. -/
def Counted (k : Nat) (s : State) : Prop := s.freeinode = k + 1 ∧ s.inums = List.range' 1 k

/-- A part of the program that takes no inodes. -/
structure Keeps {α : Type} (x : M α) : Prop where
  triple : ∀ k, Triple (fun _ => True) (Counted k) x fun _ => Counted k

variable {α β : Type}

theorem Keeps.pure (a : α) : Keeps (pure a) := ⟨fun _ => Triple.ret fun _ h => h⟩

theorem Keeps.throw (e : String) : Keeps (throw e : M α) := ⟨fun _ => Triple.fail trivial⟩

theorem Keeps.bind {x : M α} {f : α → M β} (hx : Keeps x) (hf : ∀ a, Keeps (f a)) : Keeps (x >>= f) :=
  ⟨fun k => (hx.triple k).bind fun a => (hf a).triple k⟩

theorem Keeps.ite {c : Prop} [Decidable c] {x y : M α} (hx : Keeps x) (hy : Keeps y) : Keeps (if c then x else y) := by
  split
  · exact hx
  · exact hy

theorem keeps_wsect (part : Part) (sec : Nat) (a : Block) : Keeps (wsect part sec a) := ⟨fun _ _ h => h⟩

theorem keeps_newBlock : Keeps newBlock := ⟨fun _ _ h => h⟩

theorem keeps_rsect (sec : Nat) : Keeps (rsect sec) := by
  constructor
  intro k
  apply Triple.read
  intro s hs
  apply Triple.ite
  · exact fun _ => Triple.ret fun _ heq => heq ▸ hs
  · exact fun _ => Triple.fail trivial

theorem keeps_winode (i : Nat) (d : Dino) : Keeps (winode i d) := (keeps_rsect _).bind fun _ => keeps_wsect ..

theorem keeps_rinode (i : Nat) : Keeps (rinode i) := (keeps_rsect _).bind fun _ => .pure _

theorem keeps_addrFor (d : Dino) (k : Fin (NDIRECT + 1)) : Keeps (addrFor d k) :=
  .ite (keeps_newBlock.bind fun _ => .pure _) (.pure _)

theorem keeps_blockFor (d : Dino) (bn : Nat) : Keeps (blockFor d bn) := by
  unfold blockFor
  split
  · exact (keeps_addrFor ..).bind fun _ => .pure _
  · refine (keeps_addrFor ..).bind fun _ => (keeps_rsect _).bind fun _ => .ite ?_ (.pure _)
    exact keeps_newBlock.bind fun _ => (keeps_wsect ..).bind fun _ => .pure _

theorem keeps_appendLoop (fuel : Nat) (d : Dino) (off : Nat) (p : List UInt8) : Keeps (appendLoop fuel d off p) := by
  induction fuel generalizing d off p with
  | zero => exact .pure _
  | succ fuel ih =>
    refine .ite (.pure _) (.ite (.throw _) ?_)
    exact (keeps_blockFor ..).bind fun _ => (keeps_rsect _).bind fun _ => (keeps_wsect ..).bind fun _ => ih ..

theorem keeps_iappend (i : Nat) (p : List UInt8) : Keeps (iappend i p) :=
  (keeps_rinode i).bind fun _ => (keeps_appendLoop ..).bind fun _ => keeps_winode ..

theorem keeps_appendChunks (i : Nat) (cs : List { c : List UInt8 // 0 < c.length ∧ c.length ≤ BSIZE }) :
    Keeps (appendChunks i cs) := by
  induction cs with
  | nil => exact .pure _
  | cons c cs ih => exact (keeps_iappend ..).bind fun _ => ih

theorem keeps_fixRoot (i : Nat) : Keeps (fixRoot i) := (keeps_rinode i).bind fun _ => keeps_winode ..

theorem keeps_balloc (used : Nat) : Keeps (balloc used) := .ite (.throw _) (keeps_wsect ..)

theorem counted_ialloc (type k : Nat) : Triple (fun _ => True) (Counted k) (ialloc type) fun _ => Counted (k + 1) := by
  apply Triple.read
  intro s hs
  apply Triple.upd (Counted (k + 1))
  · rintro t rfl
    refine ⟨congrArg (· + 1) hs.1, ?_⟩
    change t.inums ++ [t.freeinode] = _
    rw [hs.2, hs.1, List.range'_concat, Nat.one_mul, Nat.add_comm]
  · exact ((keeps_winode ..).bind fun _ => .pure _).triple (k + 1)

theorem counted_addFile (f : Input) (root k : Nat) :
    Triple (fun _ => True) (Counted k) (addFile root f) fun _ => Counted (k + 1) := by
  apply Triple.ite
  · exact fun _ => Triple.fail trivial
  intro _
  apply Triple.ite
  · exact fun _ => Triple.fail trivial
  intro _
  apply (counted_ialloc T_FILE k).bind
  intro i
  exact ((keeps_iappend ..).bind fun _ => keeps_appendChunks ..).triple (k + 1)

theorem counted_addFiles (files : List Input) (root k : Nat) :
    Triple (fun _ => True) (Counted k) (addFiles root files) fun _ => Counted (k + files.length) := by
  induction files generalizing k with
  | nil => exact Triple.ret fun _ h => h
  | cons f files ih =>
    rw [List.length_cons, Nat.add_comm files.length, ← Nat.add_assoc]
    exact (counted_addFile f root k).bind fun _ => ih (k + 1)

/-- Every input file takes an inode, whether there is one or not. -/
theorem counted_main (files : List Input) :
    Triple (fun _ => True) (fun t => t = start) (main files) fun _ => Counted (1 + files.length) := by
  rintro t rfl
  rw [run_main_blank]
  refine (counted_ialloc T_DIR 0).bind (fun root => ?_) blank ⟨rfl, rfl⟩
  apply Triple.ite
  · exact fun _ => Triple.fail trivial
  intro _
  apply ((keeps_iappend ..).triple 1).bind
  intro _
  apply ((keeps_iappend ..).triple 1).bind
  intro _
  apply (counted_addFiles files root 1).bind
  intro _
  apply ((keeps_fixRoot root).triple _).bind
  intro _
  apply Triple.read
  intro s hs
  apply ((keeps_balloc s.freeblock).triple _).pre
  rintro t rfl
  exact hs

end Count

section Contained

/-- Every inode and every block has its place, and every write went to the region that it was meant for. -/
structure Contained (s : State) : Prop where
  inums : ∀ i ∈ s.inums, i < NINODES ∧ inodestart ≤ IBLOCK i ∧ IBLOCK i < bmapstart
  stored : ∀ b ∈ s.stored, nmeta ≤ b ∧ b < FSSIZE
  writes : ∀ w ∈ s.writes, w.1.Within w.2
  len : s.len = FSSIZE

variable {files : List Input} {s : State}

theorem Image.contained (h : Image files s) (hn : files.length + 1 < NINODES) : Contained s where
  inums i hi := by
    rw [h.inums] at hi
    have hlt : i < NINODES := by
      have := (List.mem_range'_1.mp hi).2
      omega
    exact ⟨hlt, IBLOCK_within (Nat.lt_trans hlt (by decide))⟩
  stored b hb := ⟨(h.tidy.stored b hb).1, Nat.lt_of_lt_of_le (h.tidy.stored b hb).2 h.fits⟩
  writes := h.tidy.writes
  len := h.tidy.len

theorem main_ends (files : List Input) (hmax : files.length + 2 ≤ ninodeblocks * IPB) (hfits : Fits files) :
    ∃ s, (main files).run start = .ok ((), s) ∧ Image files s := by
  obtain ⟨_, s, hrun, himage⟩ := ((main_spec hmax).stops fun _ hstop => hstop hfits).ends rfl
  exact ⟨s, hrun, himage.2⟩

/-- A program of 14 blocks, which need an indirect block, and a file of five bytes. -/
def twoFiles : List Input :=
  [⟨[95, 99, 97, 116], true, List.replicate 14 ⟨List.replicate BSIZE 65, by rw [List.length_replicate]; decide⟩⟩,
    ⟨[97], true, [⟨[1, 2, 3, 4, 5], by decide⟩]⟩]

theorem fits_twoFiles : Fits twoFiles where
  names := by decide
  opens := by decide
  small := by decide +kernel
  room := by decide +kernel

/-- `n` empty files. -/
def emptyFiles (n : Nat) : List Input :=
  (List.range n).map fun k => ⟨[UInt8.ofNat (97 + k / 26), UInt8.ofNat (97 + k % 26)], true, []⟩

theorem length_emptyFiles (n : Nat) : (emptyFiles n).length = n := by
  simp [emptyFiles]

theorem usage_emptyFiles (n : Nat) : usage (emptyFiles n) = cost (blocks (DESIZE * (n + 2))) := by
  have hsum : ((emptyFiles n).map fun f => cost (blocks f.bytes.length)).sum = 0 := by
    have hzero : cost (blocks 0) = 0 := rfl
    simp [emptyFiles, Input.bytes, Function.comp_def, hzero]
  rw [usage, length_emptyFiles, hsum, Nat.add_zero]

theorem fits_emptyFiles {n : Nat} (hn : n ≤ 3900) (hroom : nmeta + cost (blocks (DESIZE * (n + 2))) ≤ FSSIZE) :
    Fits (emptyFiles n) where
  names f hf := by
    obtain ⟨k, hk, rfl⟩ := List.mem_map.mp hf
    have hlt := List.mem_range.mp hk
    intro hslash
    simp only [List.mem_cons, List.not_mem_nil, or_false] at hslash
    rcases hslash with h | h
    all_goals
      have hval := congrArg UInt8.toNat h
      rw [UInt8.toNat_ofNat'] at hval
      change 47 = _ at hval
      omega
  opens f hf := by
    obtain ⟨k, -, rfl⟩ := List.mem_map.mp hf
    rfl
  small f hf := by
    obtain ⟨k, -, rfl⟩ := List.mem_map.mp hf
    exact Nat.zero_le _
  room := by
    rw [usage_emptyFiles]
    exact hroom

/-- When `mkfs` ends, nothing has overflowed exactly if there was an inode for every file. Blocks never overflow, since
every new block is read before it is used. -/
theorem mkfs_contained_iff (files : List Input) (s : State) (h : (main files).run start = .ok ((), s)) :
    (Contained s ∧ Fits files) ↔ files.length + 1 < NINODES := by
  constructor
  · intro hfit
    have hcount := (counted_main files).result rfl h
    apply (hfit.1.inums _ _).1
    rw [hcount.2]
    apply List.mem_range'_1.mpr
    omega
  · intro hn
    have hmax : files.length + 2 ≤ ninodeblocks * IPB := Nat.le_trans hn (by decide)
    have himage := (main_spec hmax).result rfl h
    exact ⟨himage.2.contained hn, himage.1⟩

theorem mkfs_contained_iff_twoFiles : ∃ s, (main twoFiles).run start = .ok ((), s) ∧ Contained s ∧ Fits twoFiles := by
  obtain ⟨s, hrun, -⟩ := main_ends twoFiles (by decide) fits_twoFiles
  exact ⟨s, hrun, (mkfs_contained_iff twoFiles s hrun).mpr (by decide)⟩

/-- The inode of the last of 199 files lies behind the last inode, and `mkfs` does not notice. -/
theorem mkfs_uncontained : ∃ s, (main (emptyFiles 199)).run start = .ok ((), s) ∧ ¬Contained s := by
  have hlen := length_emptyFiles 199
  obtain ⟨s, hrun, himage⟩ := main_ends (emptyFiles 199) (by rw [hlen]; decide) (fits_emptyFiles (by decide) (by decide))
  refine ⟨s, hrun, fun h => ?_⟩
  have hlast : 200 ∈ s.inums := by
    rw [himage.inums, hlen]
    exact List.mem_range'_1.mpr ⟨by decide, by decide⟩
  exact absurd (h.inums 200 hlast).1 (by decide)

end Contained

section Whole

/-- Bit `b` of a bitmap block. -/
def bit (a : Block) (b : Nat) : Bool := (a (b / 8)).toNat.testBit (b % 8)

theorem toNat_bit {r : Nat} (h : r < 8) : (1 <<< UInt8.ofNat r : UInt8).toNat = 2 ^ r := by
  have hall : ∀ r < 8, (1 <<< UInt8.ofNat r : UInt8).toNat = 2 ^ r := by decide
  exact hall r h

theorem bitmapBlock_succ (n : Nat) : bitmapBlock (n + 1) = Function.update (bitmapBlock n) (n / 8)
    (bitmapBlock n (n / 8) ||| 1 <<< UInt8.ofNat (n % 8)) := by
  rw [bitmapBlock, List.range_succ, List.foldl_append]
  rfl

/-- The bitmap marks the first blocks. -/
theorem bit_bitmapBlock (n b : Nat) : bit (bitmapBlock n) b = decide (b < n) := by
  induction n with
  | zero => simp [bit, bitmapBlock]
  | succ n ih =>
    rw [bitmapBlock_succ]
    by_cases hbyte : b / 8 = n / 8
    · unfold bit at ih ⊢
      rw [hbyte] at ih ⊢
      rw [Function.update_self, UInt8.toNat_or, Nat.testBit_or, ih, toNat_bit (Nat.mod_lt _ (by decide)),
        Nat.testBit_two_pow]
      have hbit : n % 8 = b % 8 ↔ b = n := by omega
      by_cases heq : b = n
      · simp [heq]
      · have hiff : b < n + 1 ↔ b < n := by omega
        simp [hbit, heq, hiff]
    · have hiff : b < n + 1 ↔ b < n := by omega
      rw [bit, Function.update_of_ne hbyte]
      simp only [hiff]
      exact ih

/-- What the kernel needs of the image: every block below the size of a file is there, no block is used twice, the bitmap
marks the blocks in use, and the root directory is a row of entries followed by zeros. -/
structure Whole (files : List Input) (s : State) : Prop where
  noHoles : ∀ i, 0 < i → i < s.freeinode → ∀ bn < blocks (onDisk s i).size,
    ∃ sl, slotOf bn = some sl ∧ slots s.sect (inodes s) i sl ≠ 0
  apart : Apart (slots s.sect (inodes s))
  range : ∀ i sl, slots s.sect (inodes s) i sl ≠ 0 →
    nmeta ≤ slots s.sect (inodes s) i sl ∧ slots s.sect (inodes s) i sl < s.freeblock
  bitmap : ∀ b < BSIZE * 8, bit (s.sect bmapstart) b = true ↔ b < s.freeblock
  root : DESIZE ∣ (onDisk s ROOTINO).size
  tail : ∀ k, DESIZE * (files.length + 2) ≤ k → content s.sect (slots s.sect (inodes s) ROOTINO) k = 0

variable {files : List Input} {s : State}

theorem table_le (hfits : Fits files) (hn : files.length + 1 < NINODES) (i : Nat) :
    (table files i).length ≤ MAXFILE * BSIZE := by
  match i with
  | 0 => exact Nat.zero_le _
  | 1 =>
    rw [table, length_rootBytes]
    exact Nat.le_trans (Nat.mul_le_mul_left DESIZE hn) (by decide)
  | i + 2 =>
    rw [table]
    rcases Nat.lt_or_ge i files.length with hlt | hge
    · rw [List.getD_eq_getElem _ _ (by rwa [List.length_map]), List.getElem_map]
      exact hfits.small _ (List.getElem_mem hlt)
    · rw [List.getD_eq_default _ _ (by rwa [List.length_map])]
      exact Nat.zero_le _

/-- The root directory has the block behind its entries only if the last block is not full. -/
theorem blocks_rounded (files : List Input) :
    blocks (rounded files) ≤ blocks (rootBytes files).length ↔ (files.length + 2) % (BSIZE / DESIZE) ≠ 0 := by
  have hlen := length_rootBytes files
  unfold rounded blocks BSIZE
  rw [hlen]
  unfold DESIZE
  omega

theorem Image.noHoles_iff (h : Image files s) (hfits : Fits files) (hn : files.length + 1 < NINODES) {i : Nat}
    (hi : 0 < i) (hlt : i < s.freeinode) :
    (∀ bn < blocks (onDisk s i).size, ∃ sl, slotOf bn = some sl ∧ slots s.sect (inodes s) i sl ≠ 0) ↔
      blocks (sizes files i) ≤ blocks (table files i).length := by
  rw [(h.filled i).present_iff (blocks_le (table_le hfits hn i)), h.heads i hi hlt]

theorem Image.whole_iff (h : Image files s) (hfits : Fits files) (hn : files.length + 1 < NINODES) :
    Whole files s ↔ (files.length + 2) % (BSIZE / DESIZE) ≠ 0 := by
  have hroot : ROOTINO < s.freeinode := by
    rw [h.freeinode]
    exact Nat.succ_lt_succ (Nat.zero_lt_succ _)
  rw [← blocks_rounded]
  constructor
  · intro hwhole
    exact (h.noHoles_iff hfits hn (by decide) hroot).mp (hwhole.noHoles ROOTINO (by decide) hroot)
  · intro hle
    constructor
    · intro i hi hlt
      apply (h.noHoles_iff hfits hn hi hlt).mpr
      by_cases heq : i = ROOTINO
      · subst heq
        exact hle
      · rw [sizes, if_neg heq]
    · exact h.laid.apart
    · exact h.laid.used
    · intro b _
      rw [h.bitmap, bit_bitmapBlock, decide_eq_true_iff]
    · rw [h.heads ROOTINO (by decide) hroot]
      exact Nat.dvd_mul_left_of_dvd (by decide) _
    · intro k hk
      rw [h.laid.holds ROOTINO]
      apply List.getD_eq_default
      rw [← length_rootBytes] at hk
      exact hk

/-- The image of inputs that fit is whole exactly if the entries of the root directory do not fill its last block. -/
theorem mkfs_whole_iff (files : List Input) (hfits : Fits files) (hn : files.length + 1 < NINODES) :
    ∃ s, (main files).run start = .ok ((), s) ∧ (Whole files s ↔ (files.length + 2) % (BSIZE / DESIZE) ≠ 0) := by
  obtain ⟨s, hrun, himage⟩ := main_ends files (Nat.le_trans hn (by decide)) hfits
  exact ⟨s, hrun, himage.whole_iff hfits hn⟩

theorem mkfs_whole_iff_twoFiles : Fits twoFiles ∧ ∃ s, (main twoFiles).run start = .ok ((), s) ∧ Whole twoFiles s := by
  obtain ⟨s, hrun, hwhole⟩ := mkfs_whole_iff twoFiles fits_twoFiles (by decide)
  exact ⟨fits_twoFiles, s, hrun, hwhole.mpr (by decide)⟩

/-- Thirty files and the two dots fill a block of the root directory, and the size takes in the next one. -/
theorem mkfs_hole : ∃ s, (main (emptyFiles 30)).run start = .ok ((), s) ∧ ¬Whole (emptyFiles 30) s := by
  have hlen := length_emptyFiles 30
  have hfits : Fits (emptyFiles 30) := fits_emptyFiles (by decide) (by decide)
  obtain ⟨s, hrun, himage⟩ := main_ends (emptyFiles 30) (by rw [hlen]; decide) hfits
  refine ⟨s, hrun, fun h => ?_⟩
  have hmod := (himage.whole_iff hfits (by rw [hlen]; decide)).mp h
  rw [hlen] at hmod
  exact hmod rfl

end Whole

end Chameleon.Mkfs
