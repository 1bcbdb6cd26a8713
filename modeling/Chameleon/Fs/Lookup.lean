import Chameleon.Fs.Cache
import Chameleon.Fs.Path

/-! `dirlookup` and `namex` of a process that runs alone. -/

namespace Chameleon.Fs
open Conc Hoare

section Directory

/-- The bytes of inode `i`. -/
def Disk.bytes (D : Disk) (i : Nat) : Nat → UInt8 := D.file (D.dino i)

/-- Entry `k` of directory `i`. -/
def Disk.dirent (D : Disk) (i k : Nat) : Dirent := direntAt (D.bytes i) (k * DESIZE)

/-- The number of entries of directory `i`. -/
def Disk.dirents (D : Disk) (i : Nat) : Nat := (D.dino i).size / DESIZE

/-- Entry `k` of directory `i` is in use, with this name. -/
def Disk.hit (D : Disk) (i : Nat) (name : List UInt8) (k : Nat) : Bool :=
  decide ((D.dirent i k).inum ≠ 0 ∧ namecmp name (D.dirent i k).name = 0)

/-- The first entry of directory `i` with this name. -/
def Disk.entry (D : Disk) (i : Nat) (name : List UInt8) : Option Nat := (List.range (D.dirents i)).find? (D.hit i name)

/-- The inode that a name stands for in inode `i`; none if that is no directory or has no such entry. -/
def Disk.find (D : Disk) (i : Nat) (name : List UInt8) : Option Nat :=
  if (D.dino i).type = .dir then (D.entry i name).map fun k => (D.dirent i k).inum else none

/-- What the kernel relies on: directories consist of whole entries, and what they name is in use and linked. -/
structure Tree (D : Disk) : Prop where
  whole : ∀ i, (D.dino i).type = .dir → (D.dino i).size % DESIZE = 0
  linked : ∀ i k, (D.dino i).type = .dir → k < D.dirents i → (D.dirent i k).inum ≠ 0 →
    (D.dino (D.dirent i k).inum).type ≠ .free ∧ (D.dino (D.dirent i k).inum).nlink ≠ 0
  root : (D.dino ROOTINO).type ≠ .free ∧ (D.dino ROOTINO).nlink ≠ 0

variable {D : Disk} {i j : Nat} {name : List UInt8}

theorem Disk.entry_some {k : Nat} (h : D.entry i name = some k) : k < D.dirents i ∧ D.hit i name k = true :=
  ⟨List.mem_range.mp (List.mem_of_find?_eq_some h), List.find?_some h⟩

theorem Tree.find_linked (h : Tree D) (hfind : D.find i name = some j) :
    (D.dino j).type ≠ .free ∧ (D.dino j).nlink ≠ 0 := by
  unfold Disk.find at hfind
  split_ifs at hfind with hdir
  obtain ⟨k, hk, rfl⟩ := Option.map_eq_some_iff.mp hfind
  obtain ⟨hlt, hhit⟩ := Disk.entry_some hk
  exact h.linked i k hdir hlt (of_decide_eq_true hhit).1

end Directory

section Dirlookup

variable {sb : Super} {p : Pid} {s : State} {dp : Entry} {file : Nat → Nat → UInt8} {name : List UInt8}

/-- The inode of `dp` is a directory that can be read. -/
structure Readable (sb : Super) (file : Nat → Nat → UInt8) (dp : Entry) (s : State) : Prop where
  intact : Intact sb file s.disk
  fresh : Fresh s dp
  dir : (s.disk.dino (s.tab.icache dp).inum).type = .dir
  whole : (s.disk.dino (s.tab.icache dp).inum).size % DESIZE = 0

theorem Readable.bytes (h : Readable sb file dp s) (i : Nat) : s.disk.bytes i = file i := h.intact.sound.holds i

theorem run_readDirent (h : Readable sb file dp s) (msg : String) {k : Nat} (hk : k < s.disk.dirents (s.tab.icache dp).inum) :
    (solo (sem sb) p (readDirent sb msg dp (k * DESIZE))).run s =
      .ok (s.disk.dirent (s.tab.icache dp).inum k, s) := by
  have hd : (s.ino dp).d = s.disk.dino (s.tab.icache dp).inum := h.fresh
  have hsize : k * DESIZE + DESIZE ≤ (s.ino dp).d.size := by
    rw [hd, ← Nat.succ_mul]
    exact (Nat.le_div_iff_mul_le (by decide)).mp hk
  have hsmall := h.intact.small (s.tab.icache dp).inum
  rw [← hd] at hsmall
  have htype : (s.ino dp).d.type ≠ .dev := by
    rw [hd, h.dir]
    exact nofun
  have hbound : MAXFILE * BSIZE < 2 ^ 32 := by decide
  have hresult : readResult (file (s.tab.icache dp).inum) (s.ino dp).d.size (k * DESIZE) DESIZE =
      some (Bytes.slice (file (s.tab.icache dp).inum) (k * DESIZE) DESIZE) := by
    have hmod : (k * DESIZE + DESIZE) % 2 ^ 32 = k * DESIZE + DESIZE := Nat.mod_eq_of_lt (by omega)
    rw [readResult, if_neg (by omega), if_neg (by omega)]
  rw [readDirent, solo_bind, run_bind_of_ok (run_readi h.intact h.fresh htype), hresult]
  simp only [Bytes.length_slice, if_true, Disk.dirent, direntAt, h.bytes]
  rfl

theorem run_dirlookupFrom (h : Readable sb file dp s) (name : List UInt8) (fuel k n : Nat) (hn : k + n = s.disk.dirents (s.tab.icache dp).inum)
    (hfuel : n ≤ fuel) : (solo (sem sb) p (dirlookupFrom sb dp name fuel (k * DESIZE))).run s =
      ((List.range' k n).find? (s.disk.hit (s.tab.icache dp).inum name)).elim (.ok (none, s)) fun m =>
        (solo (sem sb) p (do
          let e ← iget (s.disk.dirent (s.tab.icache dp).inum m).inum
          pure (some (e, m * DESIZE)))).run s := by
  have hd : (s.ino dp).d = s.disk.dino (s.tab.icache dp).inum := h.fresh
  have hsize : (s.ino dp).d.size = s.disk.dirents (s.tab.icache dp).inum * DESIZE := by
    rw [hd]
    exact (Nat.div_mul_cancel (Nat.dvd_of_mod_eq_zero h.whole)).symm
  induction fuel generalizing k n with
  | zero =>
    obtain rfl := Nat.le_zero.mp hfuel
    rfl
  | succ fuel ih =>
    rw [dirlookupFrom, solo_bind, solo_lift, run_bind_of_ok (run_once rfl)]
    cases n with
    | zero =>
      have hend : ¬k * DESIZE < (s.ino dp).d.size := by
        rw [hsize, ← hn]
        exact Nat.lt_irrefl _
      rw [if_neg hend]
      rfl
    | succ n =>
      have hlt : k < s.disk.dirents (s.tab.icache dp).inum := by omega
      have hin : k * DESIZE < (s.ino dp).d.size := by
        rw [hsize]
        exact Nat.mul_lt_mul_of_pos_right hlt (by decide)
      have hnext : k * DESIZE + DESIZE = (k + 1) * DESIZE := (Nat.succ_mul ..).symm
      rw [if_pos hin, solo_bind, run_bind_of_ok (run_readDirent h _ hlt), List.range'_succ, List.find?_cons, hnext]
      by_cases hzero : (s.disk.dirent (s.tab.icache dp).inum k).inum = 0
      · have hmiss : s.disk.hit (s.tab.icache dp).inum name k = false := decide_eq_false fun hand => hand.1 hzero
        rw [if_pos hzero, hmiss]
        exact ih (k + 1) n (by omega) (by omega)
      rw [if_neg hzero]
      by_cases hcmp : namecmp name (s.disk.dirent (s.tab.icache dp).inum k).name = 0
      · have hhit : s.disk.hit (s.tab.icache dp).inum name k = true := decide_eq_true ⟨hzero, hcmp⟩
        rw [if_pos hcmp, hhit]
        rfl
      · have hmiss : s.disk.hit (s.tab.icache dp).inum name k = false := decide_eq_false fun hand => hcmp hand.2
        rw [if_neg hcmp, hmiss]
        exact ih (k + 1) n (by omega) (by omega)

theorem run_dirlookup (h : Readable sb file dp s) : (solo (sem sb) p (dirlookup sb dp name)).run s =
    (s.disk.entry (s.tab.icache dp).inum name).elim (.ok (none, s)) fun m =>
      (solo (sem sb) p (do
        let e ← iget (s.disk.dirent (s.tab.icache dp).inum m).inum
        pure (some (e, m * DESIZE)))).run s := by
  have hd : (s.ino dp).d = s.disk.dino (s.tab.icache dp).inum := h.fresh
  have hdir : (s.ino dp).d.type = .dir := by rw [hd, h.dir]
  have hfuel : s.disk.dirents (s.tab.icache dp).inum ≤ (s.ino dp).d.size := by
    rw [hd]
    exact Nat.div_le_self ..
  have hscan := run_dirlookupFrom (p := p) h name (s.ino dp).d.size 0 _ (Nat.zero_add _) hfuel
  rw [Nat.zero_mul, ← List.range_eq_range'] at hscan
  rw [dirlookup, solo_bind, solo_lift, run_bind_of_ok (run_once rfl), if_pos hdir, hscan]
  rfl

theorem run_dirlookup_none (h : Readable sb file dp s) (hnone : s.disk.find (s.tab.icache dp).inum name = none) :
    (solo (sem sb) p (dirlookup sb dp name)).run s = .ok (none, s) := by
  rw [Disk.find, if_pos h.dir, Option.map_eq_none_iff] at hnone
  rw [run_dirlookup h, hnone]
  rfl

theorem run_dirlookup_some {j : Nat} (h : Readable sb file dp s) (hcached : Cached s)
    (hfind : s.disk.find (s.tab.icache dp).inum name = some j) (hroom : 0 < held s j ∨ busy s < NINODE) :
    ∃ e off t, (solo (sem sb) p (dirlookup sb dp name)).run s = .ok (some (e, off), t) ∧ Got s j e t := by
  rw [Disk.find, if_pos h.dir] at hfind
  obtain ⟨k, hk, rfl⟩ := Option.map_eq_some_iff.mp hfind
  obtain ⟨e, t, hrun, hgot⟩ : ∃ e t, (solo (sem sb) p (iget (s.disk.dirent (s.tab.icache dp).inum k).inum)).run s =
      .ok (e, t) ∧ Got s (s.disk.dirent (s.tab.icache dp).inum k).inum e t := run_iget hcached hroom
  refine ⟨e, k * DESIZE, t, ?_, hgot⟩
  rw [run_dirlookup h, hk, Option.elim_some, solo_bind, run_bind_of_ok hrun]
  rfl

end Dirlookup

section Holding

variable {sb : Super} {p : Pid} {s t u : State} {e : Entry} {i j : Nat} {r : Option Nat}

/-- Since `s` nothing has changed but the inode cache, in which there is one more reference to `r`, if any; nobody holds a
lock. -/
structure Refs (s : State) (r : Option Nat) (t : State) : Prop where
  elsewhere : Elsewhere s t
  cached : Cached t
  idle : ∀ e, (t.ino e).holder = none
  counts : ∀ k, held t k = held s k + if r = some k then 1 else 0
  live : ∀ e, 0 < (s.tab.icache e).ref → (t.tab.icache e).inum = (s.tab.icache e).inum ∧ 0 < (t.tab.icache e).ref

/-- In `t` the entry `e` stands for that reference. -/
structure Points (t : State) (e : Entry) (i : Nat) : Prop where
  inum : (t.tab.icache e).inum = i
  pos : 0 < (t.tab.icache e).ref

/-- An inode that `iput` does not free. -/
def Stays (s : State) (i : Nat) : Prop := (s.disk.dino i).nlink ≠ 0 ∨ 0 < held s i

theorem if_some_eq (i k : Nat) : (if some i = some k then 1 else 0) = if k = i then 1 else 0 := by
  simp only [Option.some.injEq, eq_comm]

theorem Refs.got (hidle : ∀ e, (s.ino e).holder = none) (h : Got s i e t) : Refs s (some i) t ∧ Points t e i := by
  refine ⟨⟨h.elsewhere, h.cached, ?_, ?_, ?_⟩, h.inum, h.pos⟩
  · intro e'
    rw [h.holder e']
    exact hidle e'
  · intro k
    rw [h.counts k, if_some_eq]
  · exact h.live

theorem Refs.lockable (h : Refs s (some i) t) (hp : Points t e i) (htype : (s.disk.dino i).type ≠ .free) : Lockable t e where
  ref := hp.pos
  unlocked := h.idle e
  fresh := h.cached.fresh e hp.pos
  type := by
    rw [hp.inum, h.elsewhere.disk]
    exact htype

theorem Refs.busy_lt (h : Refs s (some i) t) (hs : Cached s) (hroom : busy s + 2 ≤ NINODE) : busy t < NINODE := by
  have hle : busy t ≤ busy s + 1 := by
    apply hs.busy_le h.cached (j := i)
    intro k
    rw [h.counts k, if_some_eq]
  omega

/-- With its own reference and another one, or with a link, the inode stays. -/
theorem Stays.keep (hstays : Stays s i) (hcached : Cached u) (hp : Points u e i) (hdisk : u.disk = s.disk)
    (hheld : held s i < held u i) (hvalid : (u.ino e).valid = true) (hlink : (u.ino e).d.nlink = 0) :
    (u.tab.icache e).ref ≠ 1 := by
  have hd : (u.ino e).d = s.disk.dino i := by
    rw [hcached.fresh e hp.pos hvalid, hp.inum, hdisk]
  have hpos : 0 < held s i := by
    apply hstays.resolve_left
    rw [← hd]
    exact fun hne => hne hlink
  have href := hcached.held_eq hp.pos
  rw [hp.inum] at href
  omega

theorem dropped_pos {e' : Entry} (h : Cached u) (he : 0 < (u.tab.icache e).ref) (hpos : 0 < (u.tab.icache e').ref)
    (hheld : 0 < held (dropped u e) (u.tab.icache e').inum) : 0 < ((dropped u e).tab.icache e').ref := by
  by_cases heq : e' = e
  · subst heq
    have hone := held_dropped he (u.tab.icache e').inum
    rw [if_pos rfl, h.held_eq he] at hone
    rw [dropped, setIcache_self]
    change 0 < (u.tab.icache e').ref - 1
    omega
  · rw [dropped, setIcache_of_ne u heq]
    exact hpos

theorem Refs.put (h : Refs s (some i) t) (hp : Points t e i) : Refs s none (dropped t e) := by
  have hheld : ∀ k, held (dropped t e) k = held s k := by
    intro k
    have hdrop := held_dropped hp.pos k
    have hone := h.counts k
    rw [hp.inum] at hdrop
    rw [if_some_eq] at hone
    omega
  refine ⟨h.elsewhere.trans ⟨rfl, rfl, rfl, rfl⟩, h.cached.dropped e, h.idle, ?_, ?_⟩
  · intro k
    rw [hheld k, if_neg nofun, Nat.add_zero]
  · intro e' he
    obtain ⟨hinum, hpos⟩ := h.live e' he
    refine ⟨(dropped_inum t e e').trans hinum, dropped_pos h.cached hp.pos hpos ?_⟩
    rw [hheld, hinum]
    exact held_pos_iff.mpr ⟨e', he, rfl⟩

theorem unlocked_ino_self (s : State) (e : Entry) : (unlocked s e).ino e = { s.ino e with holder := none } := setIno_ino s e _

theorem unlocked_ino_of_ne (s : State) {e e' : Entry} (h : e' ≠ e) : (unlocked s e).ino e' = s.ino e' :=
  Function.update_of_ne h ..

theorem locked_ino_of_ne (s : State) {e e' : Entry} (h : e' ≠ e) : (locked s p e).ino e' = s.ino e' :=
  Function.update_of_ne h ..

theorem Cached.unlocked (h : Cached u) (e : Entry) : Cached (unlocked u e) where
  unique := h.unique
  fresh e' he hvalid := by
    by_cases heq : e' = e
    · rw [heq, unlocked_ino_self] at hvalid
      rw [heq, Fresh, unlocked_ino_self]
      exact h.fresh e (heq ▸ he) hvalid
    · rw [unlocked_ino_of_ne u heq] at hvalid
      rw [Fresh, unlocked_ino_of_ne u heq]
      exact h.fresh e' he hvalid

theorem Cached.locked (h : Cached t) (e : Entry) : Cached (locked t p e) where
  unique := h.unique
  fresh e' he hvalid := by
    by_cases heq : e' = e
    · rw [heq]
      exact Regular.fresh_locked
    · rw [locked_ino_of_ne t heq] at hvalid
      rw [Fresh, locked_ino_of_ne t heq]
      exact h.fresh e' he hvalid

theorem Got.unlock {e' : Entry} (hidle : ∀ e, (t.ino e).holder = none) (hgot : Got (locked t p e) j e' u) :
    Got t j e' (unlocked u e) := by
  obtain ⟨helse, hcached, hinum, hpos, hcounts, hlive, hholder⟩ := hgot
  refine ⟨⟨helse.disk, helse.file, helse.proc, helse.input⟩, hcached.unlocked e,
    hinum, hpos, ?_, hlive, ?_⟩
  · intro k
    rw [held_congr (s := u) (t := unlocked u e) rfl, hcounts k, held_congr (s := t) (t := locked t p e) rfl]
  · intro e''
    by_cases heq : e'' = e
    · rw [heq, unlocked_ino_self, hidle e]
    · rw [unlocked_ino_of_ne u heq, hholder e'', locked_ino_of_ne t heq]

theorem Refs.exchange {e' : Entry} (h : Refs s (some i) t) (hp : Points t e i) (hgot : Got t j e' u) :
    Refs s (some j) (dropped u e) ∧ Points (dropped u e) e' j := by
  obtain ⟨hinum, hpos⟩ := hgot.live e hp.pos
  rw [hp.inum] at hinum
  have hcounts : ∀ k, held (dropped u e) k = held s k + if k = j then 1 else 0 := by
    intro k
    have hdrop := held_dropped hpos k
    have hone := h.counts k
    have htwo := hgot.counts k
    rw [hinum] at hdrop
    rw [if_some_eq] at hone
    omega
  refine ⟨⟨(h.elsewhere.trans hgot.elsewhere).trans ⟨rfl, rfl, rfl, rfl⟩, hgot.cached.dropped e, ?_, ?_, ?_⟩,
    (dropped_inum u e e').trans hgot.inum, ?_⟩
  · intro e''
    exact (hgot.holder e'').trans (h.idle e'')
  · intro k
    rw [hcounts k, if_some_eq]
  · intro e'' he
    obtain ⟨hinum', hpos'⟩ := h.live e'' he
    obtain ⟨hinum'', hpos''⟩ := hgot.live e'' hpos'
    refine ⟨((dropped_inum u e e'').trans hinum'').trans hinum', dropped_pos hgot.cached hpos hpos'' ?_⟩
    rw [hcounts, hinum'', hinum']
    exact Nat.lt_of_lt_of_le (held_pos_iff.mpr ⟨e'', he, rfl⟩) (Nat.le_add_right ..)
  · apply dropped_pos hgot.cached hpos hgot.pos
    rw [hcounts, hgot.inum, if_pos rfl]
    exact Nat.succ_pos _

theorem Refs.visited (h : Refs s (some i) t) (hp : Points t e i) :
    Refs s (some i) (Fs.unlocked (Fs.locked t p e) e) ∧ Points (Fs.unlocked (Fs.locked t p e) e) e i := by
  refine ⟨⟨⟨h.elsewhere.disk, h.elsewhere.file, h.elsewhere.proc, h.elsewhere.input⟩, (h.cached.locked e).unlocked e, ?_, ?_, h.live⟩, hp.inum, hp.pos⟩
  · intro e'
    by_cases heq : e' = e
    · rw [heq, unlocked_ino_self]
    · rw [unlocked_ino_of_ne _ heq, locked_ino_of_ne t heq]
      exact h.idle e'
  · intro k
    rw [held_congr (s := t) (t := Fs.unlocked (Fs.locked t p e) e) rfl]
    exact h.counts k

theorem run_iunlockput (hheld : (u.ino e).holder = some p) (hpos : 0 < (u.tab.icache e).ref)
    (hkeep : (u.ino e).valid = true → (u.ino e).d.nlink = 0 → (u.tab.icache e).ref ≠ 1) :
    (solo (sem sb) p (iunlockput e)).run u = .ok ((), dropped (unlocked u e) e) := by
  have hidle : ((unlocked u e).ino e).holder = none := by rw [unlocked_ino_self]
  have hkeep' : ((unlocked u e).ino e).valid = true → ((unlocked u e).ino e).d.nlink = 0 →
      ((unlocked u e).tab.icache e).ref ≠ 1 := by
    rw [unlocked_ino_self]
    exact hkeep
  rw [iunlockput, solo_bind, run_bind_of_ok (run_iunlock hheld hpos)]
  exact run_iput hidle hkeep'

theorem Refs.leave (h : Refs s (some i) t) (hp : Points t e i) (hstays : Stays s i) :
    ∃ v, (solo (sem sb) p (iunlockput e)).run (locked t p e) = .ok ((), v) ∧ Refs s none v := by
  have hheld : held s i < held (locked t p e) i := by
    have hone := h.counts i
    rw [if_pos rfl] at hone
    rw [held_congr (s := t) (t := locked t p e) rfl]
    omega
  have hp' : Points (locked t p e) e i := ⟨hp.inum, hp.pos⟩
  have hkeep := hstays.keep (h.cached.locked e) hp' h.elsewhere.disk hheld
  refine ⟨_, run_iunlockput (by rw [locked_ino]) hp.pos hkeep, ?_⟩
  obtain ⟨hrefs, hpoints⟩ := h.visited (p := p) hp
  exact hrefs.put hpoints

theorem Refs.advance {e' : Entry} (h : Refs s (some i) t) (hp : Points t e i) (hstays : Stays s i)
    (hgot : Got (Fs.locked t p e) j e' u) :
    ∃ v, (solo (sem sb) p (iunlockput e)).run u = .ok ((), v) ∧ Refs s (some j) v ∧ Points v e' j := by
  obtain ⟨hinum, hpos⟩ := hgot.live e hp.pos
  have hp' : Points u e i := ⟨hinum.trans hp.inum, hpos⟩
  have hheld : held s i < held u i := by
    have hone := h.counts i
    have htwo := hgot.counts i
    rw [if_pos rfl] at hone
    rw [held_congr (s := t) (t := Fs.locked t p e) rfl] at htwo
    omega
  have hholder : (u.ino e).holder = some p := by
    rw [hgot.holder e, locked_ino]
  have hdisk : u.disk = s.disk := hgot.elsewhere.disk.trans h.elsewhere.disk
  exact ⟨_, run_iunlockput hholder hpos (hstays.keep hgot.cached hp' hdisk hheld), h.exchange hp (hgot.unlock h.idle)⟩

end Holding

section Namex

variable {sb : Super} {p : Pid} {s t : State} {e : Entry} {i : Nat} {file : Nat → Nat → UInt8} {path : List UInt8}

/-- A process that can look up paths: the disk is in order, nobody holds a lock, and two slots of the cache are free. -/
structure Ready (sb : Super) (file : Nat → Nat → UInt8) (s : State) : Prop where
  intact : Intact sb file s.disk
  tree : Tree s.disk
  cached : Cached s
  idle : ∀ e, (s.ino e).holder = none
  room : busy s + 2 ≤ NINODE

/-- Whether inode `i` is a directory. -/
def Disk.isDir (D : Disk) (i : Nat) : Bool := decide ((D.dino i).type = .dir)

theorem Disk.find_isDir {D : Disk} (i : Nat) (name : List UInt8) (j : Nat) (h : D.find i name = some j) : D.isDir i = true := by
  unfold Disk.find at h
  split_ifs at h with hdir
  exact decide_eq_true hdir

/-- How a lookup ends: with a reference to the inode it found, or without one. -/
def Found (s : State) (r : Option (Nat × List UInt8)) (out : Option (Entry × List UInt8)) (t : State) : Prop :=
  Refs s (r.map Prod.fst) t ∧ out.map (fun x => ((t.tab.icache x.1).inum, x.2)) = r ∧
    ∀ x, out = some x → 0 < (t.tab.icache x.1).ref

theorem Found.nothing (h : Refs s none t) : Found s none none t := ⟨h, rfl, nofun⟩

theorem Found.inode (h : Refs s (some i) t) (hp : Points t e i) (name : List UInt8) :
    Found s (some (i, name)) (some (e, name)) t := by
  refine ⟨h, ?_, ?_⟩
  · rw [Option.map_some, hp.inum]
  · intro x hx
    obtain rfl := Option.some.inj hx
    exact hp.pos

theorem Ready.readable (hs : Ready sb file s) (h : Refs s (some i) t) (hp : Points t e i) (hdir : (s.disk.dino i).type = .dir) :
    Readable sb file e (locked t p e) where
  intact := by
    have hdisk : (locked t p e).disk = s.disk := h.elsewhere.disk
    rw [hdisk]
    exact hs.intact
  fresh := Regular.fresh_locked
  dir := by
    have hdisk : (locked t p e).disk = s.disk := h.elsewhere.disk
    rw [hdisk]
    exact (congrArg (fun k => (s.disk.dino k).type) hp.inum).trans hdir
  whole := by
    have hdisk : (locked t p e).disk = s.disk := h.elsewhere.disk
    rw [hdisk]
    exact (congrArg (fun k => (s.disk.dino k).size % DESIZE) hp.inum).trans (hs.tree.whole i hdir)

/-- The element is looked up in a locked directory, which is then left. -/
theorem lookup_spec (name : List UInt8) (hs : Ready sb file s) (h : Refs s (some i) t) (hp : Points t e i) (hstays : Stays s i)
    (hdir : (s.disk.dino i).type = .dir) :
    (s.disk.find i name = none ∧ ∃ u, (solo (sem sb) p (dirlookup sb e name)).run (locked t p e) = .ok (none, u) ∧
      ∃ v, (solo (sem sb) p (iunlockput e)).run u = .ok ((), v) ∧ Refs s none v) ∨
    ∃ j e' off u, s.disk.find i name = some j ∧
      (solo (sem sb) p (dirlookup sb e name)).run (locked t p e) = .ok (some (e', off), u) ∧
      ∃ v, (solo (sem sb) p (iunlockput e)).run u = .ok ((), v) ∧ Refs s (some j) v ∧ Points v e' j := by
  have hread := hs.readable (p := p) h hp hdir
  have hdisk : (locked t p e).disk = s.disk := h.elsewhere.disk
  have hinum : ((locked t p e).tab.icache e).inum = i := hp.inum
  cases hfind : s.disk.find i name with
  | none =>
    refine Or.inl ⟨rfl, _, run_dirlookup_none hread ?_, h.leave hp hstays⟩
    rw [hdisk, hinum]
    exact hfind
  | some j =>
    have hbusy : busy (locked t p e) < NINODE := h.busy_lt hs.cached hs.room
    have hfind' : (locked t p e).disk.find ((locked t p e).tab.icache e).inum name = some j := by
      rw [hdisk, hinum]
      exact hfind
    obtain ⟨e', off, u, hrun, hgot⟩ := run_dirlookup_some (p := p) hread (h.cached.locked e) hfind' (Or.inr hbusy)
    exact Or.inr ⟨j, e', off, u, rfl, hrun, h.advance hp hstays hgot⟩

theorem namexFrom_spec (hs : Ready sb file s) (parent : Bool) (fuel : Nat) (hfuel : path.length < fuel) (h : Refs s (some i) t)
    (hp : Points t e i) (hstays : Stays s i) (htype : (s.disk.dino i).type ≠ .free) :
    ∃ out u, (solo (sem sb) p (namexFrom sb parent fuel e path)).run t = .ok (out, u) ∧
      Found s (follow s.disk.find s.disk.isDir parent i (elems path)) out u := by
  induction fuel generalizing path t e i with
  | zero => exact absurd hfuel (Nat.not_lt_zero _)
  | succ fuel ih =>
    rw [namexFrom]
    cases hskip : skipelem path with
    | none =>
      rw [skipelem_none hskip, follow]
      cases parent with
      | true =>
        -- Under `nameiparent` an empty path has no last element: the reference is dropped again.
        have hheld : held s i < held t i := by
          have hone := h.counts i
          rw [if_pos rfl] at hone
          omega
        have hput : (solo (sem sb) p (iput e)).run t = .ok ((), dropped t e) :=
          run_iput (h.idle e) (hstays.keep h.cached hp h.elsewhere.disk hheld)
        refine ⟨none, dropped t e, ?_, .nothing (h.put hp)⟩
        simp only [if_true]
        rw [solo_bind, run_bind_of_ok hput]
        rfl
      | false => exact ⟨some (e, []), t, rfl, .inode h hp []⟩
    | some nr =>
      obtain ⟨name, rest⟩ := nr
      obtain ⟨helems, hslash, hlen⟩ := skipelem_some hskip
      have hload : ((locked t p e).ino e).d = s.disk.dino i := by
        rw [locked_ino, hp.inum, h.elsewhere.disk]
      simp only
      rw [helems, follow, solo_bind, run_bind_of_ok (run_ilock (h.lockable hp htype)), solo_bind, solo_lift,
        run_bind_of_ok (run_once rfl), hload]
      by_cases hdir : (s.disk.dino i).type = .dir
      · have hisDir : ¬s.disk.isDir i = false := by
          rw [Disk.isDir, decide_eq_true hdir]
          exact Bool.noConfusion
        rw [if_neg (not_not.mpr hdir), if_neg hisDir]
        -- `nameiparent` stops one element early and returns the directory unlocked.
        by_cases hlast : parent = true ∧ rest.headD 0 = 0
        · have hnil := (elems_eq_nil_iff hslash).mpr hlast.2
          obtain ⟨hrefs, hpoints⟩ := h.visited (p := p) hp
          have hholder : ((locked t p e).ino e).holder = some p := by rw [locked_ino]
          have hpos : 0 < ((locked t p e).tab.icache e).ref := hp.pos
          rw [if_pos hlast, if_pos ⟨hlast.1, hnil⟩, solo_bind, run_bind_of_ok (run_iunlock hholder hpos)]
          exact ⟨_, _, rfl, .inode hrefs hpoints name⟩
        · have hlast' : ¬(parent = true ∧ elems rest = []) := by
            rintro ⟨hparent, hnil⟩
            exact hlast ⟨hparent, (elems_eq_nil_iff hslash).mp hnil⟩
          rw [if_neg hlast, if_neg hlast', solo_bind]
          -- The name is not there, and the walk fails; or it goes on in the inode that the name leads to.
          obtain ⟨hfind, u, hrun, v, hput, hrefs⟩ | ⟨j, e', off, u, hfind, hrun, v, hput, hrefs, hpoints⟩ :=
            lookup_spec (p := p) name hs h hp hstays hdir
          · rw [run_bind_of_ok hrun, hfind, solo_bind, run_bind_of_ok hput]
            exact ⟨_, _, rfl, .nothing hrefs⟩
          · obtain ⟨hfree, hlink⟩ := hs.tree.find_linked hfind
            rw [run_bind_of_ok hrun, hfind, solo_bind, run_bind_of_ok hput]
            exact ih (by omega) hrefs hpoints (Or.inl hlink) hfree
      · have hisDir : s.disk.isDir i = false := decide_eq_false hdir
        obtain ⟨v, hput, hrefs⟩ : ∃ v, (solo (sem sb) p (iunlockput e)).run (locked t p e) = .ok ((), v) ∧ Refs s none v :=
          h.leave hp hstays
        rw [if_pos hdir, if_pos hisDir, solo_bind, run_bind_of_ok hput]
        exact ⟨_, _, rfl, .nothing hrefs⟩

/-- The current directory of process `p` is inode `cwd`. -/
structure Cwd (p : Pid) (cwd : Nat) (s : State) : Prop where
  entry : ∃ e, (s.tab.proc p).cwd = some e ∧ Points s e cwd
  type : (s.disk.dino cwd).type ≠ .free

theorem namexStart_spec (hs : Ready sb file s) {cwd : Nat} (hcwd : Cwd p cwd s) (path : List UInt8) :
    ∃ e t, (solo (sem sb) p (namexStart path)).run s = .ok (e, t) ∧ Refs s (some (startOf cwd path)) t ∧
      Points t e (startOf cwd path) ∧ Stays s (startOf cwd path) ∧ (s.disk.dino (startOf cwd path)).type ≠ .free := by
  unfold namexStart startOf
  by_cases hslash : path.headD 0 = slash
  · rw [if_pos hslash, if_pos hslash]
    have hroom := hs.room
    obtain ⟨e, t, hrun, hgot⟩ : ∃ e t, (solo (sem sb) p (iget ROOTINO)).run s = .ok (e, t) ∧ Got s ROOTINO e t :=
      run_iget hs.cached (Or.inr (by omega))
    obtain ⟨hrefs, hpoints⟩ := Refs.got hs.idle hgot
    exact ⟨e, t, hrun, hrefs, hpoints, Or.inl hs.tree.root.2, hs.tree.root.1⟩
  · rw [if_neg hslash, if_neg hslash]
    obtain ⟨e, hentry, rfl, hpos⟩ := hcwd.entry
    have hgot := hs.cached.dup hpos
    obtain ⟨hrefs, hpoints⟩ := Refs.got hs.idle hgot
    refine ⟨e, _, ?_, hrefs, hpoints, Or.inr (held_pos_iff.mpr ⟨e, hpos, rfl⟩), hcwd.type⟩
    rw [solo_bind, solo_lift, run_bind_of_ok (run_once rfl), hentry]
    rfl

theorem namex_spec (hs : Ready sb file s) {cwd : Nat} (hcwd : Cwd p cwd s) (parent : Bool) (path : List UInt8) :
    ∃ out t, (solo (sem sb) p (namex sb parent path)).run s = .ok (out, t) ∧
      Found s (follow s.disk.find s.disk.isDir parent (startOf cwd path) (elems path)) out t := by
  obtain ⟨e, t, hrun, hrefs, hpoints, hstays, htype⟩ := namexStart_spec hs hcwd path
  rw [namex, solo_bind, run_bind_of_ok hrun]
  exact namexFrom_spec hs parent _ (Nat.lt_succ_self _) hrefs hpoints hstays htype

theorem namei_spec (hs : Ready sb file s) {cwd : Nat} (hcwd : Cwd p cwd s) (path : List UInt8) :
    ∃ out t, (solo (sem sb) p (namei sb path)).run s = .ok (out, t) ∧ Refs s (resolve s.disk.find cwd path) t ∧
      out.map (fun e => (t.tab.icache e).inum) = resolve s.disk.find cwd path ∧
      ∀ e, out = some e → 0 < (t.tab.icache e).ref := by
  obtain ⟨out, t, hrun, hrefs, hout, hpos⟩ := namex_spec hs hcwd false path
  rw [follow_false Disk.find_isDir] at hrefs hout
  have hid : (resolve s.disk.find cwd path).map (Prod.fst ∘ fun j => (j, ([] : List UInt8))) =
      resolve s.disk.find cwd path := congrFun Option.map_id _
  refine ⟨out.map Prod.fst, t, ?_, ?_, ?_, ?_⟩
  · rw [namei, solo_bind, run_bind_of_ok hrun]
    rfl
  · rw [Option.map_map] at hrefs
    exact hid.subst (motive := fun r => Refs s r t) hrefs
  · have hfst := congrArg (Option.map Prod.fst) hout
    rw [Option.map_map, Option.map_map] at hfst
    rw [Option.map_map]
    exact hfst.trans hid
  · intro e he
    obtain ⟨x, hx, rfl⟩ := Option.map_eq_some_iff.mp he
    exact hpos x hx

theorem nameiparent_spec (hs : Ready sb file s) {cwd : Nat} (hcwd : Cwd p cwd s) (path : List UInt8) :
    ∃ out t, (solo (sem sb) p (nameiparent sb path)).run s = .ok (out, t) ∧
      Found s (resolveParent s.disk.find s.disk.isDir cwd path) out t := by
  obtain ⟨out, t, hrun, hfound⟩ := namex_spec hs hcwd true path
  rw [follow_true Disk.find_isDir] at hfound
  exact ⟨out, t, hrun, hfound⟩

/-- What `namei` and `nameiparent` of a process that runs alone return: the inode that the elements of the path lead to,
and the directory of the last one. One reference to it is taken, and all other references are as before. So a path is its
last element in its parent, and what follows a slash is looked up from what comes before it. -/
theorem namei_resolves (hs : Ready sb file s) {cwd : Nat} (hcwd : Cwd p cwd s) (path : List UInt8) :
    (∃ out t, (solo (sem sb) p (namei sb path)).run s = .ok (out, t) ∧ Refs s (resolve s.disk.find cwd path) t ∧
      out.map (fun e => (t.tab.icache e).inum) = resolve s.disk.find cwd path ∧
      ∀ e, out = some e → 0 < (t.tab.icache e).ref) ∧
    (∃ out t, (solo (sem sb) p (nameiparent sb path)).run s = .ok (out, t) ∧
      Found s (resolveParent s.disk.find s.disk.isDir cwd path) out t) ∧
    (∀ i name, resolveParent s.disk.find s.disk.isDir cwd path = some (i, name) →
      resolve s.disk.find cwd path = s.disk.find i name) ∧
    (∀ q, (∀ c ∈ path, c ≠ 0) → path ≠ [] → q.headD 0 ≠ slash → resolve s.disk.find cwd (path ++ slash :: q) =
      (resolve s.disk.find cwd path).bind fun i => resolve s.disk.find i q) :=
  ⟨namei_spec hs hcwd path, nameiparent_spec hs hcwd path, fun _ _ h => resolve_of_parent h,
    fun _ hzero hne hq => resolve_append hzero hne hq⟩

end Namex

section Example

/-- A root directory with the entries `.`, `..` and `a`. -/
def homeBlock : Block := fun k =>
  ([⟨1, strncpy DIRSIZ dot⟩, ⟨1, strncpy DIRSIZ dotdot⟩, ⟨2, strncpy DIRSIZ [97]⟩].flatMap Dirent.bytes).getD k 0

def rootDir : Dinode := ⟨.dir, 0, 0, 1, 48, fun k => if k = 0 then 59 else 0⟩

def homeDisk : Disk where
  dino := Function.update (Function.update (fun _ => .zero) 2 emptyFile) 1 rootDir
  bit b := decide (b < 60)
  data := Function.update (fun _ _ => 0) 59 homeBlock

/-- Process 0 is in the root directory. -/
def home : State where
  tab :=
    { icache := Function.update (fun _ => ⟨0, 0⟩) 1 ⟨1, 1⟩
      file := fun _ => ⟨0, .none, false, false, 0⟩
      proc := Function.update (fun _ => ⟨none⟩) 0 ⟨some 1⟩ }
  ino := fun _ => ⟨none, false, .zero⟩
  disk := homeDisk
  input := []

theorem homeDisk_dino {i : Nat} (hi : i ≠ 1) :
    (homeDisk.dino i).type ≠ .dir ∧ (homeDisk.dino i).size = 0 ∧ (homeDisk.dino i).addrs = fun _ => 0 := by
  have hsmall : homeDisk.dino i = smallDisk.dino i := by
    simp only [homeDisk, smallDisk, Function.update_of_ne hi]
  refine ⟨?_, ?_⟩
  · rw [hsmall]
    by_cases htwo : i = 2
    · subst htwo
      decide
    · simp only [smallDisk, Function.update_of_ne htwo]
      decide
  · rw [hsmall]
    exact smallDisk_dino i

theorem slots_homeDisk (i : Nat) (sl : Slot) :
    slots homeDisk.data homeDisk.dino i sl = if i = 1 ∧ sl = .addr 0 then 59 else 0 := by
  by_cases hi : i = 1
  · subst hi
    cases sl with
    | addr k =>
      by_cases hk : k = 0
      · subst hk
        rfl
      · rw [if_neg fun hand => hk (Slot.addr.inj hand.2)]
        exact if_neg hk
    | entry j => rfl
  · rw [if_neg fun hand => hi hand.1]
    have haddrs := (homeDisk_dino hi).2.2
    cases sl with
    | addr k => rw [slots, refs, haddrs]
    | entry j => rw [slots, refs, haddrs, if_pos rfl]

theorem homeDisk_intact : Intact smallSuper homeDisk.bytes homeDisk where
  sound :=
    { apart := by
        intro i sl i' sl' hne heq
        rw [slots_homeDisk] at hne heq
        rw [slots_homeDisk] at heq
        split_ifs at hne heq with h₁ h₂
        · exact ⟨h₂.1.trans h₁.1.symm, h₂.2.trans h₁.2.symm⟩
        · exact absurd rfl hne
      used := by
        intro i sl hne
        rw [slots_homeDisk] at hne ⊢
        split_ifs at hne ⊢ with h₁
        · exact ⟨by decide, by decide, rfl⟩
        · exact absurd rfl hne
      holds := fun _ => rfl
      low := fun b hb => decide_eq_true (Nat.lt_succ_of_lt hb) }
  filled := by
    intro i sl
    rw [slots_homeDisk]
    by_cases hi : i = 1
    · subst hi
      change (if 1 = 1 ∧ sl = .addr 0 then 59 else 0) ≠ 0 ↔ sl.index < 1
      cases sl with
      | addr k =>
        by_cases hk : k = 0
        · subst hk
          decide
        · rw [if_neg fun hand => hk (Slot.addr.inj hand.2)]
          exact iff_of_false (fun h => h rfl) fun h => hk (Fin.ext (Nat.lt_one_iff.mp h))
      | entry j =>
        rw [if_neg (by simp)]
        exact iff_of_false (fun h => h rfl) (Nat.not_lt.mpr (Nat.le_trans (by decide) (Nat.le_add_right ..)))
    · rw [if_neg fun hand => hi hand.1, (homeDisk_dino hi).2.1]
      exact iff_of_false (fun h => h rfl) (Nat.not_lt_zero _)
  small := by
    intro i
    by_cases hi : i = 1
    · subst hi
      decide
    · rw [(homeDisk_dino hi).2.1]
      exact Nat.zero_le _

theorem homeDisk_tree : Tree homeDisk where
  whole := by
    intro i hdir
    by_cases hi : i = 1
    · subst hi
      rfl
    · exact absurd hdir (homeDisk_dino hi).1
  linked := by
    intro i k hdir hk _
    by_cases hi : i = 1
    · subst hi
      have hall : ∀ k < 3, (homeDisk.dino (homeDisk.dirent 1 k).inum).type ≠ .free ∧
          (homeDisk.dino (homeDisk.dirent 1 k).inum).nlink ≠ 0 := by decide
      exact hall k hk
    · exact absurd hdir (homeDisk_dino hi).1
  root := by decide

theorem home_icache {e : Entry} (h : 0 < (home.tab.icache e).ref) : e = 1 := by
  by_contra hne
  have hfree : (home.tab.icache e).ref = 0 := by
    simp only [home, Function.update_of_ne hne]
  omega

theorem home_ready : Ready smallSuper homeDisk.bytes home where
  intact := homeDisk_intact
  tree := homeDisk_tree
  cached :=
    { unique := fun e e' h h' _ => (home_icache h).trans (home_icache h').symm
      fresh := fun _ _ h => absurd h Bool.false_ne_true }
  idle := fun _ => rfl
  room := by
    have hle : busy home ≤ 1 := by
      apply Nat.le_trans (Finset.card_le_card _) (Nat.le_of_eq (Finset.card_singleton (1 : Entry)))
      intro e he
      exact Finset.mem_singleton.mpr (home_icache (Finset.mem_filter.mp he).2)
    exact Nat.le_trans (Nat.add_le_add_right hle 2) (by decide)

theorem home_cwd : Cwd 0 1 home := ⟨⟨1, rfl, rfl, Nat.one_pos⟩, by decide⟩

/-- `/a` is inode 2. -/
theorem namei_resolves_home : Ready smallSuper homeDisk.bytes home ∧
    ∃ out t, (solo (sem smallSuper) 0 (namei smallSuper [47, 97])).run home = .ok (out, t) ∧
      out.map (fun e => (t.tab.icache e).inum) = some 2 ∧ Refs home (some 2) t := by
  have hresolve : resolve home.disk.find 1 [47, 97] = some 2 := by decide
  obtain ⟨⟨out, t, hrun, hrefs, hout, -⟩, -⟩ := namei_resolves home_ready home_cwd [47, 97]
  rw [hresolve] at hrefs hout
  exact ⟨home_ready, out, t, hrun, hout, hrefs⟩

end Example

end Chameleon.Fs
