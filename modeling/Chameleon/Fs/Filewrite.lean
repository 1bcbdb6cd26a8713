import Mathlib.Order.Interval.Finset.Nat
import Chameleon.Fs.Transfer

/-! `filewrite` of a process that runs alone: the chunks it is split into, and what it reports. -/

namespace Chameleon.Fs
open Conc Hoare

section Files

open Prog (lift)

/-- One turn of the loop of `filewrite`. -/
def filewriteOnce (sb : Super) (f : FileId) (e : Entry) (src : List UInt8) : M (Option Nat) := do
  ilock e
  let x ← lift (.file f)
  let r ← writei sb e src x.off
  match r with
  | some m => do
    lift (.setOff f ((x.off + m) % 2 ^ 32))
    iunlock e
    pure r
  | none => do
    iunlock e
    pure r

/-- The bytes that `filewrite` writes in one transaction. -/
abbrev filewriteMax : Nat := (MAXOPBLOCKS - 1 - 1 - 2) / 2 * 512

/-- The loop of `filewrite`, with the bytes that are left; whether all of them were written. -/
def filewriteLoop (sb : Super) (f : FileId) (e : Entry) : Nat → List UInt8 → M Bool
  | 0, src => pure src.isEmpty
  | fuel + 1, src =>
    if src = [] then pure true else do
      let r ← filewriteOnce sb f e (src.take filewriteMax)
      match r with
      | none => pure false
      | some m =>
        if m = (src.take filewriteMax).length then
          filewriteLoop sb f e fuel (src.drop filewriteMax)
        else .panic "short filewrite"

def filewrite (sb : Super) (f : FileId) (src : List UInt8) : M Int := do
  let x ← lift (.file f)
  if x.writable = false then pure (-1) else
    match x.type with
    | .pipe _ => do
      let r ← lift (.device src.length)
      pure (r.elim (-1) fun _ => src.length)
    | .inode e => do
      let all ← filewriteLoop sb f e src.length src
      pure (if all then src.length else -1)
    | .none => .panic "filewrite"

end Files

section Lock

variable {sb : Super} {p : Pid} {e : Entry} {s : State}

/-- Inode `e` locked by `p` and filled. -/
def locked (s : State) (p : Pid) (e : Entry) : State := s.setIno e ⟨some p, true, s.disk.dino (s.tab.icache e).inum⟩

/-- Inode `e` can be locked. -/
structure Lockable (s : State) (e : Entry) : Prop where
  ref : 0 < (s.tab.icache e).ref
  unlocked : (s.ino e).holder = none
  fresh : (s.ino e).valid = true → Fresh s e
  type : (s.disk.dino (s.tab.icache e).inum).type ≠ .free

theorem locked_ino (s : State) (p : Pid) (e : Entry) :
    (locked s p e).ino e = ⟨some p, true, s.disk.dino (s.tab.icache e).inum⟩ := by
  simp [locked, State.setIno]

theorem setIno_setIno (s : State) (e : Entry) (x y : Inode) : (s.setIno e x).setIno e y = s.setIno e y := by
  simp [State.setIno, Function.update_idem]

theorem setIno_ino (s : State) (e : Entry) (x : Inode) : (s.setIno e x).ino e = x := by
  simp [State.setIno]

/-- Inode `e` with its lock taken by `p`. -/
def taken (s : State) (p : Pid) (e : Entry) : State := s.setIno e { s.ino e with holder := some p }

theorem taken_ino (s : State) (p : Pid) (e : Entry) : (taken s p e).ino e = { s.ino e with holder := some p } :=
  setIno_ino s e _

theorem run_acquiresleep (hidle : (s.ino e).holder = none) :
    (once (sem sb) p (.acquiresleep e)).run s = .ok ((), taken s p e) := by
  apply run_once
  simp only [sem, if_pos hidle]
  rfl

/-- The part of `ilock` under the lock. -/
def fill (e : Entry) : M Unit := do
  let valid ← Prog.lift (.valid e)
  if valid then pure () else do
    let d ← Prog.lift (.ifill e)
    if d.type = .free then .panic "ilock: no type" else pure ()

theorem run_fill (h : Lockable s e) : (solo (sem sb) p (fill e)).run (taken s p e) = .ok ((), locked s p e) := by
  rw [fill, solo_bind, solo_lift, run_bind_of_ok (run_once rfl), taken_ino]
  cases hvalid : (s.ino e).valid with
  | true =>
    have hd : (s.ino e).d = s.disk.dino (s.tab.icache e).inum := h.fresh hvalid
    have hstate : taken s p e = locked s p e := by
      rw [taken, locked, ← hd, ← hvalid]
    rw [hstate]
    rfl
  | false =>
    have hfill : (once (sem sb) p (.ifill e)).run (taken s p e) =
        .ok (s.disk.dino (s.tab.icache e).inum, locked s p e) := by
      rw [locked, ← setIno_setIno s e { s.ino e with holder := some p }]
      apply run_once
      simp only [sem, taken_ino]
      rfl
    rw [if_neg Bool.false_ne_true, solo_bind, solo_lift, run_bind_of_ok hfill, if_neg h.type]
    rfl

theorem run_ilock (h : Lockable s e) : (solo (sem sb) p (ilock e)).run s = .ok ((), locked s p e) := by
  rw [ilock, solo_bind, solo_lift, run_bind_of_ok (run_once rfl), if_neg (Nat.not_lt.mpr h.ref), solo_bind, solo_lift,
    run_bind_of_ok (run_acquiresleep h.unlocked)]
  exact run_fill h

/-- Inode `e` unlocked. -/
def unlocked (s : State) (e : Entry) : State := s.setIno e { s.ino e with holder := none }

theorem run_iunlock (hheld : (s.ino e).holder = some p) (href : 0 < (s.tab.icache e).ref) :
    (solo (sem sb) p (iunlock e)).run s = .ok ((), unlocked s e) := by
  have hholding : (once (sem sb) p (.holdingsleep e)).run s = .ok (true, s) := by
    apply run_once
    simp only [sem, hheld, decide_true]
    rfl
  have hcond : ¬(true = false ∨ (s.tab.icache e).ref < 1) := by
    rintro (h | h)
    · exact Bool.noConfusion h
    · omega
  rw [iunlock, solo_bind, solo_lift, run_bind_of_ok hholding, solo_bind, solo_lift, run_bind_of_ok (run_once rfl),
    if_neg hcond, solo_lift]
  rfl

end Lock

section Chunk

variable {sb : Super} {p : Pid} {f : FileId} {e : Entry} {s : State} {file : Nat → Nat → UInt8} {src : List UInt8}

/-- `f` is open for writing on a regular file, and nobody holds its inode. -/
structure Regular (sb : Super) (file : Nat → Nat → UInt8) (f : FileId) (e : Entry) (s : State) : Prop where
  type : (s.tab.file f).type = .inode e
  writable : (s.tab.file f).writable = true
  ref : 0 < (s.tab.icache e).ref
  unlocked : (s.ino e).holder = none
  fresh : (s.ino e).valid = true → Fresh s e
  regular : (s.disk.dino (s.tab.icache e).inum).type = .file
  intact : Intact sb file s.disk
  off : (s.tab.file f).off ≤ (s.disk.dino (s.tab.icache e).inum).size

theorem Regular.lockable (h : Regular sb file f e s) : Lockable s e where
  ref := h.ref
  unlocked := h.unlocked
  fresh := h.fresh
  type := by
    rw [h.regular]
    exact nofun

/-- `src` has been written at the offset of `f`. -/
structure Advanced (sb : Super) (file : Nat → Nat → UInt8) (f : FileId) (e : Entry) (src : List UInt8) (s t : State) : Prop where
  regular : Regular sb (stored file (s.tab.icache e).inum (s.tab.file f).off src) f e t
  inum : (t.tab.icache e).inum = (s.tab.icache e).inum
  off : (t.tab.file f).off = (s.tab.file f).off + src.length
  size : (t.disk.dino (s.tab.icache e).inum).size =
    max (s.disk.dino (s.tab.icache e).inum).size ((s.tab.file f).off + src.length)
  free : t.disk.free sb + cost (blocks (t.disk.dino (s.tab.icache e).inum).size) =
    s.disk.free sb + cost (blocks (s.disk.dino (s.tab.icache e).inum).size)

theorem Regular.fresh_locked : Fresh (locked s p e) e := by
  rw [Fresh, locked_ino]
  rfl

theorem Regular.refused_iff (h : Regular sb file f e s) (hsrc : src.length ≤ filewriteMax) :
    Refused (s.disk.dino (s.tab.icache e).inum) (s.tab.file f).off src.length ↔
      MAXFILE * BSIZE < (s.tab.file f).off + src.length := by
  have hoff := h.off
  have hsmall := h.intact.small (s.tab.icache e).inum
  have hmax : MAXFILE * BSIZE + filewriteMax < 2 ^ 32 := by decide
  constructor
  · rintro ((hlt | hwrap) | hbig)
    · omega
    · rw [Nat.mod_eq_of_lt (by omega)] at hwrap
      omega
    · exact hbig
  · exact fun hbig => Or.inr hbig

theorem filewriteOnce_refused (h : Regular sb file f e s) (hsrc : src.length ≤ filewriteMax)
    (hbig : MAXFILE * BSIZE < (s.tab.file f).off + src.length) :
    ∃ t, (solo (sem sb) p (filewriteOnce sb f e src)).run s = .ok (none, t) ∧ Advanced sb file f e [] s t := by
  have hrefused : Refused ((locked s p e).ino e).d ((locked s p e).tab.file f).off src.length := by
    rw [locked_ino]
    exact (h.refused_iff hsrc).mpr hbig
  have htype : ((locked s p e).ino e).d.type ≠ .dev := by
    rw [locked_ino, h.regular]
    exact nofun
  have hheld : ((locked s p e).ino e).holder = some p := by rw [locked_ino]
  have href : 0 < ((locked s p e).tab.icache e).ref := h.ref
  refine ⟨unlocked (locked s p e) e, ?_, ?_, rfl, rfl, (Nat.max_eq_left h.off).symm, rfl⟩
  · rw [filewriteOnce, solo_bind, run_bind_of_ok (run_ilock h.lockable), solo_bind, solo_lift, run_bind_of_ok (run_once rfl),
      solo_bind, run_bind_of_ok (run_writei_refused htype hrefused), solo_bind,
      run_bind_of_ok (run_iunlock hheld href)]
    rfl
  · rw [stored_nil]
    refine ⟨h.type, h.writable, h.ref, ?_, ?_, h.regular, h.intact, h.off⟩
    · rw [unlocked, setIno_ino]
    · intro _
      rw [Fresh, unlocked, setIno_ino, locked_ino]
      rfl

/-- The state after a chunk was written: the offset is set, and the inode is unlocked. -/
def moved (f : FileId) (e : Entry) (off : Nat) (t : State) : State :=
  unlocked (t.setFile f { t.tab.file f with off := off % 2 ^ 32 }) e

theorem run_moved {t : State} (hheld : (t.ino e).holder = some p) (href : 0 < (t.tab.icache e).ref) (off : Nat)
    (r : Option Nat) : (solo (sem sb) p (do
      Prog.lift (.setOff f (off % 2 ^ 32))
      iunlock e
      pure r)).run t = .ok (r, moved f e off t) := by
  have hheld' : ((t.setFile f { t.tab.file f with off := off % 2 ^ 32 }).ino e).holder = some p := hheld
  have href' : 0 < ((t.setFile f { t.tab.file f with off := off % 2 ^ 32 }).tab.icache e).ref := href
  rw [solo_bind, solo_lift, run_bind_of_ok (run_once rfl), solo_bind, run_bind_of_ok (run_iunlock hheld' href')]
  rfl

theorem Written.advanced {t : State} (h : Regular sb file f e s)
    (hend : (s.tab.file f).off + src.length ≤ MAXFILE * BSIZE)
    (ht : Written sb e file (s.tab.file f).off src (locked s p e) t) :
    Advanced sb file f e src s (moved f e ((s.tab.file f).off + src.length) t) := by
  have hmod : ((s.tab.file f).off + src.length) % 2 ^ 32 = (s.tab.file f).off + src.length :=
    Nat.mod_eq_of_lt (Nat.lt_of_le_of_lt hend (by decide))
  have htab : t.tab = s.tab := ht.tab
  have hfresh := ht.fresh
  have hhead := ht.head
  have hfree := ht.free
  rw [locked_ino] at hhead hfree
  rw [Fresh, htab] at hfresh
  have hsize : (t.disk.dino (s.tab.icache e).inum).size =
      max (s.disk.dino (s.tab.icache e).inum).size ((s.tab.file f).off + src.length) := by
    rw [← hfresh, hhead]
  have hfile : ((moved f e ((s.tab.file f).off + src.length) t).tab.file f) =
      { s.tab.file f with off := (s.tab.file f).off + src.length } := by
    rw [moved, hmod, ← htab]
    exact Function.update_self f _ t.tab.file
  have hcache : (moved f e ((s.tab.file f).off + src.length) t).tab.icache = s.tab.icache := by
    simp [moved, unlocked, State.setIno, State.setFile, htab]
  have hino : (moved f e ((s.tab.file f).off + src.length) t).ino e = { t.ino e with holder := none } := by
    rw [moved, unlocked, setIno_ino]
    rfl
  have hdisk : (moved f e ((s.tab.file f).off + src.length) t).disk = t.disk := rfl
  refine ⟨⟨?_, ?_, ?_, ?_, ?_, ?_, ht.intact, ?_⟩, ?_, ?_, hsize, ?_⟩
  · rw [hfile]
    exact h.type
  · rw [hfile]
    exact h.writable
  · rw [hcache]
    exact h.ref
  · rw [hino]
  · intro _
    rw [Fresh, hino, hcache]
    exact hfresh
  · rw [hcache, hdisk, ← hfresh, hhead]
    exact h.regular
  · rw [hcache, hdisk, hfile, hsize]
    exact Nat.le_max_right ..
  · rw [hcache]
  · rw [hfile]
  · rw [hdisk, ← hfresh]
    exact hfree

theorem filewriteOnce_spec {roomy : Prop} (h : Regular sb file f e s) (hsrc : src.length ≤ filewriteMax)
    (hend : (s.tab.file f).off + src.length ≤ MAXFILE * BSIZE)
    (hroom : roomy → cost (blocks (max (s.disk.dino (s.tab.icache e).inum).size ((s.tab.file f).off + src.length))) ≤
      s.disk.free sb + cost (blocks (s.disk.dino (s.tab.icache e).inum).size)) :
    Triple (fun _ => ¬roomy) (fun t => t = s) (solo (sem sb) p (filewriteOnce sb f e src)) fun r t =>
      r = some src.length ∧ Advanced sb file f e src s t := by
  have haccepted : ¬Refused ((locked s p e).ino e).d (s.tab.file f).off src.length := by
    rw [locked_ino, h.refused_iff hsrc]
    exact Nat.not_lt.mpr hend
  have htype : ((locked s p e).ino e).d.type ≠ .dev := by
    rw [locked_ino, h.regular]
    exact nofun
  rw [filewriteOnce, solo_bind]
  apply Triple.runs (run_ilock h.lockable)
  rw [solo_bind, solo_lift]
  apply Triple.runs (run_once rfl)
  rw [solo_bind]
  have hroom' : roomy → cost (blocks (max ((locked s p e).ino e).d.size ((s.tab.file f).off + src.length))) ≤
      (locked s p e).disk.free sb + cost (blocks ((locked s p e).ino e).d.size) := by
    rw [locked_ino]
    exact hroom
  have hintact : Intact sb file (locked s p e).disk := h.intact
  refine (writei_spec hintact Regular.fresh_locked htype haccepted hroom').bind fun r => Triple.each fun t ht => ?_
  obtain ⟨rfl, hwritten⟩ := ht
  have hheld : (t.ino e).holder = some p := by
    rw [hwritten.holder, locked_ino]
  have href : 0 < (t.tab.icache e).ref := by
    rw [hwritten.tab]
    exact h.ref
  exact Triple.ran (run_moved hheld href _ _) ⟨rfl, hwritten.advanced h hend⟩

end Chunk

section Loop

variable {sb : Super} {p : Pid} {f : FileId} {e : Entry} {s : State} {file : Nat → Nat → UInt8} {src : List UInt8}

theorem Advanced.refl (h : Regular sb file f e s) : Advanced sb file f e [] s s := by
  refine ⟨?_, rfl, rfl, (Nat.max_eq_left h.off).symm, rfl⟩
  rw [stored_nil]
  exact h

theorem Advanced.trans {a b : List UInt8} {t u : State} (h : Advanced sb file f e a s t)
    (h' : Advanced sb (stored file (s.tab.icache e).inum (s.tab.file f).off a) f e b t u) :
    Advanced sb file f e (a ++ b) s u := by
  obtain ⟨hregular, hinum, hoff, hsize, hfree⟩ := h'
  rw [h.inum, h.off, ← stored_append] at hregular
  rw [h.inum] at hinum hsize hfree
  rw [h.off, Nat.add_assoc, ← List.length_append] at hoff hsize
  refine ⟨hregular, hinum, hoff, ?_, hfree.trans h.free⟩
  rw [hsize, h.size, List.length_append]
  omega

/-- There are free blocks for what `filewrite` may write. -/
def Enough (sb : Super) (f : FileId) (e : Entry) (n : Nat) (s : State) : Prop :=
  cost (blocks (max (s.disk.dino (s.tab.icache e).inum).size (min ((s.tab.file f).off + n) (MAXFILE * BSIZE)))) ≤
    s.disk.free sb + cost (blocks (s.disk.dino (s.tab.icache e).inum).size)

theorem filewriteOnce_ends (h : Regular sb file f e s) (hsrc : src.length ≤ filewriteMax)
    (hend : (s.tab.file f).off + src.length ≤ MAXFILE * BSIZE) (hroom : Enough sb f e src.length s) :
    ∃ t, (solo (sem sb) p (filewriteOnce sb f e src)).run s = .ok (some src.length, t) ∧ Advanced sb file f e src s t := by
  rw [Enough, Nat.min_eq_left hend] at hroom
  have hspec := filewriteOnce_spec (p := p) h hsrc hend fun _ : True => hroom
  obtain ⟨r, t, hrun, rfl, hadvanced⟩ := (hspec.stops fun _ hstop => hstop trivial).ends rfl
  exact ⟨t, hrun, hadvanced⟩

theorem Enough.take {m n : Nat} (h : Enough sb f e n s) (hm : m ≤ n) : Enough sb f e m s :=
  Nat.le_trans (cost_le (blocks_mono (by omega))) h

theorem Advanced.enough {a : List UInt8} {n : Nat} {t : State} (h : Advanced sb file f e a s t)
    (hroom : Enough sb f e (a.length + n) s) (hend : (s.tab.file f).off + a.length ≤ MAXFILE * BSIZE) :
    Enough sb f e n t := by
  have hfree := h.free
  unfold Enough at hroom ⊢
  rw [h.inum, h.off, hfree, h.size]
  apply Nat.le_trans (cost_le (blocks_mono _)) hroom
  omega

theorem run_filewriteLoop_next {t : State} (fuel : Nat) (hsrc : src ≠ [])
    (h : (solo (sem sb) p (filewriteOnce sb f e (src.take filewriteMax))).run s =
      .ok (some (src.take filewriteMax).length, t)) :
    (solo (sem sb) p (filewriteLoop sb f e (fuel + 1) src)).run s =
      (solo (sem sb) p (filewriteLoop sb f e fuel (src.drop filewriteMax))).run t := by
  rw [filewriteLoop, if_neg hsrc, solo_bind, run_bind_of_ok h]
  simp only [if_true]

theorem run_filewriteLoop_refused {t : State} (fuel : Nat) (hsrc : src ≠ [])
    (h : (solo (sem sb) p (filewriteOnce sb f e (src.take filewriteMax))).run s = .ok (none, t)) :
    (solo (sem sb) p (filewriteLoop sb f e (fuel + 1) src)).run s = .ok (false, t) := by
  rw [filewriteLoop, if_neg hsrc, solo_bind, run_bind_of_ok h]
  rfl

theorem length_drop_lt {m fuel : Nat} (hm : 0 < m) (hsrc : src ≠ []) (hfuel : src.length ≤ fuel + 1) :
    (src.drop m).length ≤ fuel := by
  have hpos := List.length_pos_of_ne_nil hsrc
  rw [List.length_drop]
  omega

/-- All chunks are written when the last one fits. -/
theorem filewriteLoop_fits (fuel : Nat) (hfuel : src.length ≤ fuel) (h : Regular sb file f e s)
    (hend : (s.tab.file f).off + src.length ≤ MAXFILE * BSIZE) (hroom : Enough sb f e src.length s) :
    ∃ t, (solo (sem sb) p (filewriteLoop sb f e fuel src)).run s = .ok (true, t) ∧ Advanced sb file f e src s t := by
  induction fuel generalizing src s file with
  | zero =>
    obtain rfl : src = [] := List.length_eq_zero_iff.mp (Nat.le_zero.mp hfuel)
    exact ⟨s, rfl, .refl h⟩
  | succ fuel ih =>
    by_cases hsrc : src = []
    · subst hsrc
      exact ⟨s, rfl, .refl h⟩
    · have hlen : (src.take filewriteMax).length + (src.drop filewriteMax).length = src.length := by
        rw [← List.length_append, List.take_append_drop]
      have hfirst : (s.tab.file f).off + (src.take filewriteMax).length ≤ MAXFILE * BSIZE := by omega
      obtain ⟨t, hrun, ht⟩ := filewriteOnce_ends (p := p) h (List.length_take_le ..) hfirst (hroom.take (by omega))
      rw [← hlen] at hroom
      obtain ⟨u, hrun', hu⟩ := ih (length_drop_lt (by decide) hsrc hfuel) ht.regular (by rw [ht.off]; omega)
        (ht.enough hroom hfirst)
      refine ⟨u, ?_, ?_⟩
      · rw [run_filewriteLoop_next fuel hsrc hrun, hrun']
      · rw [← List.take_append_drop filewriteMax src]
        exact ht.trans hu

/-- Of a write of `n` bytes at `off`, chunks of `k` bytes in all end within the largest size, and the next does not. -/
def LastChunk (off n k : Nat) : Prop :=
  k % filewriteMax = 0 ∧ off + k ≤ MAXFILE * BSIZE ∧ MAXFILE * BSIZE < off + min n (k + filewriteMax)

theorem filewriteLoop_exceeds (fuel : Nat) (hfuel : src.length ≤ fuel) (h : Regular sb file f e s)
    (hend : MAXFILE * BSIZE < (s.tab.file f).off + src.length) (hroom : Enough sb f e src.length s) :
    ∃ k t, (solo (sem sb) p (filewriteLoop sb f e fuel src)).run s = .ok (false, t) ∧
      Advanced sb file f e (src.take k) s t ∧ LastChunk (s.tab.file f).off src.length k := by
  have hoff : (s.tab.file f).off ≤ MAXFILE * BSIZE := h.off.trans (h.intact.small _)
  have hsrc : src ≠ [] := by
    rintro rfl
    exact absurd hend (Nat.not_lt.mpr hoff)
  induction fuel generalizing src s file with
  | zero => exact absurd (List.length_eq_zero_iff.mp (Nat.le_zero.mp hfuel)) hsrc
  | succ fuel ih =>
    have hlen : (src.take filewriteMax).length + (src.drop filewriteMax).length = src.length := by
      rw [← List.length_append, List.take_append_drop]
    by_cases hfirst : (s.tab.file f).off + (src.take filewriteMax).length ≤ MAXFILE * BSIZE
    · obtain ⟨t, hrun, ht⟩ := filewriteOnce_ends (p := p) h (List.length_take_le ..) hfirst (hroom.take (by omega))
      have hroom' : Enough sb f e ((src.take filewriteMax).length + (src.drop filewriteMax).length) s := hlen.symm ▸ hroom
      have hrest : src.drop filewriteMax ≠ [] := by
        intro hnil
        rw [hnil, List.length_nil] at hlen
        omega
      obtain ⟨k, u, hrun', hu, hk⟩ := ih (length_drop_lt (by decide) hsrc hfuel) ht.regular (by rw [ht.off]; omega)
        (ht.enough hroom' hfirst) (ht.off ▸ hfirst) hrest
      refine ⟨filewriteMax + k, u, ?_, ?_, ?_⟩
      · rw [run_filewriteLoop_next fuel hsrc hrun, hrun']
      · rw [List.take_add]
        exact ht.trans hu
      · -- the chunk was a full one, since more follow
        have hpos := List.length_pos_of_ne_nil hrest
        obtain ⟨hmod, hle, hlt⟩ := hk
        rw [ht.off] at hle hlt
        rw [List.length_drop] at hlen hlt hpos
        refine ⟨by rw [Nat.add_mod_left, hmod], by omega, by omega⟩
    · obtain ⟨t, hrun, ht⟩ := filewriteOnce_refused (p := p) h (List.length_take_le ..) (Nat.lt_of_not_le hfirst)
      refine ⟨0, t, run_filewriteLoop_refused fuel hsrc hrun, ht, Nat.zero_mod _, hoff, ?_⟩
      rw [Nat.zero_add, Nat.min_comm, ← List.length_take]
      exact Nat.lt_of_not_le hfirst

theorem run_filewrite {all : Bool} {t : State} (h : Regular sb file f e s)
    (hrun : (solo (sem sb) p (filewriteLoop sb f e src.length src)).run s = .ok (all, t)) :
    (solo (sem sb) p (filewrite sb f src)).run s = .ok (if all then (src.length : Int) else -1, t) := by
  rw [filewrite, solo_bind, solo_lift, run_bind_of_ok (run_once rfl), if_neg (by rw [h.writable]; decide), h.type]
  change (solo (sem sb) p (do
    let all ← filewriteLoop sb f e src.length src
    pure (if all then (src.length : Int) else -1))).run s = _
  rw [solo_bind, run_bind_of_ok hrun]
  rfl

end Loop

section Report

variable {sb : Super} {p : Pid} {f : FileId} {e : Entry} {s t : State} {file : Nat → Nat → UInt8} {src : List UInt8}

/-- The dinode of `e`. -/
def dinodeOf (s : State) (e : Entry) : Dinode := s.disk.dino (s.tab.icache e).inum

/-- The bytes of the file of `e`. -/
def bytesOf (s : State) (e : Entry) : Nat → UInt8 := s.disk.file (dinodeOf s e)

/-- All of `src` was written at the offset. -/
def Stored (f : FileId) (e : Entry) (src : List UInt8) (s t : State) : Prop :=
  bytesOf t e = Bytes.store (bytesOf s e) (s.tab.file f).off src ∧
    (dinodeOf t e).size = max (dinodeOf s e).size ((s.tab.file f).off + src.length) ∧
    (t.tab.file f).off = (s.tab.file f).off + src.length

/-- The result `r` of a write of `src` says what happened: all of it was written at the offset, or nothing was. -/
def Reported (f : FileId) (e : Entry) (src : List UInt8) (s : State) (r : Int) (t : State) : Prop :=
  (r = src.length ∧ Stored f e src s t) ∨
  (r = -1 ∧ bytesOf t e = bytesOf s e ∧ (dinodeOf t e).size = (dinodeOf s e).size ∧
    (t.tab.file f).off = (s.tab.file f).off)

theorem Regular.bytesOf_eq (h : Regular sb file f e s) : bytesOf s e = file (s.tab.icache e).inum :=
  h.intact.sound.holds _

theorem Advanced.bytesOf_eq (h : Regular sb file f e s) (ht : Advanced sb file f e src s t) :
    bytesOf t e = Bytes.store (bytesOf s e) (s.tab.file f).off src := by
  rw [ht.regular.bytesOf_eq, h.bytesOf_eq, ht.inum, stored, Function.update_self]

theorem Advanced.stored (h : Regular sb file f e s) (ht : Advanced sb file f e src s t) : Stored f e src s t := by
  refine ⟨ht.bytesOf_eq h, ?_, ht.off⟩
  rw [dinodeOf, dinodeOf, ht.inum]
  exact ht.size

theorem filewrite_fits (h : Regular sb file f e s) (hroom : Enough sb f e src.length s)
    (hend : (s.tab.file f).off + src.length ≤ MAXFILE * BSIZE) :
    ∃ t, (solo (sem sb) p (filewrite sb f src)).run s = .ok ((src.length : Int), t) ∧
      Reported f e src s src.length t := by
  obtain ⟨t, hrun, ht⟩ := filewriteLoop_fits (p := p) src.length (Nat.le_refl _) h hend hroom
  exact ⟨t, run_filewrite h hrun, Or.inl ⟨rfl, ht.stored h⟩⟩

/-- A write beyond the largest size fails after the chunks that fit, and it has changed nothing only if the first chunk
was too long. -/
theorem filewrite_exceeds (h : Regular sb file f e s) (hroom : Enough sb f e src.length s)
    (hend : MAXFILE * BSIZE < (s.tab.file f).off + src.length) :
    ∃ t, (solo (sem sb) p (filewrite sb f src)).run s = .ok (-1, t) ∧
      (Reported f e src s (-1) t ↔ MAXFILE * BSIZE < (s.tab.file f).off + min src.length filewriteMax) ∧
      ∃ k, LastChunk (s.tab.file f).off src.length k ∧ Stored f e (src.take k) s t := by
  obtain ⟨k, t, hrun, ht, hk⟩ := filewriteLoop_exceeds (p := p) src.length (Nat.le_refl _) h hend hroom
  refine ⟨t, run_filewrite h hrun, ?_, k, hk, ht.stored h⟩
  obtain ⟨hbytes, hsize, hoff⟩ := ht.stored h
  constructor
  · rintro (⟨hr, -⟩ | ⟨-, -, -, hsame⟩)
    · omega
    · obtain ⟨-, hle, hlt⟩ := hk
      rw [hoff, List.length_take] at hsame
      obtain rfl : k = 0 := by omega
      rwa [Nat.zero_add] at hlt
  · obtain ⟨hmod, hle, hlt⟩ := hk
    intro hfirst
    obtain rfl : k = 0 := by
      by_contra hne
      have := Nat.le_of_dvd (Nat.pos_of_ne_zero hne) (Nat.dvd_of_mod_eq_zero hmod)
      omega
    refine Or.inr ⟨rfl, hbytes.trans (Bytes.store_nil _ _), hsize.trans (Nat.max_eq_left h.off), hoff⟩

/-- A write of a process that runs alone reports what it did exactly if all of it fits into the file, or if not even
the first chunk does. If it does not all fit, the result is -1 and the chunks that do are stored. -/
theorem filewrite_reported_iff (h : Regular sb file f e s) (hroom : Enough sb f e src.length s) :
    ∃ r t, (solo (sem sb) p (filewrite sb f src)).run s = .ok (r, t) ∧
      (Reported f e src s r t ↔ (s.tab.file f).off + src.length ≤ MAXFILE * BSIZE ∨
        MAXFILE * BSIZE < (s.tab.file f).off + min src.length filewriteMax) ∧
      (MAXFILE * BSIZE < (s.tab.file f).off + src.length →
        r = -1 ∧ ∃ k, LastChunk (s.tab.file f).off src.length k ∧ Stored f e (src.take k) s t) := by
  by_cases hend : (s.tab.file f).off + src.length ≤ MAXFILE * BSIZE
  · obtain ⟨t, hrun, ht⟩ := filewrite_fits (p := p) h hroom hend
    exact ⟨_, t, hrun, iff_of_true ht (Or.inl hend), fun hlt => absurd hend (Nat.not_le.mpr hlt)⟩
  · obtain ⟨t, hrun, ht, hprefix⟩ := filewrite_exceeds (p := p) h hroom (Nat.lt_of_not_le hend)
    refine ⟨_, t, hrun, ht.trans ⟨Or.inr, ?_⟩, fun _ => ⟨rfl, hprefix⟩⟩
    rintro (hle | hlt)
    · exact absurd hle hend
    · exact hlt

end Report

section Example

instance : NeZero NINODE := ⟨Nat.succ_ne_zero 49⟩

instance : NeZero NFILE := ⟨Nat.succ_ne_zero 99⟩

/-- A disk as `mkfs` lays it out, with inode 2 for an empty file. -/
def smallSuper : Super := ⟨1000, 200, 59, by decide, by decide⟩

def emptyFile : Dinode := ⟨.file, 0, 0, 1, 0, fun _ => 0⟩

def smallDisk : Disk := ⟨Function.update (fun _ => .zero) 2 emptyFile, fun b => decide (b < 59), fun _ _ => 0⟩

/-- File 0 is open for writing on inode 2. -/
def opened : State where
  tab :=
    { icache := Function.update (fun _ => ⟨0, 0⟩) 0 ⟨2, 1⟩
      file := Function.update (fun _ => ⟨0, .none, false, false, 0⟩) 0 ⟨1, .inode 0, false, true, 0⟩
      proc := fun _ => ⟨none⟩ }
  ino := fun _ => ⟨none, false, .zero⟩
  disk := smallDisk
  input := []

theorem smallDisk_dino (i : Nat) : (smallDisk.dino i).size = 0 ∧ (smallDisk.dino i).addrs = fun _ => 0 := by
  by_cases hi : i = 2
  · subst hi
    exact ⟨rfl, rfl⟩
  · have hzero : smallDisk.dino i = .zero := by
      simp only [smallDisk, Function.update_of_ne hi]
    rw [hzero]
    exact ⟨rfl, rfl⟩

theorem slots_smallDisk (i : Nat) (sl : Slot) : slots smallDisk.data smallDisk.dino i sl = 0 := by
  cases sl with
  | addr k => rw [slots, refs, (smallDisk_dino i).2]
  | entry j => rw [slots, refs, (smallDisk_dino i).2, if_pos rfl]

theorem smallDisk_intact : Intact smallSuper (fun _ _ => 0) smallDisk where
  sound :=
    { apart := fun i sl _ _ hne => absurd (slots_smallDisk i sl) hne
      used := fun i sl hne => absurd (slots_smallDisk i sl) hne
      holds := by
        intro i
        funext k
        unfold content
        cases slotOf (k / BSIZE) with
        | none => rfl
        | some sl => simp only [slots_smallDisk, if_true]
      low := fun b hb => decide_eq_true hb }
  filled := by
    intro i sl
    rw [slots_smallDisk, (smallDisk_dino i).1]
    exact iff_of_false (fun h => h rfl) (Nat.not_lt_zero _)
  small := by
    intro i
    rw [(smallDisk_dino i).1]
    exact Nat.zero_le _

theorem opened_regular : Regular smallSuper (fun _ _ => 0) 0 0 opened where
  type := rfl
  writable := rfl
  ref := Nat.one_pos
  unlocked := rfl
  fresh := nofun
  regular := rfl
  intact := smallDisk_intact
  off := Nat.le_refl 0

theorem free_smallDisk : 141 ≤ smallDisk.free smallSuper := by
  have hsub : Finset.Ico 59 1000 ⊆ (Finset.range 1000).filter fun b => smallDisk.bit b = false := by
    intro b hb
    obtain ⟨hge, hlt⟩ := Finset.mem_Ico.mp hb
    exact Finset.mem_filter.mpr ⟨Finset.mem_range.mpr hlt, decide_eq_false (Nat.not_lt.mpr hge)⟩
  have hcard := Finset.card_le_card hsub
  rw [Nat.card_Ico] at hcard
  exact Nat.le_trans (by decide) hcard

theorem opened_enough (n : Nat) : Enough smallSuper 0 0 n opened := by
  have hfree : cost MAXFILE ≤ opened.disk.free smallSuper := free_smallDisk
  have hsize : (opened.disk.dino (opened.tab.icache 0).inum).size = 0 := rfl
  rw [Enough, hsize]
  apply Nat.le_trans (cost_le (blocks_le _)) (Nat.le_trans hfree (Nat.le_add_right ..))
  exact Nat.max_le.mpr ⟨Nat.zero_le _, Nat.min_le_right ..⟩

/-- One byte more than fits: of the 47 chunks, 46 are stored. -/
theorem filewrite_reported_crossing : Regular smallSuper (fun _ _ => 0) 0 0 opened ∧
    ∃ t, (solo (sem smallSuper) 0 (filewrite smallSuper 0 (List.replicate (MAXFILE * BSIZE + 1) 7))).run opened =
        .ok (-1, t) ∧ ¬ Reported 0 0 (List.replicate (MAXFILE * BSIZE + 1) 7) opened (-1) t ∧
      Stored 0 0 ((List.replicate (MAXFILE * BSIZE + 1) 7).take (46 * filewriteMax)) opened t := by
  obtain ⟨r, t, hrun, hiff, hcross⟩ := @filewrite_reported_iff smallSuper 0 0 0 opened (fun _ _ => 0)
    (List.replicate (MAXFILE * BSIZE + 1) 7) opened_regular (opened_enough _)
  have hoff : (opened.tab.file 0).off = 0 := rfl
  have hmax : filewriteMax = 1536 := by decide
  rw [hoff, List.length_replicate, Nat.zero_add] at hcross hiff
  obtain ⟨rfl, k, ⟨hmod, hle, hlt⟩, hstored⟩ := hcross (Nat.lt_succ_self _)
  obtain rfl : k = 46 * filewriteMax := by
    rw [hmax] at hmod hlt ⊢
    unfold MAXFILE NDIRECT NINDIRECT BSIZE at *
    omega
  refine ⟨opened_regular, t, hrun, fun h => ?_, hstored⟩
  rcases hiff.mp h with hle | hlt
  · exact absurd hle (Nat.not_le.mpr (Nat.lt_succ_self _))
  · exact absurd hlt (by decide)

end Example

end Chameleon.Fs
