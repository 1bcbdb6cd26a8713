import Mathlib.Algebra.BigOperators.Group.Finset.Basic
import Chameleon.Lib.Count
import Chameleon.Fs.Filewrite

/-! The inode cache: references to inodes by `iget`, `idup` and `iput` of a process that runs alone. -/

namespace Chameleon.Fs
open Conc Hoare

section References

variable {s t : State} {e : Entry} {j : Nat}

/-- The number of references to inode `j`. -/
@[irreducible] def held (s : State) (j : Nat) : Nat :=
  ∑ e : Entry, if (s.tab.icache e).inum = j then (s.tab.icache e).ref else 0

/-- The number of slots in use. -/
def busy (s : State) : Nat := (Finset.univ.filter fun e : Entry => 0 < (s.tab.icache e).ref).card

/-- An inode is in one slot only, and a valid one is as on disk. -/
structure Cached (s : State) : Prop where
  unique : ∀ e e', 0 < (s.tab.icache e).ref → 0 < (s.tab.icache e').ref →
    (s.tab.icache e).inum = (s.tab.icache e').inum → e = e'
  fresh : ∀ e, 0 < (s.tab.icache e).ref → (s.ino e).valid = true → Fresh s e

theorem Cached.held_eq (h : Cached s) (hpos : 0 < (s.tab.icache e).ref) :
    held s (s.tab.icache e).inum = (s.tab.icache e).ref := by
  unfold held
  rw [Finset.sum_eq_single e, if_pos rfl]
  · intro e' _ hne
    by_cases heq : (s.tab.icache e').inum = (s.tab.icache e).inum
    · rw [if_pos heq]
      by_contra hz
      exact hne (h.unique e' e (Nat.pos_of_ne_zero hz) hpos heq)
    · rw [if_neg heq]
  · intro hnot
    exact absurd (Finset.mem_univ e) hnot

theorem held_pos_iff : 0 < held s j ↔ ∃ e, 0 < (s.tab.icache e).ref ∧ (s.tab.icache e).inum = j := by
  unfold held
  constructor
  · intro hpos
    obtain ⟨e, _, hne⟩ := Finset.exists_ne_zero_of_sum_ne_zero (Nat.ne_of_gt hpos)
    by_cases heq : (s.tab.icache e).inum = j
    · rw [if_pos heq] at hne
      exact ⟨e, Nat.pos_of_ne_zero hne, heq⟩
    · rw [if_neg heq] at hne
      exact absurd rfl hne
  · rintro ⟨e, hpos, heq⟩
    apply Count.sum_pos (i := e)
    rw [if_pos heq]
    exact hpos

/-- The inodes in the cache. -/
def cachedInums (s : State) : Finset Nat :=
  (Finset.univ.filter fun e : Entry => 0 < (s.tab.icache e).ref).image fun e => (s.tab.icache e).inum

theorem mem_cachedInums : j ∈ cachedInums s ↔ 0 < held s j := by
  rw [held_pos_iff, cachedInums]
  simp

theorem Cached.busy_eq (h : Cached s) : busy s = (cachedInums s).card := by
  unfold busy cachedInums
  symm
  apply Finset.card_image_of_injOn
  intro e he e' he' heq
  rw [Finset.mem_coe, Finset.mem_filter] at he he'
  exact h.unique e e' he.2 he'.2 heq

/-- One more reference takes one more slot at most. -/
theorem Cached.busy_le (h : Cached s) (ht : Cached t) (hheld : ∀ k, held t k ≤ held s k + if k = j then 1 else 0) :
    busy t ≤ busy s + 1 := by
  rw [h.busy_eq, ht.busy_eq]
  apply Nat.le_trans (Finset.card_le_card _) (Finset.card_insert_le j _)
  intro k hk
  rw [Finset.mem_insert]
  by_cases heq : k = j
  · exact Or.inl heq
  · have hle := hheld k
    rw [if_neg heq, Nat.add_zero] at hle
    exact Or.inr (mem_cachedInums.mpr (Nat.lt_of_lt_of_le (mem_cachedInums.mp hk) hle))

/-- Everything outside of the inode cache is as before. -/
structure Elsewhere (s t : State) : Prop where
  disk : t.disk = s.disk
  file : t.tab.file = s.tab.file
  proc : t.tab.proc = s.tab.proc
  input : t.input = s.input

theorem Elsewhere.trans {u : State} (h : Elsewhere s t) (h' : Elsewhere t u) : Elsewhere s u where
  disk := h'.disk.trans h.disk
  file := h'.file.trans h.file
  proc := h'.proc.trans h.proc
  input := h'.input.trans h.input

theorem held_congr (h : t.tab.icache = s.tab.icache) (k : Nat) : held t k = held s k := by
  unfold held
  rw [h]

theorem held_setIcache (s : State) (e : Entry) (x : Icache) (k : Nat) :
    held (s.setIcache e x) k + (if (s.tab.icache e).inum = k then (s.tab.icache e).ref else 0) =
      held s k + if x.inum = k then x.ref else 0 := by
  unfold held
  exact Count.sum_update s.tab.icache e x fun y : Icache => if y.inum = k then y.ref else 0

end References

section Iget

variable {sb : Super} {p : Pid} {s t : State} {e : Entry} {j : Nat}

/-- After `iget` of inode `j`, or `idup` of it. -/
structure Got (s : State) (j : Nat) (e : Entry) (t : State) : Prop where
  elsewhere : Elsewhere s t
  cached : Cached t
  inum : (t.tab.icache e).inum = j
  pos : 0 < (t.tab.icache e).ref
  counts : ∀ k, held t k = held s k + if k = j then 1 else 0
  live : ∀ e', 0 < (s.tab.icache e').ref → (t.tab.icache e').inum = (s.tab.icache e').inum ∧ 0 < (t.tab.icache e').ref
  holder : ∀ e', (t.ino e').holder = (s.ino e').holder

theorem setIcache_self (s : State) (e : Entry) (x : Icache) : (s.setIcache e x).tab.icache e = x := Function.update_self ..

theorem setIcache_of_ne (s : State) {e e' : Entry} (h : e' ≠ e) (x : Icache) :
    (s.setIcache e x).tab.icache e' = s.tab.icache e' := Function.update_of_ne h ..

/-- One more reference to an inode in the cache. -/
theorem Cached.dup (h : Cached s) (hpos : 0 < (s.tab.icache e).ref) :
    Got s (s.tab.icache e).inum e (s.setIcache e ⟨(s.tab.icache e).inum, (s.tab.icache e).ref + 1⟩) := by
  have hinum : ∀ e', ((s.setIcache e ⟨(s.tab.icache e).inum, (s.tab.icache e).ref + 1⟩).tab.icache e').inum =
      (s.tab.icache e').inum := by
    intro e'
    by_cases he : e' = e
    · rw [he, setIcache_self]
    · rw [setIcache_of_ne s he]
  have href : ∀ e', 0 < ((s.setIcache e ⟨(s.tab.icache e).inum, (s.tab.icache e).ref + 1⟩).tab.icache e').ref ↔
      0 < (s.tab.icache e').ref := by
    intro e'
    by_cases he : e' = e
    · rw [he, setIcache_self]
      exact iff_of_true (Nat.succ_pos _) hpos
    · rw [setIcache_of_ne s he]
  refine ⟨⟨rfl, rfl, rfl, rfl⟩, ⟨?_, ?_⟩, hinum e, (href e).mpr hpos, ?_, ?_, fun _ => rfl⟩
  · intro e₁ e₂ h₁ h₂ heq
    rw [hinum, hinum] at heq
    exact h.unique e₁ e₂ ((href e₁).mp h₁) ((href e₂).mp h₂) heq
  · intro e' he hvalid
    rw [Fresh, hinum]
    exact h.fresh e' ((href e').mp he) hvalid
  · intro k
    have hsum := held_setIcache s e ⟨(s.tab.icache e).inum, (s.tab.icache e).ref + 1⟩ k
    simp only at hsum
    by_cases hk : k = (s.tab.icache e).inum
    · rw [if_pos hk]
      rw [if_pos hk.symm, if_pos hk.symm] at hsum
      omega
    · rw [if_neg hk]
      rw [if_neg (Ne.symm hk), if_neg (Ne.symm hk)] at hsum
      exact hsum
  · intro e' he
    exact ⟨hinum e', (href e').mpr he⟩

/-- An inode gets a slot. -/
def recycled (s : State) (e : Entry) (j : Nat) : State :=
  (s.setIcache e ⟨j, 1⟩).setIno e { s.ino e with valid := false }

theorem recycled_icache_self (s : State) (e : Entry) (j : Nat) : (recycled s e j).tab.icache e = ⟨j, 1⟩ :=
  setIcache_self s e ⟨j, 1⟩

theorem recycled_icache_of_ne (s : State) {e e' : Entry} (h : e' ≠ e) (j : Nat) :
    (recycled s e j).tab.icache e' = s.tab.icache e' := setIcache_of_ne s h ⟨j, 1⟩

theorem recycled_ino_self (s : State) (e : Entry) (j : Nat) : (recycled s e j).ino e = { s.ino e with valid := false } :=
  setIno_ino _ e _

theorem recycled_ino_of_ne (s : State) {e e' : Entry} (h : e' ≠ e) (j : Nat) : (recycled s e j).ino e' = s.ino e' :=
  Function.update_of_ne h ..

theorem held_recycled (s : State) {e : Entry} (hfree : (s.tab.icache e).ref = 0) (j k : Nat) :
    held (recycled s e j) k = held s k + if k = j then 1 else 0 := by
  have hsum := held_setIcache s e ⟨j, 1⟩ k
  have hheld : held (recycled s e j) k = held (s.setIcache e ⟨j, 1⟩) k :=
    held_congr (s := s.setIcache e ⟨j, 1⟩) (t := recycled s e j) rfl k
  rw [hfree, ite_self, Nat.add_zero] at hsum
  rw [hheld, hsum]
  by_cases hk : k = j
  · rw [if_pos hk, if_pos hk.symm]
  · rw [if_neg hk, if_neg (Ne.symm hk)]

theorem Cached.recycle (h : Cached s) (hnone : held s j = 0) (hfree : (s.tab.icache e).ref = 0) :
    Got s j e (recycled s e j) := by
  have hother : ∀ e', 0 < (s.tab.icache e').ref → e' ≠ e := by
    rintro e' he rfl
    omega
  have hne : ∀ e', 0 < (s.tab.icache e').ref → (s.tab.icache e').inum ≠ j := by
    intro e' he heq
    have hpos := held_pos_iff.mpr ⟨e', he, heq⟩
    omega
  refine ⟨⟨rfl, rfl, rfl, rfl⟩, ⟨?_, ?_⟩, ?_, ?_, held_recycled s hfree j, ?_, ?_⟩
  · intro e₁ e₂ h₁ h₂ heq
    by_cases he₁ : e₁ = e
    · by_cases he₂ : e₂ = e
      · rw [he₁, he₂]
      · rw [he₁, recycled_icache_self, recycled_icache_of_ne s he₂] at heq
        rw [recycled_icache_of_ne s he₂] at h₂
        exact absurd heq.symm (hne e₂ h₂)
    · rw [recycled_icache_of_ne s he₁] at h₁ heq
      by_cases he₂ : e₂ = e
      · rw [he₂, recycled_icache_self] at heq
        exact absurd heq (hne e₁ h₁)
      · rw [recycled_icache_of_ne s he₂] at h₂ heq
        exact h.unique e₁ e₂ h₁ h₂ heq
  · intro e' he hvalid
    by_cases he' : e' = e
    · rw [he', recycled_ino_self] at hvalid
      exact absurd hvalid Bool.false_ne_true
    · rw [recycled_icache_of_ne s he'] at he
      rw [recycled_ino_of_ne s he'] at hvalid
      rw [Fresh, recycled_ino_of_ne s he', recycled_icache_of_ne s he']
      exact h.fresh e' he hvalid
  · rw [recycled_icache_self]
  · rw [recycled_icache_self]
    exact Nat.one_pos
  · intro e' he
    have hne' := hother e' he
    rw [recycled_icache_of_ne s hne']
    exact ⟨rfl, he⟩
  · intro e'
    by_cases he' : e' = e
    · rw [he', recycled_ino_self]
    · rw [recycled_ino_of_ne s he']

theorem cached_some (h : s.tab.cached j = some e) : 0 < (s.tab.icache e).ref ∧ (s.tab.icache e).inum = j := by
  have hfound := List.find?_some h
  exact of_decide_eq_true hfound

theorem cached_none (h : s.tab.cached j = none) : held s j = 0 := by
  by_contra hne
  obtain ⟨e, hpos, heq⟩ := held_pos_iff.mp (Nat.pos_of_ne_zero hne)
  have hnot := List.find?_eq_none.mp h e (List.mem_finRange e)
  exact hnot (decide_eq_true ⟨hpos, heq⟩)

theorem empty_none (h : s.tab.empty = none) : busy s = NINODE := by
  have hall : (Finset.univ.filter fun e : Entry => 0 < (s.tab.icache e).ref) = Finset.univ := by
    apply Finset.filter_true_of_mem
    intro e _
    have hnot := List.find?_eq_none.mp h e (List.mem_finRange e)
    by_contra hz
    exact hnot (decide_eq_true (Nat.eq_zero_of_not_pos hz))
  rw [busy, hall, Finset.card_univ, Fintype.card_fin]

theorem run_iget (h : Cached s) (hroom : 0 < held s j ∨ busy s < NINODE) :
    ∃ e t, (solo (sem sb) p (iget j)).run s = .ok (e, t) ∧ Got s j e t := by
  cases hcached : s.tab.cached j with
  | some e =>
    obtain ⟨hpos, rfl⟩ := cached_some hcached
    refine ⟨e, _, ?_, h.dup hpos⟩
    have hrun : (once (sem sb) p (.iget (s.tab.icache e).inum)).run s =
        .ok (some e, s.setIcache e ⟨(s.tab.icache e).inum, (s.tab.icache e).ref + 1⟩) := by
      apply run_once
      simp only [sem, hcached]
      rfl
    rw [iget, solo_bind, solo_lift, run_bind_of_ok hrun]
    rfl
  | none =>
    have hnone := cached_none hcached
    cases hempty : s.tab.empty with
    | none =>
      have hfull := empty_none hempty
      omega
    | some e =>
      have hfound := List.find?_some hempty
      have hfree : (s.tab.icache e).ref = 0 := of_decide_eq_true hfound
      refine ⟨e, _, ?_, h.recycle hnone hfree⟩
      have hrun : (once (sem sb) p (.iget j)).run s = .ok (some e, recycled s e j) := by
        apply run_once
        simp only [sem, hcached, hempty]
        rfl
      rw [iget, solo_bind, solo_lift, run_bind_of_ok hrun]
      rfl

end Iget

section Iput

variable {sb : Super} {p : Pid} {s t : State} {e : Entry}

/-- One reference less. -/
def dropped (s : State) (e : Entry) : State :=
  s.setIcache e ⟨(s.tab.icache e).inum, (s.tab.icache e).ref - 1⟩

theorem release_taken (hidle : (s.ino e).holder = none) :
    (taken s p e).setIno e { (taken s p e).ino e with holder := none } = s := by
  have hx : ({ (taken s p e).ino e with holder := none } : Inode) = s.ino e := by
    rw [taken_ino, ← hidle]
  rw [hx, taken, setIno_setIno, State.setIno, Function.update_eq_self]

theorem run_iputLocked (hkeep : (s.ino e).valid = true → (s.ino e).d.nlink = 0 → (s.tab.icache e).ref ≠ 1) :
    (solo (sem sb) p (iputLocked e)).run s = .ok ((), s) := by
  rw [iputLocked, solo_bind, solo_lift, run_bind_of_ok (run_once rfl)]
  by_cases hvalid : (s.ino e).valid = true
  · rw [if_pos hvalid, solo_bind, solo_lift, run_bind_of_ok (run_once rfl)]
    by_cases hlink : (s.ino e).d.nlink = 0
    · rw [if_pos hlink, solo_bind, solo_lift, run_bind_of_ok (run_once rfl), if_neg (hkeep hvalid hlink)]
      rfl
    · rw [if_neg hlink]
      rfl
  · rw [if_neg hvalid]
    rfl

/-- `iput` of an inode that keeps a link or another reference. -/
theorem run_iput (hidle : (s.ino e).holder = none)
    (hkeep : (s.ino e).valid = true → (s.ino e).d.nlink = 0 → (s.tab.icache e).ref ≠ 1) :
    (solo (sem sb) p (iput e)).run s = .ok ((), dropped s e) := by
  have hlocked : (solo (sem sb) p (iputLocked e)).run (taken s p e) = .ok ((), taken s p e) := by
    apply run_iputLocked
    rw [taken_ino]
    exact hkeep
  have hrelease : (once (sem sb) p (.releasesleep e)).run (taken s p e) = .ok ((), s) := by
    apply run_once
    have hsem : sem sb p (.releasesleep e) (taken s p e) =
        answer () ((taken s p e).setIno e { (taken s p e).ino e with holder := none }) := rfl
    rw [hsem, release_taken hidle]
    rfl
  rw [iput, solo_bind, solo_lift, run_bind_of_ok (run_acquiresleep hidle), solo_bind, run_bind_of_ok hlocked, solo_bind,
    solo_lift, run_bind_of_ok hrelease, solo_lift]
  rfl

theorem dropped_inum (s : State) (e e' : Entry) : ((dropped s e).tab.icache e').inum = (s.tab.icache e').inum := by
  by_cases he : e' = e
  · rw [he, dropped, setIcache_self]
  · rw [dropped, setIcache_of_ne s he]

theorem dropped_ref_le (s : State) (e e' : Entry) : ((dropped s e).tab.icache e').ref ≤ (s.tab.icache e').ref := by
  by_cases he : e' = e
  · rw [he, dropped, setIcache_self]
    exact Nat.sub_le ..
  · rw [dropped, setIcache_of_ne s he]

theorem Cached.dropped (h : Cached s) (e : Entry) : Cached (dropped s e) where
  unique e₁ e₂ h₁ h₂ heq := by
    rw [dropped_inum, dropped_inum] at heq
    exact h.unique e₁ e₂ (Nat.lt_of_lt_of_le h₁ (dropped_ref_le ..)) (Nat.lt_of_lt_of_le h₂ (dropped_ref_le ..)) heq
  fresh e' he hvalid := by
    rw [Fresh, dropped_inum]
    exact h.fresh e' (Nat.lt_of_lt_of_le he (dropped_ref_le ..)) hvalid

theorem held_dropped (hpos : 0 < (s.tab.icache e).ref) (k : Nat) :
    held (dropped s e) k + (if k = (s.tab.icache e).inum then 1 else 0) = held s k := by
  have hsum : held (dropped s e) k + (if (s.tab.icache e).inum = k then (s.tab.icache e).ref else 0) =
      held s k + if (s.tab.icache e).inum = k then (s.tab.icache e).ref - 1 else 0 :=
    held_setIcache s e ⟨(s.tab.icache e).inum, (s.tab.icache e).ref - 1⟩ k
  by_cases hk : k = (s.tab.icache e).inum
  · rw [if_pos hk.symm, if_pos hk.symm] at hsum
    rw [if_pos hk]
    omega
  · rw [if_neg (Ne.symm hk), if_neg (Ne.symm hk)] at hsum
    rw [if_neg hk]
    exact hsum

end Iput

end Chameleon.Fs
