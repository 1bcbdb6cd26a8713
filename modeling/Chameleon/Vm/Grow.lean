import Chameleon.Vm.Contents
import Chameleon.Vm.Isolation

/-! What `growproc` returns. A size of zero is also the error value of `allocuvm` and
`deallocuvm`, and `sz + n` is computed modulo `2 ^ 32`. -/

namespace Chameleon.Vm
open Region Hoare
open Ptable (Slot)

/-- The pages of a process of size `sz` after it got size `sz'`. -/
structure Resized (d sz sz' : Nat) (k k' : Kmem) : Prop where
  mapped : ∀ va < KERNBASE, mapped k'.mem.entry d va = decide (va < PGROUNDUP sz')
  kept : ∀ va < PGROUNDUP sz, va < PGROUNDUP sz' →
    pteAt k'.mem.entry d va = pteAt k.mem.entry d va ∧ (viewOf k'.mem d).byte va = (viewOf k.mem d).byte va
  zero : ∀ va, PGROUNDUP sz ≤ va → va < PGROUNDUP sz' → (viewOf k'.mem d).byte va = 0

/-- Every user mapping is as it was. -/
structure SameUser (d : Nat) (k k' : Kmem) : Prop where
  mapped : ∀ va < KERNBASE, mapped k'.mem.entry d va = mapped k.mem.entry d va
  kept : ∀ va < KERNBASE, Chameleon.Vm.mapped k.mem.entry d va = true →
    pteAt k'.mem.entry d va = pteAt k.mem.entry d va ∧ (viewOf k'.mem d).byte va = (viewOf k.mem d).byte va

/-- What is asked of `growproc(n)` by process `p` with page directory `d`: it returns 0 with the
size changed by `n`, as an integer, or -1 with nothing changed. -/
def GrowContract (L : Layout) (t : Table) (p : Slot) (d : Nat) (n : Int) (k : Kmem) : Prop :=
  ∃ r t' k', (growproc L n t p).run k = .ok ((r, t'), k') ∧
    (r = 0 ∧ ((t'.proc p).sz : Int) = (t.proc p).sz + n ∧ (t'.proc p).sz < KERNBASE ∧
        Resized d (t.proc p).sz (t'.proc p).sz k k' ∨
      r = -1 ∧ (t'.proc p).sz = (t.proc p).sz ∧ SameUser d k k')

section
variable {L : Layout} {T : Multiset Nat} {R : Region Nat Page} {d sz sz' : Nat} {k k' : Kmem} {S : View}

theorem SameUser.refl (d : Nat) (k : Kmem) : SameUser d k k := ⟨fun _ _ => rfl, fun _ _ _ => ⟨rfl, rfl⟩⟩

variable (hmapped : ∀ va < KERNBASE, mapped k.mem.entry d va = decide (va < PGROUNDUP sz)) (hsz : sz < KERNBASE)

include hmapped

theorem resized_refl : Resized d sz sz k k :=
  ⟨hmapped, fun _ _ _ => ⟨rfl, rfl⟩, fun _ h1 h2 => absurd h2 (Nat.not_lt.mpr h1)⟩

include hsz

theorem present_viewOf {va : Nat} (hva : va < PGROUNDUP sz) : present ((viewOf k.mem d).pte va) = true := by
  have h := hmapped va (lt_of_lt_of_le hva (PGROUNDUP_le hsz.le).1)
  rw [mapped_eq] at h
  exact h.trans (decide_eq_true hva)

section Off
variable {lo hi va : Nat} (hk' : Owns T (view d S + R) k')
  (hoff : ∀ va < WORD, ¬ (lo ≤ va ∧ va < hi) → S.pte va = (viewOf k.mem d).pte va ∧ S.byte va = (viewOf k.mem d).byte va)
include hk' hoff

omit hsz in
/-- Outside a range that has changed. -/
theorem mapped_of_off (hva : va < KERNBASE) (hout : ¬ (lo ≤ va ∧ va < hi)) :
    mapped k'.mem.entry d va = decide (va < PGROUNDUP sz) := by
  rw [hk'.mapped_eq, (hoff va (lt_trans hva (by decide)) hout).1]
  exact (mapped_eq k.mem.entry d va).symm.trans (hmapped va hva)

theorem kept_of_off (hlt : va < PGROUNDUP sz) (hout : ¬ (lo ≤ va ∧ va < hi)) :
    pteAt k'.mem.entry d va = pteAt k.mem.entry d va ∧ (viewOf k'.mem d).byte va = (viewOf k.mem d).byte va := by
  have hva : va < KERNBASE := lt_of_lt_of_le hlt (PGROUNDUP_le hsz.le).1
  have hsame := hoff va (lt_trans hva (by decide)) hout
  have hpres := present_viewOf hmapped hsz hlt
  exact ⟨(hk'.pte va).trans hsame.1, (hk'.byte hva (hsame.1 ▸ hpres)).trans hsame.2⟩

end Off

theorem resized_of_grown (hle : sz ≤ sz') (hnew : sz' < KERNBASE) (hk' : Owns T (view d S + R) k')
    (hgrown : Grown (PGROUNDUP sz) (PGROUNDUP sz') (viewOf k.mem d) S) : Resized d sz sz' k k' := by
  have hmono := PGROUNDUP_mono hle hnew.le
  refine ⟨fun va hva => ?_, fun va h1 _ => ?_, fun va h1 h2 => ?_⟩
  · by_cases hin : PGROUNDUP sz ≤ va ∧ va < PGROUNDUP sz'
    · rw [hk'.mapped_eq, (hgrown.new va hin.1 hin.2).1, decide_eq_true hin.2]
    · rw [mapped_of_off hmapped hk' hgrown.off hva hin, decide_eq_decide]
      omega
  · exact kept_of_off hmapped hsz hk' hgrown.off h1 fun hin => absurd h1 (Nat.not_lt.mpr hin.1)
  · obtain ⟨hpres, -, hzero⟩ := hgrown.new va h1 h2
    exact (hk'.byte (lt_of_lt_of_le h2 (PGROUNDUP_le hnew.le).1) hpres).trans hzero

theorem resized_of_dropped (hlt : sz' < sz) (hk' : Owns T (view d S + R) k')
    (hdrop : Dropped (PGROUNDUP sz') (PGROUNDUP sz) (PGROUNDUP sz) (viewOf k.mem d) S) : Resized d sz sz' k k' := by
  have hmono := PGROUNDUP_mono hlt.le hsz.le
  refine ⟨fun va hva => ?_, fun va h1 h2 => ?_, fun va h1 h2 => absurd (lt_of_lt_of_le h2 hmono) (Nat.not_lt.mpr h1)⟩
  · by_cases hin : PGROUNDUP sz' ≤ va ∧ va < PGROUNDUP sz
    · rw [hk'.mapped_eq, Bool.eq_false_iff.mpr (hdrop.gone va hin.1 hin.2), decide_eq_false (Nat.not_lt.mpr hin.1)]
    · rw [mapped_of_off hmapped hk' hdrop.off hva hin, decide_eq_decide]
      omega
  · exact kept_of_off hmapped hsz hk' hdrop.off h1 fun hin => absurd h2 (Nat.not_lt.mpr hin.1)

/-- Pages that were added and dropped again leave no trace. -/
theorem sameUser_of_dropped (hk' : Owns T (view d S + R) k')
    (hdrop : Dropped (PGROUNDUP sz) (PGROUNDUP sz') (PGROUNDUP sz') (viewOf k.mem d) S) : SameUser d k k' := by
  refine ⟨fun va hva => ?_, fun va hva hm => ?_⟩
  · rw [hmapped va hva]
    by_cases hin : PGROUNDUP sz ≤ va ∧ va < PGROUNDUP sz'
    · rw [hk'.mapped_eq, Bool.eq_false_iff.mpr (hdrop.gone va hin.1 hin.2), decide_eq_false (Nat.not_lt.mpr hin.1)]
    · exact mapped_of_off hmapped hk' hdrop.off hva hin
  · have hlt : va < PGROUNDUP sz := by
      rw [hmapped va hva] at hm
      exact of_decide_eq_true hm
    exact kept_of_off hmapped hsz hk' hdrop.off hlt fun hin => absurd hlt (Nat.not_lt.mpr hin.1)

end

/-! ### The calls -/

section
variable {L : Layout} {T : Multiset Nat} {R : Region Nat (Nat → Nat)} {t : Table} {p : Slot} {d : Nat} {k : Kmem}
variable {n : Int}

theorem toNat_add_of_nonneg {sz : Nat} {n : Int} (h : 0 ≤ sz + n) (hlt : sz + n < WORD) :
    (((sz + n) % WORD).toNat : Int) = sz + n := by
  rw [Int.emod_eq_of_lt h hlt, Int.toNat_of_nonneg h]

/-- A sum below zero wraps to an address above every size. -/
theorem le_toNat_of_neg {sz : Nat} {n : Int} (hn : -2 ^ 31 ≤ n) (h : sz + n < 0) (hsz : sz < KERNBASE) :
    sz ≤ ((sz + n) % WORD).toNat := by
  have hmod : (sz + n) % WORD = sz + n + WORD := by
    rw [← Int.add_emod_right]
    exact Int.emod_eq_of_lt (by unfold WORD; omega) (by omega)
  rw [hmod]
  unfold WORD KERNBASE at *
  omega

theorem setProc_sz (t : Table) (p : Slot) (sz : Nat) :
    ((t.setProc p fun q => { q with sz := sz }).proc p).sz = sz := by
  rw [setProc_self]

theorem resize_zero (t : Table) (p : Slot) : resize t p 0 = pure (-1, t) := if_pos rfl

theorem resize_pos {sz : Nat} (h : 0 < sz) :
    resize t p sz = pure (0, t.setProc p fun q => { q with sz := sz }) := if_neg h.ne'

/-- A call that returns 0. -/
theorem growContract_success {sz' : Nat} {k' : Kmem}
    (hrun : (growproc L n t p).run k = .ok ((0, t.setProc p fun q => { q with sz := sz' }), k'))
    (hsum : (sz' : Int) = (t.proc p).sz + n) (hlt : sz' < KERNBASE) (hres : Resized d (t.proc p).sz sz' k k') :
    GrowContract L t p d n k := by
  refine ⟨0, _, k', hrun, .inl ⟨rfl, ?_⟩⟩
  rw [setProc_sz]
  exact ⟨hsum, hlt, hres⟩

section Run
variable (hd : (t.proc p).pgdir = some d)
include hd

theorem growproc_pos (hn : 0 < n) (r : Nat) (k' : Kmem)
    (h : (allocuvm L d (t.proc p).sz (((t.proc p).sz + n) % WORD).toNat).run k = .ok (r, k')) :
    (growproc L n t p).run k = (resize t p r).run k' := by
  rw [growproc, pgdirOf, hd, pure_bind, if_pos hn, StateT.run_bind, h]
  rfl

theorem growproc_neg (hn : n < 0) (r : Nat) (k' : Kmem)
    (h : (deallocuvm L d (t.proc p).sz (((t.proc p).sz + n) % WORD).toNat).run k = .ok (r, k')) :
    (growproc L n t p).run k = (resize t p r).run k' := by
  rw [growproc, pgdirOf, hd, pure_bind, if_neg (not_lt.mpr hn.le), if_pos hn, StateT.run_bind, h]
  rfl

end Run

variable (hT : T.Nodup) (hF : ∀ f ∈ T, IsFrame L f) (hk : Acct T (space d + R) k)
variable (hd : (t.proc p).pgdir = some d) (hsz : (t.proc p).sz < KERNBASE)
variable (hmapped : ∀ va < KERNBASE, mapped k.mem.entry d va = decide (va < PGROUNDUP (t.proc p).sz))
include hT hF hk hd hsz hmapped

theorem growContract_pos (hn : 0 < n) (hlt : n < 2 ^ 31) : GrowContract L t p d n k := by
  have hsum : ((((t.proc p).sz + n) % WORD).toNat : Int) = (t.proc p).sz + n :=
    toNat_add_of_nonneg (by omega) (by unfold KERNBASE WORD at *; omega)
  have hrun := growproc_pos (L := L) (k := k) hd hn
  generalize hnewsz : (((t.proc p).sz + n) % WORD).toNat = newsz at hsum hrun
  by_cases hbig : KERNBASE ≤ newsz
  · have halloc : (allocuvm L d (t.proc p).sz newsz).run k = .ok (0, k) := by
      rw [allocuvm, if_pos hbig]
      rfl
    refine ⟨-1, t, k, ?_, .inr ⟨rfl, rfl, .refl d k⟩⟩
    rw [hrun _ _ halloc, resize_zero]
    rfl
  · have hnew : newsz < KERNBASE := Nat.not_le.mp hbig
    have habs : ∀ va, PGROUNDUP (t.proc p).sz ≤ va → va < PGROUNDUP newsz →
        ¬ present ((viewOf k.mem d).pte va) := by
      intro va h1 h2
      have hun := hmapped va (lt_of_lt_of_le h2 (PGROUNDUP_le hnew.le).1)
      rw [mapped_eq, decide_eq_false (Nat.not_lt.mpr h1)] at hun
      exact Bool.eq_false_iff.mp hun
    obtain ⟨r, k', halloc, S, hk', hcase⟩ :=
      (allocuvm_view hT hF (by omega) hnew fun va h1 h2 h => absurd h (habs va h1 h2)).ends hk.owns
    rcases hcase with ⟨rfl, hgrown⟩ | ⟨rfl, hdrop⟩
    · refine growContract_success ?_ hsum hnew (resized_of_grown hmapped hsz (by omega) hnew hk' hgrown)
      rw [hrun _ _ halloc, resize_pos (by omega)]
      rfl
    · refine ⟨-1, t, k', ?_, .inr ⟨rfl, rfl, sameUser_of_dropped hmapped hsz hk' hdrop⟩⟩
      rw [hrun _ _ halloc, resize_zero]
      rfl

omit hd hmapped in
/-- Shrinking to a size that is not below zero. -/
theorem deallocuvm_shrink (newsz : Nat) (hlt : newsz < (t.proc p).sz) : ∃ k' S,
    (deallocuvm L d (t.proc p).sz newsz).run k = .ok (newsz, k') ∧ Owns T (view d S + lift R) k' ∧
      Dropped (PGROUNDUP newsz) (PGROUNDUP (t.proc p).sz) (PGROUNDUP (t.proc p).sz) (viewOf k.mem d) S := by
  obtain ⟨r, k', hrun, rfl, S, hdrop, hk'⟩ := (deallocuvm_view hT hF hlt hsz.le).ends hk.owns
  exact ⟨k', S, hrun, hk', hdrop⟩

theorem growContract_neg (hn : n < 0) (hpos : 0 < (t.proc p).sz + n) : GrowContract L t p d n k := by
  have hsum : ((((t.proc p).sz + n) % WORD).toNat : Int) = (t.proc p).sz + n :=
    toNat_add_of_nonneg (by omega) (by unfold KERNBASE WORD at *; omega)
  have hrun := growproc_neg (L := L) (k := k) hd hn
  generalize hnewsz : (((t.proc p).sz + n) % WORD).toNat = newsz at hsum hrun
  obtain ⟨k', S, hdealloc, hk', hdrop⟩ := deallocuvm_shrink hT hF hk hsz newsz (by omega)
  refine growContract_success ?_ hsum (by omega) (resized_of_dropped hmapped hsz (by omega) hk' hdrop)
  rw [hrun _ _ hdealloc, resize_pos (by omega)]
  rfl

omit hT hF hk in
theorem growContract_zero : GrowContract L t p d 0 k := by
  refine growContract_success ?_ (add_zero _).symm hsz (resized_refl hmapped)
  rw [growproc, pgdirOf, hd, pure_bind, if_neg (by decide), if_neg (by decide)]
  rfl

omit hT hF hk hsz hmapped in
theorem growContract_empty (hn : n < 0) (hempty : (t.proc p).sz = 0) : GrowContract L t p d n k := by
  have hdealloc : (deallocuvm L d (t.proc p).sz (((t.proc p).sz + n) % WORD).toNat).run k = .ok (0, k) := by
    rw [deallocuvm, if_pos (by rw [hempty]; exact Nat.zero_le _), hempty]
    rfl
  refine ⟨-1, t, k, ?_, .inr ⟨rfl, rfl, .refl d k⟩⟩
  rw [growproc_neg hd hn _ _ hdealloc, resize_zero]
  rfl

/-- Shrinking to size zero frees every page and then reports an error. -/
theorem not_growContract_toZero (hn : n < 0) (hsum : (t.proc p).sz + n = 0) : ¬ GrowContract L t p d n k := by
  rintro ⟨r, t', k', hrun, hcase⟩
  have hzero : (((t.proc p).sz + n) % WORD).toNat = 0 := by rw [hsum]; rfl
  obtain ⟨k₁, S, hdealloc, hk₁, hdrop⟩ := deallocuvm_shrink hT hF hk hsz 0 (by omega)
  rw [growproc_neg hd hn _ _ (by rw [hzero]; exact hdealloc), resize_zero] at hrun
  obtain ⟨⟨rfl, rfl⟩, rfl⟩ : ((-1 : Int) = r ∧ t = t') ∧ k₁ = k' := by
    have := Except.ok.inj hrun
    simpa only [Prod.mk.injEq] using this
  rcases hcase with ⟨h, -⟩ | ⟨-, -, hsame⟩
  · exact absurd h (by decide)
  · have hup : 0 < PGROUNDUP (t.proc p).sz := lt_of_lt_of_le (by omega) (PGROUNDUP_le hsz.le).2
    have hm := hsame.mapped 0 (by decide)
    rw [hk₁.mapped_eq, hmapped 0 (by decide), decide_eq_true hup] at hm
    exact hdrop.gone 0 (by decide) hup hm

omit hT hF hk hmapped in
/-- A sum below zero wraps: the call changes nothing and reports success. -/
theorem not_growContract_wrap (hn : n < 0) (hlo : -2 ^ 31 ≤ n) (hsum : (t.proc p).sz + n < 0)
    (hpos : 0 < (t.proc p).sz) : ¬ GrowContract L t p d n k := by
  rintro ⟨r, t', k', hrun, hcase⟩
  have hdealloc : (deallocuvm L d (t.proc p).sz (((t.proc p).sz + n) % WORD).toNat).run k =
      .ok ((t.proc p).sz, k) := by
    rw [deallocuvm, if_pos (le_toNat_of_neg hlo hsum hsz)]
    rfl
  rw [growproc_neg hd hn _ _ hdealloc, resize_pos hpos] at hrun
  obtain ⟨⟨rfl, rfl⟩, rfl⟩ : ((0 : Int) = r ∧ (t.setProc p fun q => { q with sz := (t.proc p).sz }) = t') ∧ k = k' := by
    have := Except.ok.inj hrun
    simpa only [Prod.mk.injEq] using this
  rcases hcase with ⟨-, hsz', -⟩ | ⟨h, -⟩
  · rw [setProc_sz] at hsz'
    omega
  · exact absurd h (by decide)

end

/-- `growproc` keeps its contract in every reachable state and for every refusal of `kalloc`,
except when a process is to shrink to nothing or below. -/
theorem growproc_contract_iff (L : Layout) {s : Records × Kmem}
    (h : Machine.Reach (step L) (Booted L) Machine.Any s) {p : Slot} {d : Nat} (hp : Live s.1.table p)
    (hd : (s.1.table.proc p).pgdir = some d)
    (hmapped : ∀ va < KERNBASE, mapped s.2.mem.entry d va = decide (va < PGROUNDUP (s.1.table.proc p).sz))
    (n : Int) (hlo : -2 ^ 31 ≤ n) (hhi : n < 2 ^ 31) (deny : List Bool) :
    GrowContract L s.1.table p d n { s.2 with deny := deny } ↔
      ¬ (n < 0 ∧ 0 < (s.1.table.proc p).sz ∧ (s.1.table.proc p).sz + n ≤ 0) := by
  have hT := nodup_handed L
  have hF := isFrame_handed L
  obtain ⟨B, hk⟩ := caller_of_reach h hp hd
  have hk := hk deny
  have hsz := ((balance_of_reach h).1 p hp.used).2.2
  constructor
  · rintro hok ⟨hn, hpos, hsum⟩
    rcases hsum.lt_or_eq with hlt | heq
    · exact not_growContract_wrap hd hsz hn hlo hlt hpos hok
    · exact not_growContract_toZero hT hF hk hd hsz hmapped hn heq hok
  · intro hok
    rcases lt_trichotomy n 0 with hn | rfl | hn
    · rcases Nat.eq_zero_or_pos (s.1.table.proc p).sz with hempty | hpos
      · exact growContract_empty hd hn hempty
      · exact growContract_neg hT hF hk hd hsz hmapped hn (lt_of_not_ge fun hle => hok ⟨hn, hpos, hle⟩)
    · exact growContract_zero hd hsz hmapped
    · exact growContract_pos hT hF hk hd hsz hmapped hn hhi

theorem growproc_plenty {L : Layout} {t : Table} {p : Slot} {d newsz m : Nat} {n : Int} (hd : (t.proc p).pgdir = some d)
    (hn : 0 < n) (hsum : (((t.proc p).sz + n) % WORD).toNat = newsz) (hpos : 0 < newsz) (hnew : newsz < KERNBASE)
    (hm : pagesIn (PGROUNDUP (t.proc p).sz) newsz ≤ m) :
    Triple Ever (Plenty True (2 * m + 0)) (growproc L n t p) (Succeeds True (·.1 = 0) 0) := by
  unfold growproc
  refine (pgdirOf_spec hd).bind fun pgdir => Triple.assume ?_
  rintro rfl
  rw [if_pos hn, hsum]
  refine (allocuvm_plenty L pgdir hnew hm).bind fun sz => Triple.ite (fun hz => failed fun _ h _ => ?_) fun _ => ?_
  · have hmax := h.1 trivial
    omega
  · exact Triple.ret fun _ h => ⟨fun _ => rfl, h.2⟩

/-- The first process takes two more pages; or it asks for two when there is only one. -/
theorem growproc_contract_twoPages : ∃ s d t' k', Booted sampleLayout s ∧
    (growproc sampleLayout 8192 s.1.table 0).run { s.2 with deny := [] } = .ok ((0, t'), k') ∧
    (t'.proc 0).sz = 12288 ∧ Resized d 4096 12288 { s.2 with deny := [] } k' ∧
    GrowContract sampleLayout s.1.table 0 d 8192 { s.2 with deny := [false, true] } := by
  obtain ⟨s, d, hs, hlive, hd, hsz, hmapped, hfree⟩ := exists_first sampleLayout
  have hok : ∀ deny, GrowContract sampleLayout s.1.table 0 d 8192 { s.2 with deny := deny } := fun deny =>
    (growproc_contract_iff sampleLayout (.start hs) hlive hd (by rw [hsz]; exact hmapped) 8192 (by decide) (by decide)
      deny).mpr fun h => absurd h.1 (by decide)
  obtain ⟨r, t', k', hrun, hcase⟩ := hok []
  have hplenty := growproc_plenty (L := sampleLayout) (m := 2) hd (n := 8192) (by decide)
    (show _ = 12288 by rw [hsz]; decide) (by decide) (by decide) (by rw [hsz]; decide)
  have hr : r = 0 := (hplenty.result (s := { s.2 with deny := [] }) (fun _ => ⟨rfl, le_trans (by decide) hfree⟩) hrun).1 trivial
  subst hr
  obtain ⟨-, hsum, -, hres⟩ := hcase.resolve_right fun h => absurd h.1 (by decide)
  have hnew : (t'.proc 0).sz = 12288 := by
    rw [hsz] at hsum
    exact Int.ofNat.inj hsum
  rw [hsz, hnew] at hres
  exact ⟨s, d, t', k', hs, hrun, hnew, hres, hok [false, true]⟩

/-- The first process gives back all of its page. -/
theorem growproc_breaks_contract : ∃ s d, Booted sampleLayout s ∧ Live s.1.table 0 ∧
    (s.1.table.proc 0).pgdir = some d ∧
    (∀ va < KERNBASE, mapped s.2.mem.entry d va = decide (va < PGROUNDUP (s.1.table.proc 0).sz)) ∧
    ¬ GrowContract sampleLayout s.1.table 0 d (-4096) s.2 := by
  obtain ⟨s, d, hs, hlive, hd, hsz, hmapped, -⟩ := exists_first sampleLayout
  obtain ⟨B, hacct⟩ := caller_of_reach (.start hs) hlive hd
  rw [← hsz] at hmapped
  refine ⟨s, d, hs, hlive, hd, hmapped, ?_⟩
  exact not_growContract_toZero (nodup_handed _) (isFrame_handed _) (hacct _) hd (by rw [hsz]; decide) hmapped (by decide)
    (by rw [hsz]; decide)

end Chameleon.Vm
