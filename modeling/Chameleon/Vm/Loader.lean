import Chameleon.Vm.Contents
import Chameleon.Vm.Exec

/-! Bytes that the kernel stores into an address space: `loaduvm`, `copyout` and the string
functions write through the page tables, and what they wrote is what the address space shows. -/

namespace Chameleon.Vm
open Region Hoare

/-- The bytes `bs` stored at address `a`. -/
def View.store (S : View) (a : Nat) (bs : List UInt8) : View := { S with byte := Bytes.store S.byte a bs }

section
variable {L : Layout} {T : Multiset Nat} {R : Region Nat Page} {S S' : View} {d a : Nat} {k : Kmem} {E : String → Prop}

/-- Bytes of unmapped addresses and of the kernel half are not looked at. -/
theorem Owns.congr_view (h : Owns T (view d S + R) k) (hpte : S'.pte = S.pte)
    (hbyte : ∀ va < KERNBASE, present (S.pte va) → S'.byte va = S.byte va) : Owns T (view d S' + R) k := by
  refine ⟨h.total, ⟨h.sound.1.kernel, h.sound.1.pte.trans hpte.symm, fun va hva hp => ?_⟩, h.sound.2⟩
  rw [hpte] at hp ⊢
  rw [hbyte va hva hp]
  exact h.sound.1.byte va hva hp

theorem samePage_mod {va a : Nat} (hva : va < KERNBASE) (ha : a < KERNBASE) (h : SamePage va a) :
    PGROUNDDOWN a + va % PGSIZE = va := by
  have hdiv := (samePage_iff (lt_trans hva (by decide)) (lt_trans ha (by decide))).mp h
  unfold PGROUNDDOWN
  rw [← hdiv]
  exact Nat.div_add_mod' va PGSIZE

variable (hT : T.Nodup)
include hT

/-- A string that fits into one page is stored through its page-table entry. -/
theorem store_owns (bs : List UInt8) (h : Owns T (view d S + R) k) (ha : a < KERNBASE) (hp : present (S.pte a))
    (hfit : a % PGSIZE + bs.length ≤ PGSIZE) :
    Owns T (view d (S.store a bs) + R) (k.setMem fun m =>
      m.setBytes (Bytes.store m.byte (PTE_ADDR (S.pte a) + a % PGSIZE) bs)) := by
  generalize hf : PTE_ADDR (S.pte a) = f
  have hal : f % PGSIZE = 0 := hf ▸ PTE_ADDR_mod _
  have hfill : Owns T (view d (S.fill a (Bytes.store (fun o => S.byte (PGROUNDDOWN a + o)) (a % PGSIZE) bs)) + R)
      (k.setMem fun m => m.setBytes (Bytes.store m.byte (f + a % PGSIZE) bs)) := by
    refine view_fill hT h ha hp rfl (fun q hq => ?_) fun o ho => ?_
    · rw [hf] at hq
      refine congrArg Prod.snd (pages_congr rfl fun o ho hqal => if_neg fun hin => ?_)
      exact outside_page hal hqal hq ho ⟨le_trans (Nat.le_add_right _ _) hin.1, by omega⟩
    · have hlt : PGROUNDDOWN a + o < KERNBASE := by unfold PGROUNDDOWN KERNBASE PGSIZE at *; omega
      have hsame : SamePage (PGROUNDDOWN a + o) a := by
        rw [samePage_iff (lt_trans hlt (by decide)) (lt_trans ha (by decide))]
        unfold PGROUNDDOWN PGSIZE at *
        omega
      have hpte : S.pte (PGROUNDDOWN a + o) = S.pte a := by
        rw [← h.sound.1.pte]
        exact pteAt_of_samePage hsame
      have hmod : (PGROUNDDOWN a + o) % PGSIZE = o := by unfold PGROUNDDOWN PGSIZE at *; omega
      have hold := h.sound.1.byte _ hlt (hpte ▸ hp)
      rw [hpte, hf, hmod, pages_byte k.mem hal ho] at hold
      rw [hf, pages_byte _ hal ho]
      show (if f + a % PGSIZE ≤ f + o ∧ f + o < f + a % PGSIZE + bs.length then
          bs.getD (f + o - (f + a % PGSIZE)) 0 else k.mem.byte (f + o)) =
        if a % PGSIZE ≤ o ∧ o < a % PGSIZE + bs.length then bs.getD (o - a % PGSIZE) 0 else S.byte (PGROUNDDOWN a + o)
      rw [hold, Nat.add_sub_add_left]
      by_cases hin : a % PGSIZE ≤ o ∧ o < a % PGSIZE + bs.length
      · rw [if_pos hin, if_pos (by omega)]
      · rw [if_neg hin, if_neg (by omega)]
  refine hfill.congr_view rfl fun va hva hpva => ?_
  have hdown : PGROUNDDOWN a + a % PGSIZE = a := PGROUNDDOWN_add_mod a
  show (if a ≤ va ∧ va < a + bs.length then bs.getD (va - a) 0 else S.byte va) =
    if SamePage va a then (if a % PGSIZE ≤ va % PGSIZE ∧ va % PGSIZE < a % PGSIZE + bs.length then
      bs.getD (va % PGSIZE - a % PGSIZE) 0 else S.byte (PGROUNDDOWN a + va % PGSIZE)) else S.byte va
  by_cases hsame : SamePage va a
  · have hva' := samePage_mod hva ha hsame
    have hsub : va % PGSIZE - a % PGSIZE = va - a := by omega
    rw [if_pos hsame, hva', hsub]
    by_cases hin : a ≤ va ∧ va < a + bs.length
    · rw [if_pos hin, if_pos (by omega)]
    · rw [if_neg hin, if_neg (by omega)]
  · rw [if_neg hsame, if_neg fun hin => hsame ?_]
    rw [samePage_iff (lt_trans hva (by decide)) (lt_trans ha (by decide))]
    unfold PGSIZE at *
    omega

/-! ### `loaduvm` -/

omit hT in
/-- A full read delivers the bytes of the file, and does not wrap. -/
theorem readi_full {content : List UInt8} {off n : Nat} (hoff : off < WORD) (hn : n < WORD)
    (h : (readi content off n).length = n) (hpos : 0 < n) :
    readi content off n = (content.drop off).take n ∧ off + n ≤ content.length ∧ off + n < WORD := by
  unfold readi at h ⊢
  by_cases hbad : off > content.length ∨ (off + n) % WORD < off
  · rw [if_pos hbad, List.length_nil] at h
    omega
  · rw [if_neg hbad] at h ⊢
    rw [List.length_take, List.length_drop] at h
    refine ⟨rfl, by omega, ?_⟩
    unfold WORD at *
    omega

/-- The loop of `loaduvm` at page offset `i`, when everything before has been read. -/
theorem loadLoop_view {content : List UInt8} {addr offset sz : Nat} (hal : addr % PGSIZE = 0) (hoff : offset < WORD)
    (hend : addr + sz ≤ KERNBASE) (hpres : ∀ va, addr ≤ va → va < addr + sz → present (S.pte va)) (n : Nat) {i : Nat}
    (hi : i % PGSIZE = 0) (hn : ∀ j < n, i + j * PGSIZE < sz) (hsz : sz ≤ i + n * PGSIZE)
    (hread : 0 < min i sz → offset + min i sz ≤ content.length ∧ offset + min i sz < WORD) :
    Triple E (Owns T (view d (S.store addr ((content.drop offset).take (min i sz))) + R))
      (loadLoop (readi content) d addr offset sz n i)
      fun r k => ∃ S', Owns T (view d S' + R) k ∧ S'.pte = S.pte ∧
        (0 ≤ r → S' = S.store addr ((content.drop offset).take sz) ∧ (0 < sz → offset + sz ≤ content.length)) := by
  induction n generalizing i with
  | zero =>
    have hmin : min i sz = sz := Nat.min_eq_right (by omega)
    rw [hmin] at hread ⊢
    exact Triple.ret fun k hk => ⟨_, hk, rfl, fun _ => ⟨rfl, fun h => (hread h).1⟩⟩
  | succ n ih =>
    have hlt : i < sz := by simpa using hn 0 (Nat.succ_pos n)
    have hmin : min i sz = i := Nat.min_eq_left hlt.le
    rw [hmin] at hread ⊢
    -- What has been read so far ends below `WORD`, so the unsigned offset does not wrap.
    have hnowrap : (offset + i) % WORD = offset + i := by
      refine Nat.mod_eq_of_lt ?_
      rcases Nat.eq_zero_or_pos i with rfl | hpos
      · exact hoff
      · exact (hread hpos).2
    refine Triple.read fun k hk => ?_
    have hp : present (S.pte (addr + i)) := hpres _ (Nat.le_add_right _ _) (by omega)
    have hpte : pteAt k.mem.entry d (addr + i) = S.pte (addr + i) := hk.pte _
    have htab : present (k.mem.entry d (PDX (addr + i))) := table_of_pteAt (hpte ▸ hp)
    have hwalk : walkpgdir k.mem d (addr + i) = some (PTE_ADDR (k.mem.entry d (PDX (addr + i))), PTX (addr + i)) :=
      if_pos htab
    rw [pteAt_table htab] at hpte
    rw [hwalk]
    dsimp only
    rw [hnowrap]
    generalize hgot : readi content (offset + i) (min (sz - i) PGSIZE) = got
    have hlen : got.length ≤ min (sz - i) PGSIZE := by
      rw [← hgot, readi]
      split
      · exact Nat.zero_le _
      · exact List.length_take_le _ _
    have hmod : (addr + i) % PGSIZE = 0 := by unfold PGSIZE at *; omega
    refine Triple.upd (Owns T (view d ((S.store addr ((content.drop offset).take i)).store (addr + i) got) + R)) ?_ ?_
    · intro k' hk'
      rw [hk']
      have hstore := store_owns (a := addr + i) hT got hk (by omega) hp (by rw [hmod]; omega)
      rw [hmod, Nat.add_zero] at hstore
      have hsame : PTE_ADDR ((S.store addr ((content.drop offset).take i)).pte (addr + i)) =
          PTE_ADDR (k.mem.entry (PTE_ADDR (k.mem.entry d (PDX (addr + i)))) (PTX (addr + i))) :=
        congrArg PTE_ADDR hpte.symm
      rw [hsame] at hstore
      unfold Kmem.setMem at hstore ⊢
      exact hstore
    -- After a short `readi` the loop returns -1, with what was read in the page.
    refine Triple.ite (fun _ => Triple.ret fun k hk => ⟨_, hk, rfl, fun h => absurd h (by decide)⟩) fun hfull => ?_
    rw [not_not] at hfull
    have hpos : 0 < min (sz - i) PGSIZE := by unfold PGSIZE; omega
    obtain ⟨hbytes, hle, hword⟩ := readi_full (hnowrap ▸ Nat.mod_lt _ (by decide))
      (lt_of_le_of_lt (Nat.min_le_right _ _) (by decide)) (hgot.symm ▸ hfull) hpos
    have hnext : min (i + PGSIZE) sz = i + min (sz - i) PGSIZE := by omega
    have hview : (S.store addr ((content.drop offset).take i)).store (addr + i) got =
        S.store addr ((content.drop offset).take (min (i + PGSIZE) sz)) := by
      have htake : ((content.drop offset).take i).length = i := by
        rw [List.length_take, List.length_drop]
        omega
      have happ := Bytes.store_append S.byte addr ((content.drop offset).take i) got
      rw [htake] at happ
      unfold View.store
      rw [← happ, ← hgot, hbytes, hnext, List.take_add, List.drop_drop]
    rw [hview]
    refine ih (by unfold PGSIZE at *; omega) (fun j hj => ?_) (by rw [Nat.succ_mul] at hsz; omega) ?_
    · have := hn (j + 1) (Nat.succ_lt_succ hj)
      rw [Nat.succ_mul] at this
      omega
    · rw [hnext]
      intro _
      omega

theorem loaduvm_view {content : List UInt8} {addr offset sz : Nat} (hal : addr % PGSIZE = 0) (hoff : offset < WORD)
    (hend : addr + sz ≤ KERNBASE) (hpres : ∀ va, addr ≤ va → va < addr + sz → present (S.pte va)) :
    Triple E (Owns T (view d S + R)) (loaduvm (readi content) d addr offset sz)
      fun r k => ∃ S', Owns T (view d S' + R) k ∧ S'.pte = S.pte ∧
        (0 ≤ r → S' = S.store addr ((content.drop offset).take sz) ∧ (0 < sz → offset + sz ≤ content.length)) := by
  refine Triple.ite (fun h => absurd hal h) fun _ => ?_
  refine (loadLoop_view (i := 0) hT hal hoff hend hpres (pagesIn 0 sz) (by decide) (fun j hj => ?_) ?_ ?_).pre
    fun k hk => ?_
  · have := lt_of_pagesIn hj
    omega
  · exact le_pagesIn 0 sz
  · rw [Nat.zero_min]
    exact fun h => absurd h (lt_irrefl 0)
  · rw [Nat.zero_min, List.take_zero, View.store, Bytes.store_nil]
    exact hk

/-! ### `copyout` and `clearpteu` -/

omit hT in
theorem userMapped_iff {m : Mem} {d va : Nat} :
    UserMapped m d va ↔ present (pteAt m.entry d va) ∧ user (pteAt m.entry d va) := by
  unfold UserMapped pteOf walkpgdir
  by_cases htab : present (m.entry d (PDX va))
  · rw [if_pos htab, pteAt_table htab]
    constructor
    · rintro ⟨pte, heq, h⟩
      cases heq
      exact h
    · exact fun h => ⟨_, rfl, h⟩
  · rw [if_neg htab, pteAt_noTable htab]
    constructor
    · rintro ⟨pte, heq, -⟩
      cases heq
    · exact fun h => absurd h.1 not_present_zero

omit hT in
theorem physAddr_eq {m : Mem} {d va : Nat} (h : UserMapped m d va) :
    physAddr m d va = PTE_ADDR (pteAt m.entry d va) + va % PGSIZE := by
  have htab := table_of_pteAt (userMapped_iff.mp h).1
  rw [physAddr, pteOf, walkpgdir, if_pos htab, pteAt_table htab]
  rfl

omit hT in
/-- The kernel half has no user pages. -/
theorem lt_of_userMapped {m : Mem} {d va : Nat} (hk : KernelOnly m.entry d) (h : UserMapped m d va) (hva : va < WORD) :
    va < KERNBASE := by
  by_contra hge
  obtain ⟨hp, hu⟩ := userMapped_iff.mp h
  have htab := table_of_pteAt hp
  rw [pteAt_table htab] at hp hu
  exact hk _ (PDX_kernel (Nat.not_lt.mp hge) hva) (PDX_lt va) htab _ (PTX_lt va) hp hu

/-- Bytes that are stored one by one through the page tables. -/
theorem scatter_owns {buf : List UInt8} {p : Nat → Nat} (n : Nat) (h : Owns T (view d S + R) k)
    (hm : ∀ i < n, UserMapped k.mem d (p i)) (hp : ∀ i < n, p i < WORD) :
    Owns T (view d ⟨S.pte, Bytes.scatter S.byte p buf n⟩ + R) (k.setMem fun m =>
      m.setBytes (Bytes.scatter k.mem.byte (fun i => physAddr k.mem d (p i)) buf n)) := by
  induction n with
  | zero => exact h
  | succ n ih =>
    have ih := ih (fun i hi => hm i (Nat.lt_succ_of_lt hi)) fun i hi => hp i (Nat.lt_succ_of_lt hi)
    have hlast := hm n (Nat.lt_succ_self n)
    have hlt := lt_of_userMapped h.sound.1.kernel hlast (hp n (Nat.lt_succ_self n))
    have hpte : pteAt k.mem.entry d (p n) = S.pte (p n) := h.pte _
    have hpres : present (S.pte (p n)) := hpte ▸ (userMapped_iff.mp hlast).1
    have hstore := store_owns (a := p n) hT [buf.getD n 0] ih hlt hpres (by
      have := Nat.mod_lt (p n) (by decide : 0 < PGSIZE)
      exact this)
    have hphys : physAddr k.mem d (p n) = PTE_ADDR (S.pte (p n)) + p n % PGSIZE := by
      rw [physAddr_eq hlast, hpte]
    unfold View.store at hstore
    rw [Bytes.store_singleton] at hstore
    unfold Kmem.setMem at hstore ⊢
    simp only [Mem.setBytes_byte, Mem.setBytes_setBytes, Bytes.store_singleton] at hstore
    rw [Bytes.scatter, Bytes.scatter, hphys]
    exact hstore

theorem copyoutChecked_view {va : Nat} (hva : va < WORD) (buf : List UInt8) :
    Triple E (Owns T (view d S + R)) (copyoutChecked d va buf) fun r k => ∃ S', Owns T (view d S' + R) k ∧
      S'.pte = S.pte ∧ (0 ≤ r → S'.byte = Bytes.scatter S.byte (fun i => (va + i) % WORD) buf buf.length) ∧
        (0 ≤ r ↔ ∀ i < buf.length, present (S.pte ((va + i) % WORD)) ∧ user (S.pte ((va + i) % WORD))) := by
  intro k hk
  have hmod : ∀ i, (va + i) % WORD < WORD := fun i => Nat.mod_lt _ (by decide)
  rcases mapped_or_first k.mem d va buf with hall | ⟨i, hi, hbelow, hun⟩
  · have hrun : (copyoutChecked d va buf).run k =
        .ok (0, k.setMem fun _ => k.mem.setBytes (copied k.mem d va buf buf.length)) := by
      simp only [copyoutK, StateT.run, copyout_of_mapped hva hall]
    rw [hrun]
    refine ⟨_, scatter_owns hT buf.length hk hall fun i _ => hmod i, rfl, fun _ => rfl,
      iff_of_true le_rfl fun i hi => ?_⟩
    rw [← hk.sound.1.pte]
    exact userMapped_iff.mp (hall i hi)
  · have hnull : ∀ w, (.ok 0 : Except Fault Nat) = .ok w → ¬ (present w ∧ user w) := by
      rintro w h ⟨hp, -⟩
      exact not_present_zero (Except.ok.inj h ▸ hp)
    have hrun : (copyoutChecked d va buf).run k =
        .ok (-1, k.setMem fun _ => k.mem.setBytes (copied k.mem d va buf i)) := by
      simp only [copyoutK, StateT.run, copyout_of_unmapped hnull hva hi hbelow hun, Except.map, ite_self]
    rw [hrun]
    refine ⟨_, scatter_owns hT i hk hbelow fun i _ => hmod i, rfl, fun h => absurd h (by decide),
      iff_of_false (by decide) fun hall => hun (userMapped_iff.mpr ?_)⟩
    rw [hk.pte]
    exact hall i hi

theorem clearpteu_view {uva : Nat} (hu : uva < KERNBASE) (hp : present (S.pte uva)) :
    Triple E (Owns T (view d S + R)) (clearpteu d uva)
      fun _ => Owns T (view d (S.setPte uva (clearU (S.pte uva))) + R) := by
  refine Triple.read fun k hk => ?_
  have hpte : pteAt k.mem.entry d uva = S.pte uva := hk.pte _
  have htab : present (k.mem.entry d (PDX uva)) := table_of_pteAt (hpte ▸ hp)
  have hwalk : walkpgdir k.mem d uva = some (PTE_ADDR (k.mem.entry d (PDX uva)), PTX uva) := if_pos htab
  rw [pteAt_table htab] at hpte
  rw [hwalk]
  dsimp only
  intro k' hk'
  subst hk'
  show Owns T _ (k'.setMem fun m => m.setEntry _ _ (clearU (k'.mem.entry _ _)))
  rw [hpte]
  exact view_rewrite hT hk hu htab (present_clearU _) (PTE_ADDR_clearU _) rfl fun _ => rfl

end
end Chameleon.Vm
