import Chameleon.Lib.Hoare
import Chameleon.Vm.Frames

/-! What an address space shows: the entry behind every address and, below `KERNBASE`, the byte.
A memory is taken as a store of pages, so that whoever owns a page also knows its contents. -/

namespace Chameleon.Vm
open Region Hoare

/-- A page, read as a page table and as bytes. -/
abbrev Page := (Nat → Nat) × (Nat → UInt8)

def pages (m : Mem) (p : Nat) : Page :=
  (m.entry p, fun o => if p % PGSIZE = 0 ∧ o < PGSIZE then m.byte (p + o) else 0)

def entriesOf (s : Nat → Page) : Entries := fun p => (s p).1

/-- All frames of the total `T` are owned once: by `A`, which knows what they hold, or by the
free list. -/
def Owns (T : Multiset Nat) (A : Region Nat Page) (k : Kmem) : Prop :=
  Balanced T A (pages k.mem) k.freelist

@[simp] theorem entriesOf_pages (m : Mem) : entriesOf (pages m) = m.entry := rfl

theorem pages_byte (m : Mem) {p o : Nat} (hp : p % PGSIZE = 0) (ho : o < PGSIZE) :
    (pages m p).2 o = m.byte (p + o) := if_pos ⟨hp, ho⟩

/-- A page is known when its entries and its bytes are. -/
theorem pages_congr {m m' : Mem} {q : Nat} (he : m'.entry q = m.entry q)
    (hb : ∀ o < PGSIZE, q % PGSIZE = 0 → m'.byte (q + o) = m.byte (q + o)) : pages m' q = pages m q := by
  refine Prod.ext he (funext fun o => ?_)
  show (if _ then _ else _) = if _ then _ else _
  by_cases h : q % PGSIZE = 0 ∧ o < PGSIZE
  · rw [if_pos h, if_pos h, hb o h.2 h.1]
  · rw [if_neg h, if_neg h]

/-- Two different page frames have no byte in common. -/
theorem outside_page {p q o : Nat} (hp : p % PGSIZE = 0) (hq : q % PGSIZE = 0) (hne : q ≠ p) (ho : o < PGSIZE) :
    ¬ (p ≤ q + o ∧ q + o < p + PGSIZE) := by
  unfold PGSIZE at *
  omega

theorem pages_fill_of_ne (m : Mem) {p q : Nat} (c : UInt8) (hp : p % PGSIZE = 0) (hne : q ≠ p) :
    pages (m.fill p c) q = pages m q :=
  pages_congr (Function.update_of_ne hne _ _) fun _ ho hq => if_neg (outside_page hp hq hne ho)

theorem pages_fill_self (m : Mem) {p o : Nat} (c : UInt8) (hp : p % PGSIZE = 0) (ho : o < PGSIZE) :
    (pages (m.fill p c) p).2 o = c := by
  rw [pages_byte _ hp ho]
  exact if_pos ⟨Nat.le_add_right p o, Nat.add_lt_add_left ho p⟩

theorem pages_setEntry_snd (m : Mem) (t i w q : Nat) : (pages (m.setEntry t i w) q).2 = (pages m q).2 := rfl

/-- What an address space shows. -/
structure View where
  pte : Nat → Nat
  byte : Nat → UInt8

namespace View

/-- The page of `a` has the entry `w` and holds `c`. -/
def map (S : View) (a w : Nat) (c : Nat → UInt8) : View where
  pte va := if SamePage va a then w else S.pte va
  byte va := if SamePage va a then c (va % PGSIZE) else S.byte va

def setPte (S : View) (a w : Nat) : View :=
  { S with pte := fun va => if SamePage va a then w else S.pte va }

/-- The page of `a` holds `c`. -/
def fill (S : View) (a : Nat) (c : Nat → UInt8) : View :=
  { S with byte := fun va => if SamePage va a then c (va % PGSIZE) else S.byte va }

end View

/-- What the address space rooted at page directory `d` shows in a memory. -/
def viewOf (m : Mem) (d : Nat) : View where
  pte := pteAt m.entry d
  byte va := m.byte (PTE_ADDR (pteAt m.entry d va) + va % PGSIZE)

structure Shown (d : Nat) (S : View) (s : Nat → Page) : Prop where
  kernel : KernelOnly (entriesOf s) d
  pte : pteAt (entriesOf s) d = S.pte
  byte : ∀ va < KERNBASE, present (S.pte va) → (s (PTE_ADDR (S.pte va))).2 (va % PGSIZE) = S.byte va

namespace Shown
variable {d : Nat} {S : View} {s s' : Nat → Page}

theorem mem_cells (h : Shown d S s) {va : Nat} (hva : va < KERNBASE) (hp : present (S.pte va)) :
    PTE_ADDR (S.pte va) ∈ spaceCells (entriesOf s) d := by
  rw [← h.pte] at hp ⊢
  exact mem_spaceCells_page hva hp

theorem frame (h : Shown d S s) (hs : ∀ p ∈ spaceCells (entriesOf s) d, s' p = s p) : Shown d S s' where
  kernel := kernelOnly_frame _ _ d (fun p hp => congrArg Prod.fst (hs p hp)) h.kernel
  pte := (pteAt_frame fun p hp => congrArg Prod.fst (hs p hp)).trans h.pte
  byte va hva hp := by
    rw [hs _ (h.mem_cells hva hp)]
    exact h.byte va hva hp

end Shown

/-- The address space rooted at `d`, when it shows `S`. -/
def view (d : Nat) (S : View) : Region Nat Page where
  cells s := spaceCells (entriesOf s) d
  sound := Shown d S
  frame _ _ hs := ⟨spaceCells_frame _ _ d fun p hp => congrArg Prod.fst (hs p hp), fun h => h.frame hs⟩

@[simp] theorem cells_view (d : Nat) (S : View) (s : Nat → Page) :
    (view d S).cells s = spaceCells (entriesOf s) d := rfl

/-- A region that does not look at bytes. -/
def lift (A : Region Nat (Nat → Nat)) : Region Nat Page where
  cells s := A.cells (entriesOf s)
  sound s := A.sound (entriesOf s)
  frame _ _ hs := A.frame _ _ fun p hp => congrArg Prod.fst (hs p hp)

/-- One page, which holds the bytes `c`. -/
def holding (pg : Nat) (c : Nat → UInt8) : Region Nat Page where
  cells _ := {pg}
  sound s := ∀ o < PGSIZE, (s pg).2 o = c o
  frame _ _ hs := ⟨rfl, fun h o ho => by
    rw [hs pg (Multiset.mem_singleton_self pg)]
    exact h o ho⟩

@[simp] theorem cells_holding (pg : Nat) (c : Nat → UInt8) (s : Nat → Page) : (holding pg c).cells s = {pg} := rfl

section
variable {T : Multiset Nat} {d : Nat} {S : View} {k : Kmem}

theorem PTE_ADDR_mod (w : Nat) : PTE_ADDR w % PGSIZE = 0 := Nat.mul_mod_left _ _

theorem Owns.pte {R : Region Nat Page} (h : Owns T (view d S + R) k) (va : Nat) : pteAt k.mem.entry d va = S.pte va :=
  congrFun h.sound.1.pte va

theorem Owns.mapped_eq {R : Region Nat Page} (h : Owns T (view d S + R) k) (va : Nat) :
    mapped k.mem.entry d va = present (S.pte va) := by
  rw [Chameleon.Vm.mapped_eq, h.pte]

theorem Shown.viewOf_byte {m : Mem} (h : Shown d S (pages m)) {va : Nat} (hva : va < KERNBASE)
    (hp : present (S.pte va)) : (viewOf m d).byte va = S.byte va := by
  have hpte : pteAt m.entry d va = S.pte va := congrFun h.pte va
  rw [← h.byte va hva hp, pages_byte m (PTE_ADDR_mod _) (Nat.mod_lt _ (by decide)), ← hpte]
  rfl

theorem Owns.byte {R : Region Nat Page} (h : Owns T (view d S + R) k) {va : Nat} (hva : va < KERNBASE)
    (hp : present (S.pte va)) : (viewOf k.mem d).byte va = S.byte va := h.sound.1.viewOf_byte hva hp

/-- Every address space shows something. -/
theorem Acct.owns {R : Region Nat (Nat → Nat)} (h : Acct T (space d + R) k) :
    Owns T (view d (viewOf k.mem d) + lift R) k :=
  ⟨h.total, ⟨h.sound.1, rfl, fun _ _ _ => pages_byte k.mem (PTE_ADDR_mod _) (Nat.mod_lt _ (by decide))⟩, h.sound.2⟩

theorem Owns.acct {R : Region Nat (Nat → Nat)} (h : Owns T (view d S + lift R) k) : Acct T (space d + R) k :=
  ⟨h.total, h.sound.1.kernel, h.sound.2⟩

end

/-! ### Moves -/

section Moves
variable {T : Multiset Nat} {R : Region Nat Page} {S : View} {d a w : Nat} {s s' : Nat → Page}
variable {free : Multiset Nat} (hT : T.Nodup)
include hT

/-- A page becomes a page table: the address space shows what it showed before. -/
theorem view_link {t : Nat} (h : Balanced T (single t + (view d S + R)) s free)
    (habs : ¬ present (entriesOf s d (PDX a))) (hw : present w) (hwt : PTE_ADDR w = t)
    (he : entriesOf s' = linkE (entriesOf s) d (PDX a) t w) (hb : ∀ q, q ≠ t → (s' q).2 = (s q).2) :
    Balanced T (view d S + R) s' free := by
  rw [← add_assoc] at h
  have hn := Multiset.nodup_add.mp (Multiset.nodup_add.mp (h.nodup_cells hT)).1
  have ht : t ∉ spaceCells (entriesOf s) d := Multiset.singleton_disjoint.mp hn.2.2
  refine h.exchange hT (fun q hq => ?_) ?_ fun hs => ⟨?_, ?_, fun va hva hp => ?_⟩
  · have hqt : q ≠ t := fun eq => hq (Multiset.mem_add.mpr (.inl (Multiset.mem_singleton.mpr eq)))
    have hqd : q ≠ d := by
      rintro rfl
      exact hq (Multiset.mem_add.mpr (.inr (mem_spaceCells_dir (entriesOf s) q)))
    refine Prod.ext ((congrFun he q).trans ?_) (hb q hqt)
    rw [linkE, setE_of_ne hqd, Function.update_of_ne hqt]
    rfl
  · rw [cells_view, he, spaceCells_linkE ht hn.2.1 (PDX_lt a) habs hw hwt, cells_add, cells_fixed, cells_view,
      add_comm]
  · rw [he]
    exact kernelOnly_linkE ht hn.2.1 hwt hs.2.kernel
  · rw [he, pteAt_linkE ht hn.2.1 habs hwt]
    exact hs.2.pte
  · have hne : PTE_ADDR (S.pte va) ≠ t := fun eq => ht (eq ▸ hs.2.mem_cells hva hp)
    rw [hb _ hne]
    exact hs.2.byte va hva hp

theorem nodup_view {A : Region Nat Page} (h : Balanced T (A + (view d S + R)) s free) :
    (spaceCells (entriesOf s) d).Nodup :=
  (Multiset.nodup_add.mp (Multiset.nodup_add.mp (h.nodup_cells hT)).2.1).1

section Entry
variable (hp : present (entriesOf s d (PDX a)))
  (he : entriesOf s' = setE (entriesOf s) (PTE_ADDR (entriesOf s d (PDX a))) (PTX a) w) (hb : ∀ q, (s' q).2 = (s q).2)
include hp he hb

/-- Writing the entry of `a`, when the pages owned add up: the address space shows `S'`, which differs from `S` in the
page of `a` only. -/
theorem view_setE {A B : Region Nat Page} {S' : View} (h : Balanced T (A + (view d S + R)) s free)
    (hu : NUPDENTRIES ≤ PDX a → present w → ¬ user w)
    (hcells : B.cells s' + spaceCells (entriesOf s') d = A.cells s + spaceCells (entriesOf s) d)
    (hpte : S'.pte = fun va => if SamePage va a then w else S.pte va)
    (hoff : ∀ va, ¬ SamePage va a → S'.byte va = S.byte va)
    (hon : A.sound s → Shown d S s → B.sound s' ∧ ∀ va < KERNBASE, SamePage va a → present w →
      (s (PTE_ADDR w)).2 (va % PGSIZE) = S'.byte va) : Balanced T (B + (view d S' + R)) s' free := by
  have hn := nodup_view hT h
  rw [← add_assoc] at h ⊢
  refine h.exchange hT (fun q hq => ?_) hcells fun hs => ⟨(hon hs.1 hs.2).1, ?_, ?_, fun va hva hpva => ?_⟩
  · have hqt : q ≠ PTE_ADDR (entriesOf s d (PDX a)) := by
      intro eq
      refine hq (Multiset.mem_add.mpr (.inr ?_))
      rw [eq]
      exact mem_spaceCells_table (PDX_lt a) hp
    exact Prod.ext ((congrFun he q).trans (setE_of_ne hqt)) (hb q)
  · rw [he]
    exact kernelOnly_setE hn (PDX_lt a) hp hu hs.2.kernel
  · rw [hpte]
    funext va
    rw [he, pteAt_setE hn hp, hs.2.pte]
  · rw [hpte] at hpva ⊢
    dsimp only at hpva ⊢
    rw [hb]
    by_cases hsame : SamePage va a
    · rw [if_pos hsame] at hpva ⊢
      exact (hon hs.1 hs.2).2 va hva hsame hpva
    · rw [if_neg hsame] at hpva ⊢
      rw [hoff va hsame]
      exact hs.2.byte va hva hpva

/-- The entry is one below `KERNBASE`. -/
theorem view_user {A B : Region Nat Page} {S' : View} (h : Balanced T (A + (view d S + R)) s free) (ha : a < KERNBASE)
    (hpages : B.cells s' + pageOf w = A.cells s + pageOf (S.pte a))
    (hpte : S'.pte = fun va => if SamePage va a then w else S.pte va)
    (hoff : ∀ va, ¬ SamePage va a → S'.byte va = S.byte va)
    (hon : A.sound s → Shown d S s → B.sound s' ∧ ∀ va < KERNBASE, SamePage va a → present w →
      (s (PTE_ADDR w)).2 (va % PGSIZE) = S'.byte va) : Balanced T (B + (view d S' + R)) s' free := by
  have hat := congrFun h.sound.2.1.pte a
  rw [pteAt_table hp] at hat
  have hset := spaceCells_setE_user (w := w) (nodup_view hT h) (PDX_lt a) hp (PDX_user ha) (PTX_lt a)
  rw [hat] at hset
  refine view_setE hT hp he hb h (fun hk => absurd (PDX_user ha) (Nat.not_lt.mpr hk)) ?_ hpte hoff hon
  apply add_right_cancel (b := pageOf (S.pte a))
  rw [he, add_assoc, hset, add_left_comm, hpages]
  ac_rfl

end Entry

/-- An owned page is mapped below `KERNBASE`, with what it holds. -/
theorem view_map {pg : Nat} {c : Nat → UInt8} (h : Balanced T (holding pg c + (view d S + R)) s free)
    (ha : a < KERNBASE) (hp : present (entriesOf s d (PDX a))) (habs : ¬ present (S.pte a)) (hw : present w)
    (hpg : PTE_ADDR w = pg)
    (he : entriesOf s' = setE (entriesOf s) (PTE_ADDR (entriesOf s d (PDX a))) (PTX a) w)
    (hb : ∀ q, (s' q).2 = (s q).2) : Balanced T (view d (S.map a w c) + R) s' free := by
  rw [← zero_add (view d _ + R)]
  refine view_user hT hp he hb h ha ?_ rfl (fun va hne => if_neg hne) fun hhold _ => ⟨trivial, fun va _ hsame _ => ?_⟩
  · rw [cells_zero, pageOf_present hw, pageOf_absent habs, cells_holding, hpg, add_comm]
  · rw [hpg, hhold _ (Nat.mod_lt _ (by decide))]
    exact (if_pos hsame).symm

theorem view_unmap (h : Balanced T (view d S + R) s free) (ha : a < KERNBASE) (hpte : present (S.pte a))
    (he : entriesOf s' = setE (entriesOf s) (PTE_ADDR (entriesOf s d (PDX a))) (PTX a) 0)
    (hb : ∀ q, (s' q).2 = (s q).2) :
    Balanced T (single (PTE_ADDR (S.pte a)) + (view d (S.setPte a 0) + R)) s' free := by
  have hp : present (entriesOf s d (PDX a)) := table_of_pteAt (congrFun h.sound.1.pte a ▸ hpte)
  rw [← zero_add (view d S + R)] at h
  refine view_user hT hp he hb h ha ?_ rfl (fun _ _ => rfl) fun _ _ => ⟨trivial, fun va _ _ hw => absurd hw not_present_zero⟩
  rw [cells_fixed, pageOf_present hpte, pageOf_zero, cells_zero, add_comm]

/-- An entry below `KERNBASE` is replaced by one for the same page. -/
theorem view_rewrite (h : Balanced T (view d S + R) s free) (ha : a < KERNBASE)
    (hp : present (entriesOf s d (PDX a))) (hpres : present w = present (S.pte a))
    (haddr : PTE_ADDR w = PTE_ADDR (S.pte a))
    (he : entriesOf s' = setE (entriesOf s) (PTE_ADDR (entriesOf s d (PDX a))) (PTX a) w)
    (hb : ∀ q, (s' q).2 = (s q).2) : Balanced T (view d (S.setPte a w) + R) s' free := by
  rw [← zero_add (view d _ + R)] at h ⊢
  refine view_user hT hp he hb h ha ?_ rfl (fun _ _ => rfl) fun _ hs => ⟨trivial, fun va hva hsame hw => ?_⟩
  · unfold pageOf
    rw [hpres, haddr]
    rfl
  · have hva' : S.pte va = S.pte a := by
      rw [← hs.pte]
      exact pteAt_of_samePage hsame
    rw [hpres, ← hva'] at hw
    rw [haddr, ← hva']
    exact hs.byte va hva hw

/-- An entry at or above `KERNBASE` is written. -/
theorem view_kernel (h : Balanced T (view d S + R) s free) (ha : KERNBASE ≤ a) (hlt : a < WORD)
    (hp : present (entriesOf s d (PDX a))) (hu : ¬ user w)
    (he : entriesOf s' = setE (entriesOf s) (PTE_ADDR (entriesOf s d (PDX a))) (PTX a) w)
    (hb : ∀ q, (s' q).2 = (s q).2) : Balanced T (view d (S.setPte a w) + R) s' free := by
  rw [← zero_add (view d _ + R)] at h ⊢
  have hk := PDX_kernel ha hlt
  refine view_setE hT hp he hb h (fun _ _ => hu) ?_ rfl (fun _ _ => rfl) fun _ _ => ⟨trivial, fun va hva hsame _ => ?_⟩
  · rw [he, spaceCells_setE_kernel (nodup_view hT h) (PDX_lt a) hp hk]
    rfl
  · exact absurd (hsame.1 ▸ PDX_user hva) (Nat.not_lt.mpr hk)

theorem view_fill {c : Nat → UInt8} (h : Balanced T (view d S + R) s free) (ha : a < KERNBASE)
    (hpte : present (S.pte a)) (he : entriesOf s' = entriesOf s)
    (hb : ∀ q, q ≠ PTE_ADDR (S.pte a) → (s' q).2 = (s q).2)
    (hc : ∀ o < PGSIZE, (s' (PTE_ADDR (S.pte a))).2 o = c o) : Balanced T (view d (S.fill a c) + R) s' free := by
  have hn := (Multiset.nodup_add.mp (h.nodup_cells hT)).1
  have hmem := h.sound.1.mem_cells ha hpte
  refine h.exchange hT (fun q hq => ?_) ?_ fun hs => ⟨?_, ?_, fun va hva hpva => ?_⟩
  · exact Prod.ext (congrFun he q) (hb q fun eq => hq (eq ▸ hmem))
  · rw [cells_view, he, cells_view]
  · rw [he]
    exact hs.kernel
  · rw [he]
    exact hs.pte
  · unfold View.fill at hpva ⊢
    dsimp only at hpva ⊢
    by_cases hsame : SamePage va a
    · have hva' : S.pte va = S.pte a := by
        rw [← hs.pte]
        exact pteAt_of_samePage hsame
      rw [if_pos hsame, hva']
      exact hc _ (Nat.mod_lt _ (by decide))
    · rw [if_neg hsame, hb]
      · exact hs.byte va hva hpva
      · rw [← hs.pte] at hpte hpva ⊢
        exact page_ne_page hn ha hva hpte hpva hsame

/-- The contents of an owned page are written. -/
theorem holding_write {pg : Nat} {c : Nat → UInt8} (h : Balanced T (single pg + R) s free)
    (hs : ∀ q, q ≠ pg → s' q = s q) (hc : ∀ o < PGSIZE, (s' pg).2 o = c o) :
    Balanced T (holding pg c + R) s' free :=
  h.exchange hT (fun q hq => hs q fun eq => hq (Multiset.mem_singleton.mpr eq)) rfl fun _ => hc

theorem view_new (h : Balanced T (single d + R) s free) (hs : ∀ q, q ≠ d → s' q = s q)
    (hd : (s' d).1 = fun _ => 0) : Balanced T (view d ⟨fun _ => 0, S.byte⟩ + R) s' free := by
  have hzero : entriesOf s' d = fun _ => 0 := hd
  refine h.exchange hT (fun q hq => hs q fun eq => hq (Multiset.mem_singleton.mpr eq)) ?_
    fun _ => ⟨?_, ?_, fun va _ hp => absurd hp not_present_zero⟩
  · rw [cells_view, spaceCells_of_zero hzero, cells_fixed]
  · exact kernelOnly_of_zero hzero
  · funext va
    refine pteAt_noTable ?_
    rw [hzero]
    exact not_present_zero

end Moves

end Chameleon.Vm
