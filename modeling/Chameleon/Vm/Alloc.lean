import Mathlib.Data.List.Perm.Basic
import Chameleon.Vm.Dealloc

/-! `allocuvm`, wherever `kalloc` fails: what it has done is undone, but for page tables it has linked. -/

namespace Chameleon.Vm
open Hoare

/-- Page `f` is no part of the address space of directory `d`. -/
structure Apart (e : Entries) (d f : Nat) : Prop where
  dir : f ≠ d
  table : ∀ i < NPDENTRIES, present (e d i) → PTE_ADDR (e d i) ≠ f
  page : ∀ va < KERNBASE, present (pteAt e d va) → PTE_ADDR (pteAt e d va) ≠ f

/-- A page directory, its user pages and the free list: no page has two uses. -/
structure Space (L : Layout) (d : Nat) (k : Kmem) : Prop where
  user : UserFrames L d k.mem.entry
  free : ∀ f ∈ k.freelist, IsFrame L f ∧ Apart k.mem.entry d f
  nodup : k.freelist.Nodup

/-- Page `f` has become a page table of `d`. -/
def NewTable (d : Nat) (k k' : Kmem) (f : Nat) : Prop :=
  ∃ i < NPDENTRIES, ¬ present (k.mem.entry d i) ∧ present (k'.mem.entry d i) ∧ PTE_ADDR (k'.mem.entry d i) = f

/-- Nothing has changed but for new page tables, which are empty. -/
structure Undone (d : Nat) (k k' : Kmem) : Prop where
  mapping : ∀ va < WORD, present (pteAt k'.mem.entry d va) = present (pteAt k.mem.entry d va) ∧
    (present (pteAt k.mem.entry d va) → pteAt k'.mem.entry d va = pteAt k.mem.entry d va)
  dir : ∀ i < NPDENTRIES, present (k.mem.entry d i) → k'.mem.entry d i = k.mem.entry d i
  free : ∃ ts : List Nat, (k.freelist).Perm (ts ++ k'.freelist) ∧ (∀ f, f ∈ ts ↔ NewTable d k k' f) ∧
    ∀ f ∈ ts, ∀ j < NPTENTRIES, ¬ present (k'.mem.entry f j)
  byte : ∀ x, (∀ f ∈ k.freelist, ¬ InPage f x) → k'.mem.byte x = k.mem.byte x

/-- The pages from `lo` to `hi` are mapped to zeroed frames from the free list, and no other mapping has changed. -/
structure Extended (d lo hi : Nat) (k k' : Kmem) : Prop where
  new : ∀ va, lo ≤ va → va < hi → present (pteAt k'.mem.entry d va) ∧
    PTE_FLAGS (pteAt k'.mem.entry d va) = (PTE_W ||| PTE_U ||| PTE_P) ∧ PTE_ADDR (pteAt k'.mem.entry d va) ∈ k.freelist ∧
    ∀ x, InPage (PTE_ADDR (pteAt k'.mem.entry d va)) x → k'.mem.byte x = 0
  distinct : ∀ va va', lo ≤ va → va < hi → lo ≤ va' → va' < hi → ¬ SamePage va' va →
    PTE_ADDR (pteAt k'.mem.entry d va') ≠ PTE_ADDR (pteAt k'.mem.entry d va)
  same : ∀ va < WORD, ¬ (lo ≤ va ∧ va < hi) → pteAt k'.mem.entry d va = pteAt k.mem.entry d va

/-! ### Changes to an address space -/

section Changes
variable {L : Layout} {e e' : Entries} {d f : Nat}

theorem Apart.congr (h : Apart e d f) (hd : e' d = e d) (hpte : pteAt e' d = pteAt e d) : Apart e' d f := by
  refine ⟨h.dir, ?_, ?_⟩
  · rw [hd]
    exact h.table
  · rw [hpte]
    exact h.page

theorem UserFrames.congr (h : UserFrames L d e) (hd : e' d = e d) (hpte : pteAt e' d = pteAt e d) : UserFrames L d e' :=
  h.clear hd fun va _ => congrFun hpte va

/-- Two page frames with a byte in common are one. -/
theorem inPage_eq {f g x : Nat} (hf : f % PGSIZE = 0) (hg : g % PGSIZE = 0) (h : InPage f x) (h' : InPage g x) :
    f = g := by
  unfold InPage PGSIZE at *
  omega

section Fill
variable {m : Mem} {c : UInt8} (h : Apart m.entry d f)
include h

theorem fill_dir : (m.fill f c).entry d = m.entry d := Function.update_of_ne h.dir.symm _ _

theorem pteAt_fill : pteAt (m.fill f c).entry d = pteAt m.entry d := by
  apply pteAt_congr
  · exact fill_dir h
  · exact fun i hi hp => Function.update_of_ne (h.table i hi hp) _ _

end Fill

section Link
variable {t i w : Nat} (ht : Apart e d t) (hwt : PTE_ADDR w = t)
include ht hwt

theorem Apart.link (h : Apart e d f) (hne : f ≠ t) (hu : Tabled e d) (habs : ¬ present (e d i)) :
    Apart (linkE e d i t w) d f := by
  refine ⟨h.dir, ?_, ?_⟩
  · intro j hj hp
    rcases table_of_linkE ht.dir hwt hp with ⟨-, heq⟩ | ⟨-, hold, heq⟩
    · rw [heq]
      exact hne.symm
    · rw [heq]
      exact h.table j hj hold
  · rw [hu.pteAt_linkE ht.dir ht.table habs hwt]
    exact h.page

theorem UserFrames.link (h : UserFrames L d e) (habs : ¬ present (e d i)) : UserFrames L d (linkE e d i t w) := by
  have hpte := h.tables.pteAt_linkE ht.dir ht.table habs hwt
  refine ⟨tabled_linkE h.tables ht.dir ht.table hwt, ?_, ?_, ?_⟩
  · rw [hpte]
    exact h.frame
  · rw [hpte]
    exact h.distinct
  · rw [hpte]
    intro va hva hp
    refine ⟨(h.apart va hva hp).1, fun j hj hpj => ?_⟩
    rcases table_of_linkE ht.dir hwt hpj with ⟨-, heq⟩ | ⟨-, hold, heq⟩
    · rw [heq]
      exact (ht.page va hva hp).symm
    · rw [heq]
      exact (h.apart va hva hp).2 j hj hold

end Link

section Map
variable {a m w : Nat} (hm : Apart e d m) (hwm : PTE_ADDR w = m) (hu : UserFrames L d e) (hp : present (e d (PDX a)))
include hm hwm hu hp

omit hm hwm in
theorem setE_table_dir : setE e (PTE_ADDR (e d (PDX a))) (PTX a) w d = e d :=
  setE_of_ne (hu.tables.ne_dir _ (PDX_lt a) hp).symm

omit hm in
theorem Apart.mapPage (h : Apart e d f) (hne : f ≠ m) : Apart (setE e (PTE_ADDR (e d (PDX a))) (PTX a) w) d f := by
  refine ⟨h.dir, ?_, ?_⟩
  · rw [setE_table_dir hu hp]
    exact h.table
  · intro va hva
    rw [hu.tables.pteAt_setE hp]
    split
    case isTrue =>
      rw [hwm]
      exact fun _ => hne.symm
    case isFalse => exact h.page va hva

theorem UserFrames.mapPage (hframe : IsFrame L m) : UserFrames L d (setE e (PTE_ADDR (e d (PDX a))) (PTX a) w) := by
  have hdir : setE e (PTE_ADDR (e d (PDX a))) (PTX a) w d = e d := setE_table_dir hu hp
  have hpte := fun va => hu.tables.pteAt_setE (w := w) hp va
  refine ⟨⟨?_, ?_⟩, ?_, ?_, ?_⟩
  · rw [hdir]
    exact hu.tables.ne_dir
  · rw [hdir]
    exact hu.tables.ne_table
  · intro va hva
    rw [hpte va]
    split
    case isTrue =>
      rw [hwm]
      exact fun _ => hframe
    case isFalse => exact hu.frame va hva
  · intro va hva va' hva'
    rw [hpte va, hpte va']
    split
    case isTrue h =>
      split
      case isTrue h' => exact fun _ _ hne => absurd ⟨h'.1.trans h.1.symm, h'.2.trans h.2.symm⟩ hne
      case isFalse =>
        rw [hwm]
        exact fun _ hp' _ => hm.page va' hva' hp'
    case isFalse h =>
      split
      case isTrue h' =>
        rw [hwm]
        exact fun hp _ _ => (hm.page va hva hp).symm
      case isFalse => exact hu.distinct va hva va' hva'
  · intro va hva
    rw [hpte va, hdir]
    split
    case isTrue =>
      rw [hwm]
      exact fun _ => ⟨hm.dir, hm.table⟩
    case isFalse => exact hu.apart va hva

end Map
end Changes

/-! ### Growing -/

/-- `allocuvm` on its way, from memory `k₀`: the pages from `lo` to `a` are new, and the pages `loose` have been taken
from the free list and zeroed, and wait to be mapped. -/
structure Growing (L : Layout) (d lo a : Nat) (loose : List Nat) (k₀ k : Kmem) : Prop where
  space : Space L d k
  held : ∀ f ∈ loose, (IsFrame L f ∧ Apart k.mem.entry d f) ∧ f ∉ k.freelist ∧ ∀ x, InPage f x → k.mem.byte x = 0
  old : ∀ va < WORD, ¬ (lo ≤ va ∧ va < a) → pteAt k.mem.entry d va = pteAt k₀.mem.entry d va
  new : ∀ va, lo ≤ va → va < a → present (pteAt k.mem.entry d va) ∧
    PTE_FLAGS (pteAt k.mem.entry d va) = (PTE_W ||| PTE_U ||| PTE_P) ∧
    ∀ x, InPage (PTE_ADDR (pteAt k.mem.entry d va)) x → k.mem.byte x = 0
  dir : ∀ i < NPDENTRIES, present (k₀.mem.entry d i) → k.mem.entry d i = k₀.mem.entry d i
  free : ∀ f, f ∈ k₀.freelist ↔ f ∈ loose ∨ f ∈ k.freelist ∨ NewTable d k₀ k f ∨
    ∃ va, lo ≤ va ∧ va < a ∧ PTE_ADDR (pteAt k.mem.entry d va) = f
  byte : ∀ x, (∀ f ∈ k₀.freelist, ¬ InPage f x) → k.mem.byte x = k₀.mem.byte x

namespace Growing
variable {L : Layout} {d lo a : Nat} {loose : List Nat} {k₀ k : Kmem}

theorem start (h : Space L d k) : Growing L d lo lo [] k k := by
  refine ⟨h, fun f hf => absurd hf List.not_mem_nil, fun _ _ _ => rfl, ?_, fun _ _ _ => rfl, ?_, fun _ _ => rfl⟩
  · exact fun va h1 h2 => absurd h2 (Nat.not_lt.mpr h1)
  · intro f
    refine ⟨fun hf => .inr (.inl hf), ?_⟩
    rintro (hf | hf | ⟨i, -, habs, hp, -⟩ | ⟨va, h1, h2, -⟩)
    · exact absurd hf List.not_mem_nil
    · exact hf
    · exact absurd hp habs
    · exact absurd h2 (Nat.not_lt.mpr h1)

/-- Which calls of `kalloc` will be refused does not matter. -/
theorem deny (h : Growing L d lo a loose k₀ k) (ds : List Bool) : Growing L d lo a loose k₀ { k with deny := ds } :=
  ⟨⟨h.space.user, h.space.free, h.space.nodup⟩, h.held, h.old, h.new, h.dir, h.free, h.byte⟩

/-- A new page is not one that is filled now. -/
theorem not_inPage (h : Growing L d lo a loose k₀ k) (ha : a ≤ KERNBASE) {f va x : Nat} (hf : IsFrame L f)
    (hapart : Apart k.mem.entry d f) (h1 : lo ≤ va) (h2 : va < a) (hx : InPage (PTE_ADDR (pteAt k.mem.entry d va)) x) :
    ¬ InPage f x := by
  intro hfx
  refine hapart.page va (lt_of_lt_of_le h2 ha) (h.new va h1 h2).1 ?_
  exact inPage_eq (PTE_ADDR_mod _) hf.1 hx hfx

/-- `kalloc` gives a page, and it is zeroed. -/
theorem take (h : Growing L d lo a [] k₀ k) (ha : a ≤ KERNBASE) {m : Nat} {rest : List Nat} (ds : List Bool)
    (hfree : k.freelist = m :: rest) :
    Growing L d lo a [m] k₀ (({ k with freelist := rest, deny := ds } : Kmem).setMem (·.fill m 0)) := by
  obtain ⟨hframe, hapart⟩ := h.space.free m (hfree ▸ List.mem_cons_self)
  have hnodup := h.space.nodup
  rw [hfree, List.nodup_cons] at hnodup
  have hdir : (k.mem.fill m 0).entry d = k.mem.entry d := fill_dir hapart
  have hpte : pteAt (k.mem.fill m 0).entry d = pteAt k.mem.entry d := pteAt_fill hapart
  refine ⟨⟨h.space.user.congr hdir hpte, ?_, hnodup.2⟩, ?_, ?_, ?_, ?_, ?_, ?_⟩
  · intro f hf
    obtain ⟨hf', hapart'⟩ := h.space.free f (hfree ▸ List.mem_cons_of_mem m hf)
    exact ⟨hf', hapart'.congr hdir hpte⟩
  · intro f hf
    obtain rfl := List.mem_singleton.mp hf
    exact ⟨⟨hframe, hapart.congr hdir hpte⟩, hnodup.1, fun x hx => if_pos hx⟩
  · intro va hva hout
    exact (congrFun hpte va).trans (h.old va hva hout)
  · intro va h1 h2
    rw [Kmem.setMem_mem, hpte]
    obtain ⟨hpres, hflags, hzero⟩ := h.new va h1 h2
    refine ⟨hpres, hflags, fun x hx => ?_⟩
    exact (if_neg (h.not_inPage ha hframe hapart h1 h2 hx)).trans (hzero x hx)
  · intro i hi hp
    exact (congrFun hdir i).trans (h.dir i hi hp)
  · intro f
    rw [h.free f, hfree, List.mem_cons, List.mem_singleton, or_assoc]
    refine (or_iff_right List.not_mem_nil).trans ?_
    unfold NewTable
    rw [Kmem.setMem_mem, hdir, hpte]
    rfl
  · intro x hx
    have hmem : m ∈ k₀.freelist := (h.free m).mpr (.inr (.inl (hfree ▸ List.mem_cons_self)))
    exact (if_neg (hx m hmem)).trans (h.byte x hx)

theorem link (h : Growing L d lo a loose k₀ k) (ha : a ≤ KERNBASE) {t i : Nat} {rest : List Nat}
    (hfree : k.freelist = t :: rest) (hi : i < NPDENTRIES) (habs : ¬ present (k.mem.entry d i)) :
    Growing L d lo a loose k₀ (linkTable k d i t rest) := by
  obtain ⟨hframe, hapart⟩ := h.space.free t (hfree ▸ List.mem_cons_self)
  have hnodup := h.space.nodup
  rw [hfree, List.nodup_cons] at hnodup
  obtain ⟨hpde, haddr⟩ := tableEntry hframe.1
  have hpte : pteAt (linkTable k d i t rest).mem.entry d = pteAt k.mem.entry d :=
    h.space.user.tables.pteAt_linkE hapart.dir hapart.table habs haddr
  have hdir : (linkTable k d i t rest).mem.entry d = Function.update (k.mem.entry d) i (tablePde t) := by
    show linkE k.mem.entry d i t (tablePde t) d = _
    rw [linkE, setE_self, Function.update_of_ne hapart.dir.symm]
  refine ⟨⟨h.space.user.link hapart haddr habs, ?_, hnodup.2⟩, ?_, ?_, ?_, ?_, ?_, ?_⟩
  · intro f hf
    obtain ⟨hf', hapart'⟩ := h.space.free f (hfree ▸ List.mem_cons_of_mem t hf)
    exact ⟨hf', Apart.link hapart haddr hapart' (fun heq => hnodup.1 (heq ▸ hf)) h.space.user.tables habs⟩
  · intro f hf
    obtain ⟨⟨hf', hapart'⟩, hout, hzero⟩ := h.held f hf
    rw [hfree, List.mem_cons, not_or] at hout
    refine ⟨⟨hf', Apart.link hapart haddr hapart' hout.1 h.space.user.tables habs⟩, hout.2, fun x hx => ?_⟩
    exact (if_neg fun htx => hout.1 (inPage_eq hf'.1 hframe.1 hx htx)).trans (hzero x hx)
  · intro va hva hout
    exact (congrFun hpte va).trans (h.old va hva hout)
  · intro va h1 h2
    rw [hpte]
    obtain ⟨hpres, hflags, hzero⟩ := h.new va h1 h2
    refine ⟨hpres, hflags, fun x hx => ?_⟩
    exact (if_neg (h.not_inPage ha hframe hapart h1 h2 hx)).trans (hzero x hx)
  · intro j hj hp
    have hold := h.dir j hj hp
    have hne : j ≠ i := by
      rintro rfl
      rw [hold] at habs
      exact habs hp
    rw [hdir, Function.update_of_ne hne]
    exact hold
  · have hnew : ∀ f, NewTable d k₀ (linkTable k d i t rest) f ↔ f = t ∨ NewTable d k₀ k f := by
      intro f
      unfold NewTable
      rw [hdir]
      constructor
      · rintro ⟨j, hj, habs₀, hp, heq⟩
        by_cases hji : j = i
        · left
          rw [hji, Function.update_self, haddr] at heq
          exact heq.symm
        · rw [Function.update_of_ne hji] at hp heq
          exact .inr ⟨j, hj, habs₀, hp, heq⟩
      · rintro (rfl | ⟨j, hj, habs₀, hp, heq⟩)
        · refine ⟨i, hi, fun hp => habs ?_, ?_, ?_⟩
          · rw [h.dir i hi hp]
            exact hp
          · rw [Function.update_self]
            exact hpde
          · rw [Function.update_self]
            exact haddr
        · have hji : j ≠ i := by
            rintro rfl
            exact habs hp
          refine ⟨j, hj, habs₀, ?_, ?_⟩
          · rw [Function.update_of_ne hji]
            exact hp
          · rw [Function.update_of_ne hji]
            exact heq
    intro f
    rw [h.free f, hfree, List.mem_cons, hnew f, hpte]
    have hshift : ∀ p q r s u : Prop, (p ∨ (q ∨ r) ∨ s ∨ u) ↔ p ∨ r ∨ (q ∨ s) ∨ u := by tauto
    exact hshift _ _ _ _ _
  · intro x hx
    have hmem : t ∈ k₀.freelist := (h.free t).mpr (.inr (.inl (hfree ▸ List.mem_cons_self)))
    exact (if_neg (hx t hmem)).trans (h.byte x hx)

/-- The page in hand is mapped at `a`. -/
theorem map {m : Nat} (h : Growing L d lo a [m] k₀ k) (ha : a < KERNBASE) (hal : a % PGSIZE = 0) (hlo : lo ≤ a)
    (hp : present (k.mem.entry d (PDX a))) :
    Growing L d lo (a + PGSIZE) [] k₀ (k.setMem (·.setEntry (PTE_ADDR (k.mem.entry d (PDX a))) (PTX a)
      (m ||| (PTE_W ||| PTE_U) ||| PTE_P))) := by
  obtain ⟨⟨hframe, hapart⟩, hout, hzero⟩ := h.held m (List.mem_singleton_self m)
  have haddr : PTE_ADDR (m ||| (PTE_W ||| PTE_U) ||| PTE_P) = m := PTE_ADDR_entry hframe.1 (by decide)
  have hflags : PTE_FLAGS (m ||| (PTE_W ||| PTE_U) ||| PTE_P) = (PTE_W ||| PTE_U ||| PTE_P) :=
    PTE_FLAGS_entry hframe.1 (by decide)
  have hdir : (k.mem.setEntry (PTE_ADDR (k.mem.entry d (PDX a))) (PTX a) (m ||| (PTE_W ||| PTE_U) ||| PTE_P)).entry d =
      k.mem.entry d := setE_table_dir h.space.user hp
  have hpte := fun va => h.space.user.tables.pteAt_setE (w := m ||| (PTE_W ||| PTE_U) ||| PTE_P) hp va
  have hin : ∀ va < WORD, (lo ≤ va ∧ va < a + PGSIZE ↔ lo ≤ va ∧ va < a ∨ SamePage va a) := by
    intro va hva
    rw [lt_page_iff hal ha hva, samePage_page hal ha hva]
    omega
  have hword : ∀ va, va < a + PGSIZE → va < WORD := by
    intro va hva
    unfold WORD KERNBASE PGSIZE at *
    omega
  refine ⟨⟨h.space.user.mapPage hapart haddr hp hframe, ?_, h.space.nodup⟩, fun f hf => absurd hf List.not_mem_nil, ?_, ?_,
    ?_, ?_, h.byte⟩
  · intro f hf
    obtain ⟨hf', hapart'⟩ := h.space.free f hf
    exact ⟨hf', Apart.mapPage haddr h.space.user hp hapart' fun heq => hout (heq ▸ hf)⟩
  · intro va hva hva'
    rw [hin va hva, not_or] at hva'
    refine (hpte va).trans ?_
    rw [if_neg hva'.2]
    exact h.old va hva hva'.1
  · intro va h1 h2
    have hva := hword va h2
    show present (pteAt (setE _ _ _ _) d va) ∧ PTE_FLAGS (pteAt (setE _ _ _ _) d va) = _ ∧
      ∀ x, InPage (PTE_ADDR (pteAt (setE _ _ _ _) d va)) x → k.mem.byte x = 0
    rw [hpte va]
    rcases (hin va hva).mp ⟨h1, h2⟩ with hold | hsame
    · by_cases hsame : SamePage va a
      · rw [if_pos hsame, haddr]
        exact ⟨present_or_P _, hflags, hzero⟩
      · rw [if_neg hsame]
        exact h.new va hold.1 hold.2
    · rw [if_pos hsame, haddr]
      exact ⟨present_or_P _, hflags, hzero⟩
  · intro i hi hpi
    exact (congrFun hdir i).trans (h.dir i hi hpi)
  · intro f
    rw [h.free f, List.mem_singleton]
    refine Iff.trans ?_ (or_iff_right List.not_mem_nil).symm
    unfold NewTable
    rw [Kmem.setMem_mem, hdir]
    have hpages : (∃ va, lo ≤ va ∧ va < a + PGSIZE ∧ PTE_ADDR (pteAt (setE k.mem.entry
        (PTE_ADDR (k.mem.entry d (PDX a))) (PTX a) (m ||| (PTE_W ||| PTE_U) ||| PTE_P)) d va) = f) ↔
          f = m ∨ ∃ va, lo ≤ va ∧ va < a ∧ PTE_ADDR (pteAt k.mem.entry d va) = f := by
      constructor
      · rintro ⟨va, h1, h2, heq⟩
        rw [hpte va] at heq
        by_cases hsame : SamePage va a
        · rw [if_pos hsame, haddr] at heq
          exact .inl heq.symm
        · rw [if_neg hsame] at heq
          have hold := ((hin va (hword va h2)).mp ⟨h1, h2⟩).resolve_right hsame
          exact .inr ⟨va, hold.1, hold.2, heq⟩
      · rintro (rfl | ⟨va, h1, h2, heq⟩)
        · refine ⟨a, hlo, Nat.lt_add_of_pos_right (by decide), ?_⟩
          rw [hpte a, if_pos ⟨rfl, rfl⟩, haddr]
        · have hne : ¬ SamePage va a := by
            rw [samePage_page hal ha (hword va (lt_trans h2 (Nat.lt_add_of_pos_right (by decide))))]
            exact fun hs => absurd hs.1 (Nat.not_le.mpr h2)
          refine ⟨va, h1, lt_trans h2 (Nat.lt_add_of_pos_right (by decide)), ?_⟩
          rw [hpte va, if_neg hne]
          exact heq
    have hshift : ∀ p q r s : Prop, (p ∨ q ∨ r ∨ s) ↔ q ∨ r ∨ p ∨ s := by tauto
    rw [hshift, ← hpages]
    rfl

/-- The rest of `mappage`, when there is a page table and no page. -/
theorem mappage_run {perm pa : Nat} {k₁ : Kmem} (hwalk : (walkpgdirAlloc d a).run k =
    .ok (some (PTE_ADDR (k₁.mem.entry d (PDX a)), PTX a), k₁)) (hp : present (k₁.mem.entry d (PDX a)))
    (habs : ¬ present (pteAt k₁.mem.entry d a)) : (mappage d perm a pa).run k =
      .ok (true, k₁.setMem (·.setEntry (PTE_ADDR (k₁.mem.entry d (PDX a))) (PTX a) (pa ||| perm ||| PTE_P))) := by
  rw [pteAt_table hp] at habs
  rw [mappage, StateT.run_bind, hwalk]
  show (if present (k₁.mem.entry (PTE_ADDR (k₁.mem.entry d (PDX a))) (PTX a)) then throw "remap" else _ : Kern Bool).run k₁ = _
  rw [if_neg habs]
  rfl

theorem mappages {m : Nat} (h : Growing L d lo a [m] k₀ k) (ha : a < KERNBASE) (hal : a % PGSIZE = 0) (hlo : lo ≤ a)
    (habs : ¬ present (pteAt k₀.mem.entry d a)) :
    (∃ k', (Chameleon.Vm.mappages d a PGSIZE m (PTE_W ||| PTE_U)).run k = .ok (-1, k') ∧ Growing L d lo a [m] k₀ k') ∨
      ∃ k', (Chameleon.Vm.mappages d a PGSIZE m (PTE_W ||| PTE_U)).run k = .ok (0, k') ∧
        Growing L d lo (a + PGSIZE) [] k₀ k' := by
  have hold : ∀ {k₁}, Growing L d lo a [m] k₀ k₁ → ¬ present (pteAt k₁.mem.entry d a) := by
    intro k₁ h₁
    rw [h₁.old a (lt_trans ha (by decide)) fun hin => absurd hin.2 (Nat.lt_irrefl a)]
    exact habs
  rw [mappages_one hal ha, mapLoop, StateT.run_bind]
  rcases walkpgdirAlloc_cases d a k with ⟨hp, hrun⟩ | ⟨hno, ⟨t, rest, hfree, hrun⟩ | ⟨ds, -, hrun⟩⟩
  · right
    rw [mappage_run hrun hp (hold h)]
    exact ⟨_, rfl, h.map ha hal hlo hp⟩
  · right
    have hlink := h.link ha.le hfree (PDX_lt a) hno
    have ht := (h.space.free t (hfree ▸ List.mem_cons_self)).1.1
    obtain ⟨hp, haddr⟩ := linkTable_walk k d (PDX a) rest ht
    rw [mappage_run (hrun.trans (by rw [haddr])) hp (hold hlink)]
    exact ⟨_, rfl, hlink.map ha hal hlo hp⟩
  · left
    rw [mappage, StateT.run_bind, hrun]
    exact ⟨_, rfl, h.deny ds⟩

/-! ### Undoing -/

section Undo
variable {hi : Nat} {k' k'' : Kmem} (h : Growing L d lo a loose k₀ k) (hf : Freed d lo hi k k') (ha : a ≤ hi)
  (hhi : hi ≤ KERNBASE) (hno : ∀ va, lo ≤ va → va < hi → ¬ present (pteAt k₀.mem.entry d va))
include h hf ha hhi hno

omit hf ha in
/-- The pages present in the range are the new ones. -/
theorem present_iff_new {va : Nat} (h1 : lo ≤ va) (h2 : va < hi) : present (pteAt k.mem.entry d va) ↔ va < a := by
  constructor
  · intro hp
    by_contra hge
    rw [h.old va (by unfold WORD KERNBASE at *; omega) fun hin => hge hin.2] at hp
    exact hno va h1 h2 hp
  · exact fun hlt => (h.new va h1 hlt).1

omit hhi in
/-- The translation is the old one again. -/
theorem mapping_undone {va : Nat} (hva : va < WORD) :
    present (pteAt k'.mem.entry d va) = present (pteAt k₀.mem.entry d va) ∧
      (present (pteAt k₀.mem.entry d va) → pteAt k'.mem.entry d va = pteAt k₀.mem.entry d va) := by
  rw [hf.pte va hva]
  by_cases hin : lo ≤ va ∧ va < hi
  · have hno' := hno va hin.1 hin.2
    refine ⟨?_, fun hp => absurd hp hno'⟩
    rw [Bool.eq_false_iff.mpr hno']
    split
    case isTrue => exact Bool.eq_false_iff.mpr not_present_zero
    case isFalse hp => exact Bool.eq_false_iff.mpr fun hp' => hp ⟨hin.1, hin.2, hp'⟩
  · have hout : ¬ (lo ≤ va ∧ va < a) := fun h' => hin ⟨h'.1, lt_of_lt_of_le h'.2 ha⟩
    rw [if_neg fun h' => hin ⟨h'.1, h'.2.1⟩, h.old va hva hout]
    exact ⟨rfl, fun _ => rfl⟩

/-- What is on the free list, when the page in hand is given back too. -/
theorem mem_free_undone (hfree : k''.freelist = loose ++ k'.freelist) (f : Nat) : f ∈ k''.freelist ↔
    f ∈ loose ∨ f ∈ k.freelist ∨ ∃ va, lo ≤ va ∧ va < a ∧ PTE_ADDR (pteAt k.mem.entry d va) = f := by
  obtain ⟨fs, -, hfs, hmem⟩ := hf.once
  rw [hfree, hfs, List.mem_append, List.mem_append, hmem, or_comm (b := f ∈ k.freelist)]
  refine or_congr_right (or_congr_right (exists_congr fun va => ?_))
  constructor
  · rintro ⟨h1, h2, hp, heq⟩
    exact ⟨h1, (h.present_iff_new hhi hno h1 h2).mp hp, heq⟩
  · rintro ⟨h1, h2, heq⟩
    exact ⟨h1, lt_of_lt_of_le h2 ha, (h.new va h1 h2).1, heq⟩

omit ha hno in
theorem nodup_free_undone (hloose : loose.Nodup) (hfree : k''.freelist = loose ++ k'.freelist) : k''.freelist.Nodup := by
  obtain ⟨fs, hnodup, hfs, hmem⟩ := hf.once
  have hpage : ∀ f, Apart k.mem.entry d f → f ∉ fs := by
    intro f hapart hin
    obtain ⟨va, h1, h2, hp, heq⟩ := (hmem f).mp hin
    exact hapart.page va (lt_of_lt_of_le h2 hhi) hp heq
  rw [hfree, hfs]
  apply hloose.append
  · apply hnodup.append h.space.nodup
    exact fun f hin hf' => hpage f (h.space.free f hf').2 hin
  · intro f hin hf'
    obtain ⟨⟨-, hapart⟩, hout, -⟩ := h.held f hin
    rcases List.mem_append.mp hf' with hf' | hf'
    · exact hpage f hapart hf'
    · exact hout hf'

theorem undone (hloose : loose.Nodup) (h₀ : k₀.freelist.Nodup) (hfree : k''.freelist = loose ++ k'.freelist)
    (hdir : k''.mem.entry d = k'.mem.entry d) (hpte : pteAt k''.mem.entry d = pteAt k'.mem.entry d)
    (hbyte : ∀ x, (∀ f ∈ loose, ¬ InPage f x) → k''.mem.byte x = k'.mem.byte x) : Undone d k₀ k'' := by
  have hdir' : k''.mem.entry d = k.mem.entry d := hdir.trans hf.dir
  have hmapping : ∀ va < WORD, present (pteAt k''.mem.entry d va) = present (pteAt k₀.mem.entry d va) ∧
      (present (pteAt k₀.mem.entry d va) → pteAt k''.mem.entry d va = pteAt k₀.mem.entry d va) := by
    rw [hpte]
    exact fun va hva => h.mapping_undone hf ha hno hva
  have hmem := h.mem_free_undone hf ha hhi hno hfree
  have hnodup := h.nodup_free_undone hf hhi hloose hfree
  have htables : ∀ f, NewTable d k₀ k'' f ↔ NewTable d k₀ k f := by
    intro f
    unfold NewTable
    rw [hdir']
  -- a new page table is neither free nor loose nor a user page
  have htable : ∀ f, f ∈ k₀.freelist ∧ f ∉ k''.freelist ↔ NewTable d k₀ k'' f := by
    intro f
    rw [htables f, h.free f, hmem f]
    constructor
    · rintro ⟨hin | hin | hnew | hin, hout⟩
      · exact absurd (.inl hin) hout
      · exact absurd (.inr (.inl hin)) hout
      · exact hnew
      · exact absurd (.inr (.inr hin)) hout
    · intro hnew
      refine ⟨.inr (.inr (.inl hnew)), ?_⟩
      obtain ⟨i, hi', -, hp, heq⟩ := hnew
      rintro (hin | hin | ⟨va, h1, h2, heq'⟩)
      · exact (h.held f hin).1.2.table i hi' hp heq
      · exact (h.space.free f hin).2.table i hi' hp heq
      · have hva : va < KERNBASE := lt_of_lt_of_le h2 (le_trans ha hhi)
        exact (h.space.user.apart va hva (h.new va h1 h2).1).2 i hi' hp (heq.trans heq'.symm)
  refine ⟨hmapping, ?_, ?_, ?_⟩
  · intro i hi' hp
    rw [hdir']
    exact h.dir i hi' hp
  · refine ⟨k₀.freelist.filter fun f => f ∉ k''.freelist, ?_, ?_, ?_⟩
    · apply (List.perm_ext_iff_of_nodup h₀ ?_).mpr
      · intro f
        rw [List.mem_append, List.mem_filter, decide_eq_true_iff]
        have hsub : f ∈ k''.freelist → f ∈ k₀.freelist := by
          intro hin
          rw [h.free f]
          rcases (hmem f).mp hin with hin | hin | hin
          · exact .inl hin
          · exact .inr (.inl hin)
          · exact .inr (.inr (.inr hin))
        by_cases hin : f ∈ k''.freelist
        · exact ⟨fun _ => .inr hin, fun _ => hsub hin⟩
        · exact ⟨fun hf₀ => .inl ⟨hf₀, hin⟩, fun hor => (hor.resolve_right hin).1⟩
      · apply (h₀.filter _).append hnodup
        intro f hin hin'
        exact absurd hin' (of_decide_eq_true (List.mem_filter.mp hin).2)
    · intro f
      rw [List.mem_filter, decide_eq_true_iff]
      exact htable f
    · intro f hin j hj hp
      rw [List.mem_filter, decide_eq_true_iff, htable f] at hin
      obtain ⟨i, hi', habs, hpi, rfl⟩ := hin
      -- the address of entry `j` of that table
      obtain ⟨va, hva, rfl, rfl⟩ : ∃ va < WORD, PDX va = i ∧ PTX va = j := by
        refine ⟨i * 2 ^ 22 + j * 2 ^ 12, ?_⟩
        unfold PDX PTX WORD NPDENTRIES NPTENTRIES at *
        omega
      have hsame := (hmapping va hva).1
      rw [pteAt_table hpi, pteAt_noTable habs, hp] at hsame
      exact absurd hsame.symm not_present_zero
  · intro x hx
    rw [hbyte x fun f hin => hx f ((h.free f).mpr (.inl hin)), hf.byte x, h.byte x hx]
    intro va h1 h2 hp
    have hlt := (h.present_iff_new hhi hno h1 h2).mp hp
    exact hx _ ((h.free _).mpr (.inr (.inr (.inr ⟨va, h1, hlt, rfl⟩))))

end Undo

theorem extended {hi : Nat} (h : Growing L d lo hi [] k₀ k) (hhi : hi ≤ KERNBASE) : Extended d lo hi k₀ k := by
  refine ⟨?_, ?_, h.old⟩
  · intro va h1 h2
    obtain ⟨hp, hflags, hzero⟩ := h.new va h1 h2
    exact ⟨hp, hflags, (h.free _).mpr (.inr (.inr (.inr ⟨va, h1, h2, rfl⟩))), hzero⟩
  · intro va va' h1 h2 h1' h2' hne
    exact h.space.user.distinct va (lt_of_lt_of_le h2 hhi) va' (lt_of_lt_of_le h2' hhi) (h.new va h1 h2).1
      (h.new va' h1' h2').1 hne

end Growing

/-! ### The loop -/

section Loop
variable {L : Layout} {d oldsz newsz : Nat} {k₀ : Kmem}

/-- What `allocuvm` may return. -/
def Contract (d oldsz newsz : Nat) (k : Kmem) : Except String (Nat × Kmem) → Prop
  | .ok (r, k') => r = 0 ∧ Undone d k k' ∨ r = newsz ∧ Extended d (PGROUNDUP oldsz) (PGROUNDUP newsz) k k'
  | .error _ => False

variable (h₀ : k₀.freelist.Nodup) (hlt : oldsz < newsz) (hnew : newsz < KERNBASE)
  (hno : ∀ va, PGROUNDUP oldsz ≤ va → va < PGROUNDUP newsz → ¬ present (pteAt k₀.mem.entry d va))
include h₀ hlt hnew hno

theorem undo_noPage {a : Nat} {k : Kmem} (ha : a ≤ PGROUNDUP newsz)
    (h : Growing L d (PGROUNDUP oldsz) a [] k₀ k) : ∃ k', (deallocuvm L d newsz oldsz).run k = .ok (oldsz, k') ∧
      Undone d k₀ k' := by
  obtain ⟨k', -, hrun, hfreed⟩ := deallocuvm_freed h.space.user hlt hnew.le
  exact ⟨k', hrun, h.undone hfreed ha (PGROUNDUP_le hnew.le).1 hno List.nodup_nil h₀ rfl rfl rfl fun _ _ => rfl⟩

/-- `kalloc` has failed for a page table: the data page goes back too. -/
theorem undo_noTable {a m : Nat} {k : Kmem} (ha : a ≤ PGROUNDUP newsz)
    (h : Growing L d (PGROUNDUP oldsz) a [m] k₀ k) : ∃ k' k'', (deallocuvm L d newsz oldsz).run k = .ok (oldsz, k') ∧
      (kfree L m).run k' = .ok ((), k'') ∧ Undone d k₀ k'' := by
  obtain ⟨⟨hframe, hapart⟩, -, -⟩ := h.held m (List.mem_singleton_self m)
  obtain ⟨k', -, hrun, hfreed⟩ := deallocuvm_freed h.space.user hlt hnew.le
  have hapart' : Apart k'.mem.entry d m := by
    refine ⟨hapart.dir, ?_, fun va hva hp => ?_⟩
    · rw [hfreed.dir]
      exact hapart.table
    · rw [hfreed.pte va (lt_trans hva (by decide))] at hp ⊢
      split at hp
      case isTrue => exact absurd hp not_present_zero
      case isFalse hne =>
        rw [if_neg hne]
        exact hapart.page va hva hp
  refine ⟨k', _, hrun, kfree_run hframe, ?_⟩
  refine h.undone hfreed ha (PGROUNDUP_le hnew.le).1 hno (List.nodup_singleton m) h₀ rfl (fill_dir hapart')
    (pteAt_fill hapart') fun x hx => ?_
  exact if_neg (hx m (List.mem_singleton_self m))

omit h₀ hlt hnew hno in
theorem allocLoop_noPage {n a : Nat} {k k₁ k₂ : Kmem} (hkalloc : kalloc.run k = .ok (none, k₁))
    (hdealloc : (deallocuvm L d newsz oldsz).run k₁ = .ok (oldsz, k₂)) :
    (allocLoop L d oldsz newsz (n + 1) a).run k = .ok (0, k₂) := by
  rw [allocLoop, run_bind_of_ok hkalloc]
  dsimp only
  rw [run_bind_of_ok hdealloc]
  rfl

omit h₀ hlt hnew hno in
theorem allocLoop_page {n a m : Nat} {k k₁ k₂ : Kmem} {r : Int} (hkalloc : kalloc.run k = .ok (some m, k₁))
    (hmap : (mappages d a PGSIZE m (PTE_W ||| PTE_U)).run (k₁.setMem (·.fill m 0)) = .ok (r, k₂)) :
    (allocLoop L d oldsz newsz (n + 1) a).run k =
      (if r < 0 then deallocuvm L d newsz oldsz >>= fun _ => kfree L m >>= fun _ => pure 0
        else allocLoop L d oldsz newsz n (a + PGSIZE)).run k₂ := by
  rw [allocLoop, run_bind_of_ok hkalloc]
  dsimp only
  rw [run_modify_bind, run_bind_of_ok hmap]

theorem allocLoop_contract (n : Nat) {a : Nat} {k : Kmem} (hal : a % PGSIZE = 0) (hlo : PGROUNDUP oldsz ≤ a)
    (hn : a + n * PGSIZE = PGROUNDUP newsz) (h : Growing L d (PGROUNDUP oldsz) a [] k₀ k) :
    Contract d oldsz newsz k₀ ((allocLoop L d oldsz newsz n a).run k) := by
  have hhi := (PGROUNDUP_le hnew.le).1
  induction n generalizing a k with
  | zero =>
    rw [Nat.zero_mul, Nat.add_zero] at hn
    subst hn
    exact .inr ⟨rfl, h.extended hhi⟩
  | succ n ih =>
    have hnext : a + PGSIZE + n * PGSIZE = PGROUNDUP newsz := by
      rw [← hn, Nat.succ_mul]
      omega
    have ha : a < PGROUNDUP newsz :=
      lt_of_lt_of_le (Nat.lt_add_of_pos_right (by decide)) (le_trans (Nat.le_add_right _ _) hnext.le)
    rcases kalloc_run k with ⟨ds, hrun⟩ | ⟨m, rest, hfree, hrun⟩
    · obtain ⟨k', hdealloc, hundone⟩ := undo_noPage h₀ hlt hnew hno ha.le (h.deny ds)
      rw [allocLoop_noPage hrun hdealloc]
      exact .inl ⟨rfl, hundone⟩
    · have htake := h.take (le_trans ha.le hhi) k.deny.tail hfree
      rcases htake.mappages (lt_of_lt_of_le ha hhi) hal hlo (hno a hlo ha) with ⟨k', hmap, h'⟩ | ⟨k', hmap, h'⟩
      · obtain ⟨k₁, k₂, hdealloc, hkfree, hundone⟩ := undo_noTable h₀ hlt hnew hno ha.le h'
        rw [allocLoop_page hrun hmap, if_pos (by decide), run_bind_of_ok hdealloc, run_bind_of_ok hkfree]
        exact .inl ⟨rfl, hundone⟩
      · rw [allocLoop_page hrun hmap, if_neg (by decide)]
        have hal' : (a + PGSIZE) % PGSIZE = 0 := by rw [Nat.add_mod_right, hal]
        exact ih hal' (le_trans hlo (Nat.le_add_right a PGSIZE)) hnext h'

end Loop

/-- Wherever `kalloc` fails, `allocuvm` undoes what it has done; otherwise it maps zeroed frames. -/
theorem allocuvm_contract {L : Layout} {d oldsz newsz : Nat} {k : Kmem} (hk : Space L d k) (hlt : oldsz < newsz)
    (hnew : newsz < KERNBASE)
    (hno : ∀ va, PGROUNDUP oldsz ≤ va → va < newsz → ¬ present (pteAt k.mem.entry d va)) :
    ∃ r k', (allocuvm L d oldsz newsz).run k = .ok (r, k') ∧
      (r = 0 ∧ Undone d k k' ∨ r = newsz ∧ Extended d (PGROUNDUP oldsz) (PGROUNDUP newsz) k k') := by
  have hno' : ∀ va, PGROUNDUP oldsz ≤ va → va < PGROUNDUP newsz → ¬ present (pteAt k.mem.entry d va) := by
    intro va h1 h2
    -- the page of `va` starts below `newsz`
    have hpage : PGROUNDUP oldsz ≤ PGROUNDDOWN va ∧ PGROUNDDOWN va < newsz := by
      unfold PGROUNDUP PGROUNDDOWN PGSIZE WORD KERNBASE at *
      omega
    have hsame : SamePage va (PGROUNDDOWN va) := ⟨(PDX_PGROUNDDOWN va).symm, (PTX_PGROUNDDOWN va).symm⟩
    rw [pteAt_of_samePage hsame]
    exact hno _ hpage.1 hpage.2
  have hloop := allocLoop_contract (L := L) hk.nodup hlt hnew hno' _ (PGROUNDUP_mod oldsz) le_rfl
    (PGROUNDUP_grow hlt.le hnew) (.start hk)
  have hrun : (allocuvm L d oldsz newsz).run k =
      (allocLoop L d oldsz newsz (pagesIn (PGROUNDUP oldsz) newsz) (PGROUNDUP oldsz)).run k := by
    rw [allocuvm, if_neg (Nat.not_le.mpr hnew), if_neg (Nat.not_lt.mpr hlt.le)]
  rw [hrun]
  cases hr : (allocLoop L d oldsz newsz (pagesIn (PGROUNDUP oldsz) newsz) (PGROUNDUP oldsz)).run k with
  | error e =>
    rw [hr] at hloop
    exact hloop.elim
  | ok r =>
    rw [hr] at hloop
    exact ⟨r.1, r.2, rfl, hloop⟩

/-- An empty directory at `0x200000` and three free pages, of which the third will be refused. -/
def bare : Kmem := ⟨⟨fun _ _ => 0, fun _ => 0⟩, [0x201000, 0x202000, 0x203000], [false, false, true]⟩

theorem pteAt_bare (va : Nat) : pteAt bare.mem.entry 0x200000 va = 0 := pteAt_noTable not_present_zero

theorem space_bare : Space sampleLayout 0x200000 bare := by
  have hnone : ∀ va, ¬ present (pteAt bare.mem.entry 0x200000 va) := by
    intro va
    rw [pteAt_bare]
    exact not_present_zero
  have hempty : ∀ i, ¬ present (bare.mem.entry 0x200000 i) := fun i => not_present_zero
  refine ⟨⟨⟨fun i _ hp => absurd hp (hempty i), fun i _ j _ hp => absurd hp (hempty i)⟩,
    fun va _ hp => absurd hp (hnone va), fun va _ va' _ hp => absurd hp (hnone va),
    fun va _ hp => absurd hp (hnone va)⟩, ?_, by decide⟩
  intro f hf
  have hframe : f % PGSIZE = 0 ∧ sampleLayout.endp ≤ f ∧ f < PHYSTOP ∧ f ≠ 0x200000 := by
    revert f
    decide
  exact ⟨⟨hframe.1, hframe.2.1, hframe.2.2.1⟩, hframe.2.2.2, fun i _ hp => absurd hp (hempty i),
    fun va _ hp => absurd hp (hnone va)⟩

/-- Two pages are asked for, and the second one is refused. -/
theorem allocuvm_contract_bare : ∃ r k', (allocuvm sampleLayout 0x200000 0 0x2000).run bare = .ok (r, k') ∧
    (r = 0 ∧ Undone 0x200000 bare k' ∨ r = 0x2000 ∧ Extended 0x200000 (PGROUNDUP 0) (PGROUNDUP 0x2000) bare k') := by
  refine allocuvm_contract space_bare (by decide) (by decide) fun va _ _ => ?_
  rw [pteAt_bare]
  exact not_present_zero

end Chameleon.Vm
