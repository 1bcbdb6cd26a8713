import Mathlib.Data.Multiset.AddSub
import Mathlib.Data.Multiset.UnionInter
import Mathlib.Algebra.Order.Group.Multiset
import Mathlib.Algebra.BigOperators.Group.Finset.Basic
import Mathlib.Tactic.Abel

/-! Accounting for the cells of a store. A region says which cells a part of the system owns,
as a multiset read off the store itself, so that a cell owned twice is counted twice. A
region depends on its own cells only; regions add up, and a balance equates their sum and the
free cells with a fixed total. -/

/-- A part of the system that owns cells of a store, with a property of their contents. -/
@[ext] structure Region (ι C : Type*) where
  cells : (ι → C) → Multiset ι
  sound : (ι → C) → Prop
  frame : ∀ s s', (∀ i ∈ cells s, s' i = s i) → cells s' = cells s ∧ (sound s → sound s')

namespace Region
variable {ι C : Type*}

instance : Zero (Region ι C) := ⟨⟨fun _ => 0, fun _ => True, fun _ _ _ => ⟨rfl, id⟩⟩⟩

instance : Add (Region ι C) where
  add A B :=
    { cells := fun s => A.cells s + B.cells s
      sound := fun s => A.sound s ∧ B.sound s
      frame := by
        intro s s' h
        have hA := A.frame s s' fun i hi => h i (Multiset.mem_add.mpr (.inl hi))
        have hB := B.frame s s' fun i hi => h i (Multiset.mem_add.mpr (.inr hi))
        exact ⟨by rw [hA.1, hB.1], fun hs => ⟨hA.2 hs.1, hB.2 hs.2⟩⟩ }

@[simp] theorem cells_zero (s : ι → C) : (0 : Region ι C).cells s = 0 := rfl
@[simp] theorem sound_zero (s : ι → C) : (0 : Region ι C).sound s := trivial
@[simp] theorem cells_add (A B : Region ι C) (s : ι → C) : (A + B).cells s = A.cells s + B.cells s := rfl
@[simp] theorem sound_add (A B : Region ι C) (s : ι → C) : (A + B).sound s ↔ A.sound s ∧ B.sound s :=
  Iff.rfl

instance : AddCommMonoid (Region ι C) where
  nsmul := nsmulRec
  add_assoc A B D := by
    ext s
    · simp [add_assoc]
    · simp [and_assoc]
  add_comm A B := by
    ext s
    · simp [add_comm]
    · simp [and_comm]
  zero_add A := by ext s <;> simp
  add_zero A := by ext s <;> simp

/-- Fixed cells, whatever they hold. -/
def fixed (M : Multiset ι) : Region ι C := ⟨fun _ => M, fun _ => True, fun _ _ _ => ⟨rfl, id⟩⟩

@[simp] theorem cells_fixed (M : Multiset ι) (s : ι → C) : (fixed M : Region ι C).cells s = M := rfl
@[simp] theorem sound_fixed (M : Multiset ι) (s : ι → C) : (fixed M : Region ι C).sound s := trivial

theorem fixed_zero : (fixed 0 : Region ι C) = 0 := rfl

theorem fixed_add (M N : Multiset ι) : (fixed (M + N) : Region ι C) = fixed M + fixed N := by
  ext s <;> simp

/-- One cell. -/
abbrev single (i : ι) : Region ι C := fixed {i}

theorem cells_sum {κ : Type*} (t : Finset κ) (A : κ → Region ι C) (s : ι → C) :
    (∑ k ∈ t, A k).cells s = ∑ k ∈ t, (A k).cells s := by
  classical
  induction t using Finset.induction_on with
  | empty => rfl
  | insert k t hk ih => rw [Finset.sum_insert hk, Finset.sum_insert hk, cells_add, ih]

theorem sound_sum {κ : Type*} (t : Finset κ) (A : κ → Region ι C) (s : ι → C) :
    (∑ k ∈ t, A k).sound s ↔ ∀ k ∈ t, (A k).sound s := by
  classical
  induction t using Finset.induction_on with
  | empty => simp
  | insert k t hk ih => rw [Finset.sum_insert hk, sound_add, ih, Finset.forall_mem_insert]

/-- The cells `M`, which keep the contents they have in `s₀`. -/
def frozen (M : Multiset ι) (s₀ : ι → C) : Region ι C where
  cells _ := M
  sound s := ∀ i ∈ M, s i = s₀ i
  frame _ _ h := ⟨rfl, fun hs i hi => (h i hi).trans (hs i hi)⟩

/-- The cells of a region and the free cells make up the total. -/
structure Balanced (T : Multiset ι) (A : Region ι C) (s : ι → C) (free : Multiset ι) : Prop where
  total : A.cells s + free = T
  sound : A.sound s

namespace Balanced
variable {T : Multiset ι} {A B R : Region ι C} {s s' : ι → C} {free : Multiset ι} {i : ι}

theorem take (h : Balanced T A s (i ::ₘ free)) : Balanced T (single i + A) s free where
  total := by
    rw [← h.total, ← Multiset.singleton_add, cells_add, cells_fixed]
    abel
  sound := ⟨trivial, h.sound⟩

theorem give (h : Balanced T (single i + A) s free) : Balanced T A s (i ::ₘ free) where
  total := by
    rw [← h.total, ← Multiset.singleton_add, cells_add, cells_fixed]
    abel
  sound := h.sound.2

theorem nodup_cells (h : Balanced T A s free) (hT : T.Nodup) : (A.cells s).Nodup :=
  Multiset.nodup_of_le (Multiset.le_add_right _ free) (h.total ▸ hT)

theorem free_le (h : Balanced T A s free) : free ≤ T := h.total ▸ Multiset.le_add_left _ _

theorem mem_total (h : Balanced T A s free) (hi : i ∈ A.cells s) : i ∈ T := by
  rw [← h.total]
  exact Multiset.mem_add.mpr (.inl hi)

/-- A change inside the cells of `A` leaves every other part of the system as it was. -/
theorem exchange (h : Balanced T (A + R) s free) (hT : T.Nodup)
    (hs : ∀ i, i ∉ A.cells s → s' i = s i) (hcells : B.cells s' = A.cells s)
    (hsound : A.sound s → B.sound s') : Balanced T (B + R) s' free := by
  have hdisj := (Multiset.nodup_add.mp (h.nodup_cells hT)).2.2
  have hR := R.frame s s' fun i hi => hs i fun hA => Multiset.disjoint_left.mp hdisj hA hi
  refine ⟨?_, hsound h.sound.1, hR.2 h.sound.2⟩
  rw [← h.total, cells_add, cells_add, hcells, hR.1]

/-- The contents of a single owned cell do not matter. -/
theorem write [DecidableEq ι] (h : Balanced T (single i + R) s free) (hT : T.Nodup) (c : C) :
    Balanced T (single i + R) (Function.update s i c) free :=
  h.exchange hT (fun _ hj => Function.update_of_ne (fun e => hj (Multiset.mem_singleton.mpr e)) _ _)
    rfl id

/-- A part of the system that a change does not touch may be taken to be frozen. -/
theorem freeze (h : Balanced T (A + R) s free) : Balanced T (A + frozen (R.cells s) s) s free :=
  ⟨h.total, h.sound.1, fun _ _ => rfl⟩

theorem thaw {s₀ : ι → C} (h : Balanced T (A + frozen (R.cells s₀) s₀) s free) (hR : R.sound s₀) :
    Balanced T (A + R) s free := by
  have hframe := R.frame s₀ s h.sound.2
  refine ⟨?_, h.sound.1, hframe.2 hR⟩
  rw [cells_add, hframe.1]
  exact h.total

end Balanced
end Region
