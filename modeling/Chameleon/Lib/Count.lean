import Mathlib.Algebra.BigOperators.Group.Finset.Basic
import Mathlib.Algebra.Order.BigOperators.Group.Finset
import Mathlib.Data.Fintype.Basic

/-! Counting over a finite table: what one changed row does to a sum over all of them. -/

namespace Count
variable {ι α : Type*} [Fintype ι]

/-- One row counts at most as much as all of them. -/
theorem le_sum (h : ι → Nat) (i : ι) : h i ≤ ∑ j, h j :=
  Finset.single_le_sum (fun _ _ => Nat.zero_le _) (Finset.mem_univ i)

theorem sum_pos {h : ι → Nat} {i : ι} (hi : 0 < h i) : 0 < ∑ j, h j :=
  hi.trans_le (le_sum h i)

variable [DecidableEq ι]

theorem sum_update (f : ι → α) (i : ι) (x : α) (h : α → Nat) :
    ∑ j, h (Function.update f i x j) + h (f i) = ∑ j, h (f j) + h x := by
  have hi : i ∈ (Finset.univ : Finset ι) := Finset.mem_univ i
  rw [← Finset.add_sum_erase _ _ hi, ← Finset.add_sum_erase Finset.univ (fun j => h (f j)) hi,
    Function.update_self]
  have hrest : ∑ j ∈ Finset.univ.erase i, h (Function.update f i x j) =
      ∑ j ∈ Finset.univ.erase i, h (f j) :=
    Finset.sum_congr rfl fun j hj => by rw [Function.update_of_ne (Finset.ne_of_mem_erase hj)]
  omega

end Count
