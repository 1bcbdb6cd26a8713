import Mathlib.Data.List.Basic
import Mathlib.Dynamics.PeriodicPts.Defs

/-! Circular singly linked lists, given by the successor of each node. A cycle may be read from any
of its nodes, so an update next to a node is stated for the cycle that starts there. -/

namespace Circular
variable {α : Type*} {next next' : α → α} {a b z : α} {l l₁ l₂ : List α}

/-- The successors lead from `a` through `l` to `z`. -/
def Path (next : α → α) : α → List α → α → Prop
  | a, [], z => next a = z
  | a, b :: l, z => next a = b ∧ Path next b l z

/-- The successors lead once around `l`. -/
def Cyc (next : α → α) : List α → Prop
  | [] => False
  | a :: l => Path next a l a

theorem path_append :
    Path next a (l₁ ++ b :: l₂) z ↔ Path next a l₁ b ∧ Path next b l₂ z := by
  induction l₁ generalizing a with
  | nil => exact Iff.rfl
  | cons c l₁ ih => simp only [List.cons_append, Path, ih, and_assoc]

theorem Path.congr (h : Path next a l z) (ha : next' a = next a)
    (hl : ∀ x ∈ l, next' x = next x) : Path next' a l z := by
  induction l generalizing a with
  | nil => exact ha.trans h
  | cons b l ih =>
    rw [List.forall_mem_cons] at hl
    exact ⟨ha.trans h.1, ih h.2 hl.1 hl.2⟩

/-- A node that takes over the successor of another one continues as that one did. -/
theorem Path.relay (h : Path next a l z) (hb : next' b = next a)
    (hl : ∀ x ∈ l, next' x = next x) : Path next' b l z := by
  cases l with
  | nil => exact hb.trans h
  | cons c l =>
    rw [List.forall_mem_cons] at hl
    exact ⟨hb.trans h.1, h.2.congr hl.1 hl.2⟩

theorem Path.next_eq (h : Path next a l z) : next a = (l ++ [z]).head (by simp) := by
  cases l with
  | nil => exact h
  | cons b l => exact h.1

theorem Cyc.rotate (h : Cyc next (l₁ ++ l₂)) : Cyc next (l₂ ++ l₁) := by
  cases l₁ with
  | nil => rwa [List.append_nil]
  | cons a l₁ =>
    cases l₂ with
    | nil => rwa [List.append_nil] at h
    | cons b l₂ =>
      obtain ⟨hab, hba⟩ := path_append.mp h
      exact path_append.mpr ⟨hba, hab⟩

theorem Cyc.next_mem (h : Cyc next l) (ha : a ∈ l) : next a ∈ l := by
  obtain ⟨l₁, l₂, rfl⟩ := List.append_of_mem ha
  have hpath : Path next a (l₂ ++ l₁) a := h.rotate
  rw [hpath.next_eq]
  have hmem := List.head_mem (l := l₂ ++ l₁ ++ [a]) (by simp)
  simp only [List.mem_append, List.mem_cons, List.not_mem_nil, or_false] at hmem ⊢
  tauto

section Turn
variable {x : α} {P : α → Prop}

theorem Path.iterate (h : Path next a l z) (hx : x ∈ a :: l) : ∃ k ≤ l.length, next^[k] a = x := by
  induction l generalizing a with
  | nil =>
    rw [List.mem_singleton] at hx
    exact ⟨0, Nat.le_refl 0, hx.symm⟩
  | cons b l ih =>
    rcases List.mem_cons.mp hx with rfl | hx
    · exact ⟨0, Nat.zero_le _, rfl⟩
    · obtain ⟨k, hk, heq⟩ := ih h.2 hx
      refine ⟨k + 1, Nat.succ_le_succ hk, ?_⟩
      rw [Function.iterate_succ_apply, h.1, heq]

theorem Cyc.path (h : Cyc next l) (ha : a ∈ l) :
    ∃ l', Path next a l' a ∧ l'.length < l.length ∧ ∀ x, x ∈ a :: l' ↔ x ∈ l := by
  obtain ⟨l₁, l₂, rfl⟩ := List.append_of_mem ha
  refine ⟨l₂ ++ l₁, h.rotate, ?_, fun x => ?_⟩
  · simp only [List.length_append, List.length_cons]
    omega
  · simp only [List.mem_cons, List.mem_append]
    tauto

theorem Cyc.iterate_mem (h : Cyc next l) (ha : a ∈ l) (k : Nat) : next^[k] a ∈ l := by
  induction k with
  | zero => exact ha
  | succ k ih =>
    rw [Function.iterate_succ_apply']
    exact h.next_mem ih

/-- The first node with `P`, when the search begins at `a`. -/
theorem Cyc.first (h : Cyc next l) (ha : a ∈ l) (hx : x ∈ l) (hP : P x) :
    ∃ k < l.length, P (next^[k] a) ∧ ∀ i < k, ¬ P (next^[i] a) := by
  classical
  obtain ⟨l', hpath, hlen, hmem⟩ := h.path ha
  obtain ⟨k, hk, rfl⟩ := hpath.iterate ((hmem x).mpr hx)
  have hex : ∃ k, P (next^[k] a) := ⟨k, hP⟩
  refine ⟨Nat.find hex, ?_, Nat.find_spec hex, fun i hi => Nat.find_min hex hi⟩
  exact Nat.lt_of_le_of_lt (Nat.find_min' hex hP) (Nat.lt_of_le_of_lt hk hlen)

/-- The first node with `P` behind `a`. It is reached before the cycle comes back to `a`, or
there. -/
theorem Cyc.ahead (h : Cyc next l) (ha : a ∈ l) (hx : x ∈ l) (hP : P x) :
    ∃ k < l.length, P (next^[k + 1] a) ∧
      ∀ i < k, ¬ P (next^[i + 1] a) ∧ next^[i + 1] a ≠ a := by
  obtain ⟨k, hk, hstop, hbefore⟩ := h.first (h.next_mem ha) hx hP
  simp only [← Function.iterate_succ_apply] at hstop hbefore
  refine ⟨k, hk, hstop, fun i hi => ⟨hbefore i hi, fun hback => ?_⟩⟩
  -- after a turn of `i + 1` nodes the search would have met the node already
  have hmod := (show Function.IsPeriodicPt next (i + 1) a from hback).iterate_mod_apply (k + 1)
  have hlt := Nat.mod_lt (k + 1) (Nat.succ_pos i)
  rw [← hmod] at hstop
  rcases Nat.eq_zero_or_pos ((k + 1) % (i + 1)) with h0 | hpos
  · rw [h0] at hstop
    exact hbefore i hi (hback.symm ▸ hstop)
  · obtain ⟨j, hj⟩ := Nat.exists_eq_add_of_lt hpos
    rw [hj, Nat.zero_add] at hstop hlt
    exact hbefore j (by omega) hstop

end Turn

end Circular
