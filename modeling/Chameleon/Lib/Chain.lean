import Mathlib.Data.List.Basic
import Mathlib.Logic.Function.Basic

/-! Singly linked lists that end with a null pointer. -/

/-- The pointer `h` leads through the nodes of `l` to a null pointer. -/
def Linked {α : Type*} (next : α → Option α) : Option α → List α → Prop
  | h, [] => h = none
  | h, a :: l => h = some a ∧ Linked next (next a) l

namespace Linked
variable {α : Type*} {next next' : α → Option α} {h : Option α} {l : List α} {a b c : α}

theorem congr (hl : Linked next h l) (hnext : ∀ x ∈ l, next' x = next x) : Linked next' h l := by
  induction l generalizing h with
  | nil => exact hl
  | cons a l ih =>
    rw [List.forall_mem_cons] at hnext
    refine ⟨hl.1, ?_⟩
    rw [hnext.1]
    exact ih hl.2 hnext.2

theorem head_eq (hl : Linked next h l) : h = l.head? := by
  cases l with
  | nil => exact hl
  | cons a l => exact hl.1

theorem next_mem (hl : Linked next h l) (ha : a ∈ l) (hb : next a = some b) : b ∈ l := by
  induction l generalizing h with
  | nil => exact absurd ha List.not_mem_nil
  | cons c l ih =>
    rcases List.mem_cons.mp ha with rfl | ha
    · have hhead := head_eq hl.2
      rw [hb] at hhead
      exact List.mem_cons_of_mem a (List.mem_of_head? hhead.symm)
    · exact List.mem_cons_of_mem c (ih hl.2 ha)

theorem last (hl : Linked next h l) (hc : c ∈ l) (hnone : next c = none) : ∃ l', l = l' ++ [c] := by
  induction l generalizing h with
  | nil => exact absurd hc List.not_mem_nil
  | cons a l ih =>
    rcases List.mem_cons.mp hc with rfl | hc
    · have htail := hl.2
      rw [hnone] at htail
      cases l with
      | nil => exact ⟨[], rfl⟩
      | cons b l => cases htail.1
    · obtain ⟨l', rfl⟩ := ih hl.2 hc
      exact ⟨a :: l', rfl⟩

theorem concat [DecidableEq α] (hl : Linked next h (l ++ [c])) (hnodup : (l ++ [c]).Nodup) (hb : b ∉ l ++ [c])
    (hnone : next b = none) : Linked (Function.update next c (some b)) h (l ++ [c] ++ [b]) := by
  induction l generalizing h with
  | nil =>
    have hbc : b ≠ c := fun heq => hb (heq ▸ List.mem_singleton_self c)
    refine ⟨hl.1, ?_, ?_⟩
    · rw [Function.update_self]
    · rw [Function.update_of_ne hbc]
      exact hnone
  | cons a l ih =>
    rw [List.cons_append, List.nodup_cons] at hnodup
    have hc : c ∈ l ++ [c] := List.mem_append_right l (List.mem_singleton_self c)
    have hac : a ≠ c := fun heq => hnodup.1 (heq ▸ hc)
    refine ⟨hl.1, ?_⟩
    rw [Function.update_of_ne hac]
    exact ih hl.2 hnodup.2 fun hmem => hb (List.mem_cons_of_mem a hmem)

end Linked
