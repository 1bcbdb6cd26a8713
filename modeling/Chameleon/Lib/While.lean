import Mathlib.Logic.Function.Basic

/-! Loops `while c do f` with a bound on the number of rounds. -/

/-- With every bound beyond some `N`, the program `x` returns `a`. -/
def Returns {α : Type*} (x : Nat → Option α) (a : α) : Prop := ∃ N, ∀ n ≥ N, x n = some a

section Returns
variable {α β : Type*} {x : Nat → Option α} {a : α} {b : β}

theorem Returns.bind {f : Nat → α → Option β} (hx : Returns x a) (hf : Returns (fun n => f n a) b) :
    Returns (fun n => (x n).bind (f n)) b := by
  obtain ⟨N, hN⟩ := hx
  obtain ⟨M, hM⟩ := hf
  refine ⟨max N M, fun n hn => ?_⟩
  show (x n).bind (f n) = some b
  rw [hN n (Nat.le_trans (Nat.le_max_left N M) hn), Option.bind_some]
  exact hM n (Nat.le_trans (Nat.le_max_right N M) hn)

theorem Returns.map (hx : Returns x a) (f : α → β) : Returns (fun n => (x n).map f) (f a) := by
  obtain ⟨N, hN⟩ := hx
  refine ⟨N, fun n hn => ?_⟩
  show (x n).map f = some (f a)
  rw [hN n hn, Option.map_some]

end Returns

namespace While
variable {σ : Type*} {c : σ → Bool} {f : σ → σ} {s t : σ}

/-- The state in which the loop ends, or `none` when it is still running after `n` tests. -/
def run (c : σ → Bool) (f : σ → σ) : Nat → σ → Option σ
  | 0, _ => none
  | n + 1, s => if c s then run c f n (f s) else some s

def Ends (c : σ → Bool) (f : σ → σ) (s t : σ) : Prop := Returns (fun n => run c f n s) t

theorem Ends.stop (hc : c s = false) : Ends c f s s := by
  refine ⟨1, fun n hn => ?_⟩
  obtain ⟨k, rfl⟩ := Nat.exists_eq_add_of_le' hn
  show (if c s then run c f k (f s) else some s) = some s
  rw [if_neg (by simp [hc])]

theorem Ends.round (hc : c s = true) (h : Ends c f (f s) t) : Ends c f s t := by
  obtain ⟨N, hN⟩ := h
  refine ⟨N + 1, fun n hn => ?_⟩
  obtain ⟨k, rfl⟩ := Nat.exists_eq_add_of_le' (Nat.le_trans (Nat.le_add_left 1 N) hn)
  show (if c s then run c f k (f s) else some s) = some t
  rw [if_pos hc]
  exact hN k (Nat.le_of_add_le_add_right hn)

end While
