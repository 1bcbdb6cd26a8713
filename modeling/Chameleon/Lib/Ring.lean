import Mathlib.Logic.Function.Basic
import Mathlib.Data.List.Basic
import Mathlib.Data.Nat.ModEq

/-! Ring buffers with two free-running counters. The cells are indexed by a counter modulo the
capacity `N`; the counters themselves are kept modulo some larger `M`. -/

namespace Ring
variable {α : Type*} {N M r w : Nat} {cells : Nat → α} {xs : List α}

/-- Between the totals `r` taken and `w` stored the ring holds the string `xs`. -/
structure Holds (N : Nat) (cells : Nat → α) (r w : Nat) (xs : List α) : Prop where
  total : w = r + xs.length
  fits : xs.length ≤ N
  cell : ∀ j (h : j < xs.length), cells ((r + j) % N) = xs[j]

theorem Holds.nil (N : Nat) (cells : Nat → α) (r : Nat) : Holds N cells r r [] :=
  ⟨rfl, Nat.zero_le N, fun _ h => nomatch h⟩

/-- Two totals less than `N` apart do not share a cell. -/
theorem add_mod_ne {j k : Nat} (hjk : j < k) (hk : k - j < N) : (r + j) % N ≠ (r + k) % N := by
  intro h
  have hdvd : N ∣ (r + k) - (r + j) := (Nat.modEq_iff_dvd' (by omega)).mp h
  have hle := Nat.le_of_dvd (by omega) hdvd
  omega

theorem Holds.push (h : Holds N cells r w xs) (hroom : xs.length < N) (a : α) :
    Holds N (Function.update cells (w % N) a) r (w + 1) (xs ++ [a]) := by
  refine ⟨?_, ?_, fun j hj => ?_⟩
  · rw [h.total, List.length_append, List.length_singleton, Nat.add_assoc]
  · rw [List.length_append]
    exact hroom
  · rw [h.total]
    rcases Nat.lt_or_ge j xs.length with hlt | hge
    · rw [Function.update_of_ne (add_mod_ne hlt (by omega)), h.cell j hlt,
        List.getElem_append_left hlt]
    · obtain rfl : j = xs.length := by
        simp at hj
        omega
      rw [Function.update_self, List.getElem_concat_length rfl]

theorem Holds.pop {x : α} (h : Holds N cells r w (x :: xs)) :
    cells (r % N) = x ∧ Holds N cells (r + 1) w xs := by
  refine ⟨h.cell 0 (by simp), ?_, ?_, fun j hj => ?_⟩
  · rw [h.total, List.length_cons]
    omega
  · exact Nat.le_of_succ_le h.fits
  · have hcell := h.cell (j + 1) (by simpa using hj)
    rwa [List.getElem_cons_succ, show r + (j + 1) = r + 1 + j by omega] at hcell

/-- A held string is held part by part. -/
theorem Holds.left {ys : List α} (h : Holds N cells r w (xs ++ ys)) :
    Holds N cells r (r + xs.length) xs := by
  have hfits := h.fits
  rw [List.length_append] at hfits
  refine ⟨rfl, by omega, fun j hj => ?_⟩
  have hj' : j < (xs ++ ys).length := by rw [List.length_append]; omega
  rw [h.cell j hj', List.getElem_append_left hj]

theorem Holds.right {ys : List α} (h : Holds N cells r w (xs ++ ys)) :
    Holds N cells (r + xs.length) w ys := by
  have hfits := h.fits
  have htotal := h.total
  rw [List.length_append] at hfits htotal
  refine ⟨by omega, by omega, fun j hj => ?_⟩
  have hj' : xs.length + j < (xs ++ ys).length := by rw [List.length_append]; omega
  have hcell := h.cell (xs.length + j) hj'
  rw [Nat.add_assoc, hcell, List.getElem_append_right (by omega)]
  congr 1
  omega

/-- The held string, read from the cells. -/
theorem Holds.eq_map (h : Holds N cells r w xs) :
    xs = (List.range (w - r)).map fun j => cells ((r + j) % N) := by
  have hlen : w - r = xs.length := by
    rw [h.total]
    omega
  refine List.ext_getElem (by simp [hlen]) fun j hj _ => ?_
  simpa using (h.cell j hj).symm

/-- The counters tell an empty and a full ring apart, although they wrap around. -/
theorem Holds.empty_iff (h : Holds N cells r w xs) (hNM : N < M) : r % M = w % M ↔ xs = [] := by
  rw [← List.length_eq_zero_iff]
  refine ⟨fun heq => ?_, fun hz => by rw [h.total, hz, Nat.add_zero]⟩
  have hdvd : M ∣ w - r := (Nat.modEq_iff_dvd' (h.total ▸ Nat.le_add_right _ _)).mp heq
  have hfits := h.fits
  rw [h.total, Nat.add_sub_cancel_left] at hdvd
  exact Nat.eq_zero_of_dvd_of_lt hdvd (by omega)

theorem Holds.full_iff (h : Holds N cells r w xs) (hNM : N < M) :
    w % M = (r % M + N) % M ↔ xs.length = N := by
  rw [Nat.mod_add_mod]
  refine ⟨fun heq => ?_, fun hn => by rw [h.total, hn]⟩
  have hfits := h.fits
  have hdvd : M ∣ r + N - w := (Nat.modEq_iff_dvd' (by have := h.total; omega)).mp heq
  have := Nat.eq_zero_of_dvd_of_lt hdvd (by have := h.total; omega)
  have := h.total
  omega

/-- What the counters' difference modulo `M` says. -/
theorem Holds.sub_mod (h : Holds N cells r w xs) (hNM : N < M) :
    (M - r % M + w % M) % M = xs.length := by
  have hM : 0 < M := by omega
  have hr := Nat.mod_lt r hM
  have hmod := Nat.mod_add_div r M
  rw [h.total, Nat.add_mod_mod]
  have hsum : M - r % M + (r + xs.length) = xs.length + M * (r / M + 1) := by
    rw [Nat.mul_add, Nat.mul_one]
    omega
  rw [hsum, Nat.add_mul_mod_self_left, Nat.mod_eq_of_lt (Nat.lt_of_le_of_lt h.fits hNM)]

/-- A `uint` counts modulo `2 ^ 32`. -/
theorem counter_succ {c : UInt32} {k : Nat} (h : c.toNat = k % 2 ^ 32) :
    (c + 1).toNat = (k + 1) % 2 ^ 32 := by
  rw [UInt32.toNat_add, h]
  exact Nat.mod_add_mod k _ 1

theorem counter_pred {c : UInt32} {k : Nat} (h : c.toNat = (k + 1) % 2 ^ 32) :
    (c - 1).toNat = k % 2 ^ 32 := by
  have hone : (1 : UInt32).toNat = 1 := rfl
  rw [UInt32.toNat_sub, h, hone]
  omega

/-- The cell of a counter, for a capacity that divides `2 ^ 32`. -/
theorem counter_index {c m : UInt32} {k : Nat} (h : c.toNat = k % 2 ^ 32)
    (hm : m.toNat ∣ 2 ^ 32) : (c % m).toNat = k % m.toNat := by
  rw [UInt32.toNat_mod, h]
  exact Nat.mod_mod_of_dvd k hm

theorem counter_inj {a b : UInt32} {j k : Nat} (ha : a.toNat = j % 2 ^ 32)
    (hb : b.toNat = k % 2 ^ 32) : a = b ↔ j % 2 ^ 32 = k % 2 ^ 32 := by
  rw [← UInt32.toNat_inj, ha, hb]

end Ring
