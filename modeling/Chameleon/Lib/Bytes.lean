import Mathlib.Algebra.Ring.Nat
import Mathlib.Data.List.Basic
import Mathlib.Data.List.GetD

/-! Byte-addressed memories as functions, and stores of byte strings into them. -/

namespace Bytes

/-- Memory `m` with the string `bs` stored at address `a`. -/
def store (m : Nat → UInt8) (a : Nat) (bs : List UInt8) : Nat → UInt8 := fun x =>
  if a ≤ x ∧ x < a + bs.length then bs.getD (x - a) 0 else m x

theorem store_of_lt (m : Nat → UInt8) {a x : Nat} (bs : List UInt8) (h : x < a) :
    store m a bs x = m x := if_neg fun hx => absurd hx.1 (Nat.not_le.mpr h)

theorem store_of_le (m : Nat → UInt8) {a x : Nat} (bs : List UInt8) (h : a + bs.length ≤ x) :
    store m a bs x = m x := if_neg fun hx => absurd hx.2 (Nat.not_lt.mpr h)

theorem store_add (m : Nat → UInt8) (a : Nat) {bs : List UInt8} {i : Nat} (h : i < bs.length) :
    store m a bs (a + i) = bs[i] := by
  rw [store, if_pos ⟨Nat.le_add_right a i, Nat.add_lt_add_left h a⟩, Nat.add_sub_cancel_left,
    List.getD_eq_getElem _ _ h]

@[simp] theorem store_nil (m : Nat → UInt8) (a : Nat) : store m a [] = m := by
  funext x
  exact if_neg fun h => absurd h.2 (Nat.not_lt.mpr h.1)

/-- A string is stored byte by byte, its last byte last. -/
theorem store_concat (m : Nat → UInt8) (a : Nat) (bs : List UInt8) (b : UInt8) :
    store m a (bs ++ [b]) = Function.update (store m a bs) (a + bs.length) b := by
  funext x
  rcases Nat.lt_or_ge x a with hlt | hge
  · rw [Function.update_of_ne (by omega), store_of_lt _ _ hlt, store_of_lt _ _ hlt]
  · obtain ⟨i, rfl⟩ := Nat.exists_eq_add_of_le hge
    rcases Nat.lt_trichotomy i bs.length with hi | rfl | hi
    · have hi' : i < (bs ++ [b]).length := by simp; omega
      rw [Function.update_of_ne (by omega), store_add _ _ hi, store_add _ _ hi',
        List.getElem_append_left]
    · have hi' : bs.length < (bs ++ [b]).length := by simp
      rw [Function.update_self, store_add _ _ hi', List.getElem_concat_length rfl]
    · rw [Function.update_of_ne (by omega), store_of_le _ (bs ++ [b]) (by simp; omega),
        store_of_le _ _ (by omega)]

theorem store_singleton (m : Nat → UInt8) (a : Nat) (b : UInt8) : store m a [b] = Function.update m a b := by
  have h := store_concat m a [] b
  rwa [List.nil_append, List.length_nil, Nat.add_zero, store_nil] at h

/-- A store elsewhere may come before. -/
theorem store_update {m : Nat → UInt8} {a x : Nat} {bs : List UInt8} (v : UInt8) (hx : a + bs.length ≤ x) :
    store (Function.update m x v) a bs = Function.update (store m a bs) x v := by
  funext y
  rcases eq_or_ne y x with rfl | hy
  · rw [Function.update_self, store_of_le _ _ hx, Function.update_self]
  · rw [Function.update_of_ne hy]
    unfold store
    rw [Function.update_of_ne hy]

/-- The first `k` bytes of `bs` stored one after the other at the addresses `p 0`, `p 1`, … -/
def scatter (m : Nat → UInt8) (p : Nat → Nat) (bs : List UInt8) : Nat → Nat → UInt8
  | 0 => m
  | k + 1 => Function.update (scatter m p bs k) (p k) (bs.getD k 0)

theorem scatter_congr (m : Nat → UInt8) {p q : Nat → Nat} (bs : List UInt8) {k : Nat} (h : ∀ i < k, p i = q i) :
    scatter m p bs k = scatter m q bs k := by
  induction k with
  | zero => rfl
  | succ k ih => rw [scatter, scatter, ih fun i hi => h i (Nat.lt_succ_of_lt hi), h k (Nat.lt_succ_self k)]

/-- Consecutive addresses: the string is stored. -/
theorem scatter_add (m : Nat → UInt8) (a : Nat) (bs : List UInt8) {k : Nat} (hk : k ≤ bs.length) :
    scatter m (fun i => a + i) bs k = store m a (bs.take k) := by
  induction k with
  | zero => rw [scatter, List.take_zero, store_nil]
  | succ k ih =>
    have hle : k ≤ bs.length := Nat.le_of_succ_le hk
    rw [scatter, ih hle, List.take_succ_eq_append_getElem hk, store_concat, List.length_take_of_le hle,
      List.getD_eq_getElem _ _ hk]

/-- The `n` bytes at address `a`. -/
def slice (m : Nat → UInt8) (a n : Nat) : List UInt8 := (List.range n).map fun i => m (a + i)

@[simp] theorem length_slice (m : Nat → UInt8) (a n : Nat) : (slice m a n).length = n := by
  simp [slice]

theorem getElem_slice (m : Nat → UInt8) (a : Nat) {n i : Nat} (h : i < (slice m a n).length) :
    (slice m a n)[i] = m (a + i) := by
  simp [slice]

theorem getD_slice (m : Nat → UInt8) (a : Nat) {n i : Nat} (h : i < n) :
    (slice m a n).getD i 0 = m (a + i) := by
  have hi : i < (slice m a n).length := by rwa [length_slice]
  rw [List.getD_eq_getElem _ _ hi, getElem_slice]

theorem slice_congr {m m' : Nat → UInt8} {a b n : Nat} (h : ∀ i < n, m (a + i) = m' (b + i)) :
    slice m a n = slice m' b n :=
  List.map_congr_left fun i hi => h i (List.mem_range.mp hi)

theorem slice_add (m : Nat → UInt8) (a n k : Nat) :
    slice m a (n + k) = slice m a n ++ slice m (a + n) k := by
  rw [slice, List.range_add, List.map_append, List.map_map]
  simp only [slice, Function.comp_def, Nat.add_assoc]

theorem slice_succ (m : Nat → UInt8) (a n : Nat) : slice m a (n + 1) = slice m a n ++ [m (a + n)] := by
  rw [slice_add]
  rfl

theorem slice_store (m : Nat → UInt8) (a : Nat) (bs : List UInt8) :
    slice (store m a bs) a bs.length = bs := by
  refine List.ext_getElem (by simp) fun i hi _ => ?_
  rw [getElem_slice, store_add _ _ (by simpa using hi)]

theorem store_eq_store_iff {m : Nat → UInt8} {a : Nat} {bs cs : List UInt8} (h : bs.length = cs.length) :
    store m a bs = store m a cs ↔ bs = cs := by
  refine ⟨fun heq => ?_, fun heq => by rw [heq]⟩
  rw [← slice_store m a bs, heq, h, slice_store]

theorem slice_store_of_disjoint (m : Nat → UInt8) {a b n : Nat} {bs : List UInt8}
    (h : b + n ≤ a ∨ a + bs.length ≤ b) : slice (store m a bs) b n = slice m b n := by
  refine slice_congr fun i hi => ?_
  rcases h with h | h
  · exact store_of_lt _ _ (by omega)
  · exact store_of_le _ _ (by omega)

theorem store_append (m : Nat → UInt8) (a : Nat) (bs cs : List UInt8) :
    store m a (bs ++ cs) = store (store m a bs) (a + bs.length) cs := by
  funext x
  simp only [store, List.length_append]
  by_cases hlo : a ≤ x ∧ x < a + bs.length
  · rw [if_pos (by omega), if_neg (by omega), if_pos hlo, List.getD_append _ _ _ _ (by omega)]
  · by_cases hhi : a + bs.length ≤ x ∧ x < a + bs.length + cs.length
    · rw [if_pos (by omega), if_pos hhi, List.getD_append_right _ _ _ _ (by omega), Nat.sub_add_eq]
    · rw [if_neg (by omega), if_neg hhi, if_neg hlo]

/-- `n` bytes of a number, the least significant byte first. -/
def le : Nat → Nat → List UInt8
  | 0, _ => []
  | n + 1, w => UInt8.ofNat w :: le n (w / 256)

/-- The number that bytes stand for, the least significant byte first. -/
def number : List UInt8 → Nat
  | [] => 0
  | b :: bs => b.toNat + 256 * number bs

@[simp] theorem length_le (n w : Nat) : (le n w).length = n := by
  induction n generalizing w with
  | zero => rfl
  | succ n ih => simp [le, ih]

theorem length_flatMap_le (n : Nat) (ws : List Nat) : (ws.flatMap (le n)).length = n * ws.length := by
  induction ws with
  | nil => rfl
  | cons w ws ih => rw [List.flatMap_cons, List.length_append, ih, length_le, List.length_cons, Nat.mul_succ, Nat.add_comm]

/-- A word of a row of words. -/
theorem slice_store_flatMap (m : Nat → UInt8) (a n : Nat) {ws : List Nat} {j : Nat} (hj : j < ws.length) :
    slice (store m a (ws.flatMap (le n))) (a + n * j) n = le n ws[j] := by
  have hsplit : ws = ws.take j ++ ws[j] :: ws.drop (j + 1) := by
    rw [List.getElem_cons_drop, List.take_append_drop]
  have hfirst : ((ws.take j).flatMap (le n)).length = n * j := by
    rw [length_flatMap_le, List.length_take_of_le (Nat.le_of_lt hj)]
  have hword := slice_store (store m a ((ws.take j).flatMap (le n))) (a + n * j) (le n ws[j])
  rw [length_le] at hword
  conv_lhs => rw [hsplit, List.flatMap_append, List.flatMap_cons, store_append, hfirst, store_append, length_le]
  rw [slice_store_of_disjoint _ (Or.inl (Nat.le_refl _))]
  exact hword

theorem number_le (n w : Nat) : number (le n w) = w % 256 ^ n := by
  induction n generalizing w with
  | zero => simp [le, number, Nat.mod_one]
  | succ n ih =>
    rw [le, number, ih, Nat.pow_succ', Nat.mod_mul, UInt8.toNat_ofNat']

theorem number_lt (bs : List UInt8) : number bs < 256 ^ bs.length := by
  induction bs with
  | nil => simp [number]
  | cons b bs ih =>
    have hb := b.toNat_lt
    rw [number, List.length_cons, Nat.pow_succ']
    omega

end Bytes
