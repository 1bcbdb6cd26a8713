import Chameleon.Lib.Bytes
import Mathlib.Data.Nat.Init

/-! `memmove` of the kernel (`string.c`) and of the user library (`ulib.c`). Pointers are 32-bit words;
the bytes at an address are those at its number. -/

namespace Chameleon.Str
open Bytes

abbrev Mem := Nat → UInt8

/-- `while(n-- > 0) *d++ = *s++`, with `n` rounds to go. -/
def copyUp : Nat → Mem → UInt32 → UInt32 → Mem
  | 0, m, _, _ => m
  | n + 1, m, d, s => copyUp n (Function.update m d.toNat (m s.toNat)) (d + 1) (s + 1)

/-- `while(n-- > 0) *--d = *--s`, with `n` rounds to go. -/
def copyDown : Nat → Mem → UInt32 → UInt32 → Mem
  | 0, m, _, _ => m
  | n + 1, m, d, s =>
    copyDown n (Function.update m (d - 1).toNat (m (s - 1).toNat)) (d - 1) (s - 1)

/-- `memmove` of `string.c`. -/
def Kernel.memmove (m : Mem) (dst src n : UInt32) : Mem × UInt32 :=
  if src < dst ∧ dst < src + n then (copyDown n.toNat m (dst + n) (src + n), dst)
  else (copyUp n.toNat m dst src, dst)

/-- `memmove` of `ulib.c`, whose length is signed: a negative one makes no round. -/
def User.memmove (m : Mem) (vdst vsrc : UInt32) (n : Int32) : Mem × UInt32 :=
  (copyUp n.toInt.toNat m vdst vsrc, vdst)

/-- The memory in which the original `n` bytes at `src` stand at `dst`, and nothing else is changed. -/
def moved (m : Mem) (dst src n : Nat) : Mem := store m dst (slice m src n)

section Pointers

theorem toNat_add_ofNat {p : UInt32} {i : Nat} (h : p.toNat + i < 2 ^ 32) :
    (p + UInt32.ofNat i).toNat = p.toNat + i := by
  rw [UInt32.toNat_add, UInt32.toNat_ofNat', Nat.add_mod_mod, Nat.mod_eq_of_lt h]

theorem add_ofNat_succ (p : UInt32) (i : Nat) :
    p + 1 + UInt32.ofNat i = p + UInt32.ofNat (i + 1) := by
  rw [UInt32.ofNat_add, UInt32.add_assoc, UInt32.add_comm 1]
  rfl

theorem add_ofNat_succ_sub (p : UInt32) (i : Nat) :
    p + UInt32.ofNat (i + 1) - 1 = p + UInt32.ofNat i := by
  rw [UInt32.ofNat_add, ← UInt32.add_assoc]
  exact UInt32.add_sub_cancel _ 1

end Pointers

section Up

variable {m : Mem} {d s : UInt32} {n : Nat}

theorem copyUp_succ (n : Nat) (m : Mem) (d s : UInt32) :
    copyUp (n + 1) m d s = Function.update (copyUp n m d s) (d + UInt32.ofNat n).toNat
      (copyUp n m d s (s + UInt32.ofNat n).toNat) := by
  induction n generalizing m d s with
  | zero => simp [copyUp]
  | succ n ih =>
    rw [copyUp, ih, add_ofNat_succ, add_ofNat_succ]
    rfl

/-- Upward is right when the destination is not above the source. -/
theorem copyUp_of_le (hle : d.toNat ≤ s.toNat) (hs : s.toNat + n ≤ 2 ^ 32) :
    copyUp n m d s = moved m d.toNat s.toNat n := by
  induction n with
  | zero => exact (store_nil m d.toNat).symm
  | succ n ih =>
    have hread : store m d.toNat (slice m s.toNat n) (s.toNat + n) = m (s.toNat + n) :=
      store_of_le m _ (by rw [length_slice]; omega)
    rw [copyUp_succ, ih (by omega), toNat_add_ofNat (by omega), toNat_add_ofNat (by omega), moved,
      moved, slice_succ, store_concat, length_slice, hread]

/-- The bytes that an upward copy to a distance `δ` above the source leaves: the first `δ` bytes of the
source over and over. -/
def cycle (m : Mem) (s δ n : Nat) : List UInt8 := (List.range n).map fun i => m (s + i % δ)

@[simp] theorem length_cycle (m : Mem) (s δ n : Nat) : (cycle m s δ n).length = n := by
  simp [cycle]

theorem cycle_succ (m : Mem) (s δ n : Nat) : cycle m s δ (n + 1) = cycle m s δ n ++ [m (s + n % δ)] := by
  rw [cycle, List.range_succ, List.map_append]
  rfl

theorem copyUp_of_lt (hlt : s.toNat < d.toNat) (hd : d.toNat + n ≤ 2 ^ 32) :
    copyUp n m d s = store m d.toNat (cycle m s.toNat (d.toNat - s.toNat) n) := by
  induction n with
  | zero => exact (store_nil m d.toNat).symm
  | succ n ih =>
    -- the byte read is either still the original one or one that the copy has stored
    have hread : store m d.toNat (cycle m s.toNat (d.toNat - s.toNat) n) (s.toNat + n) =
        m (s.toNat + n % (d.toNat - s.toNat)) := by
      rcases Nat.lt_or_ge (s.toNat + n) d.toNat with hbelow | habove
      · rw [store_of_lt m _ hbelow, Nat.mod_eq_of_lt (by omega)]
      · obtain ⟨i, hi⟩ := Nat.exists_eq_add_of_le habove
        have hmod : i % (d.toNat - s.toNat) = n % (d.toNat - s.toNat) := by
          rw [show n = i + (d.toNat - s.toNat) by omega, Nat.add_mod_right]
        rw [hi, store_add m _ (by rw [length_cycle]; omega)]
        simp [cycle, hmod]
    rw [copyUp_succ, ih (by omega), toNat_add_ofNat (by omega), toNat_add_ofNat (by omega),
      cycle_succ, store_concat, length_cycle, hread]

end Up

section Down

/-- Downward is right when the destination is above the source. -/
theorem copyDown_of_lt {m : Mem} {d s : UInt32} {n : Nat} (hlt : s.toNat < d.toNat)
    (hd : d.toNat + n ≤ 2 ^ 32) :
    copyDown n m (d + UInt32.ofNat n) (s + UInt32.ofNat n) = moved m d.toNat s.toNat n := by
  induction n generalizing m with
  | zero => exact (store_nil m d.toNat).symm
  | succ n ih =>
    have hsource : slice (Function.update m (d.toNat + n) (m (s.toNat + n))) s.toNat n =
        slice m s.toNat n := by
      apply slice_congr
      intro i hi
      exact Function.update_of_ne (by omega) ..
    rw [copyDown, add_ofNat_succ_sub, add_ofNat_succ_sub, ih (by omega), toNat_add_ofNat (by omega),
      toNat_add_ofNat (by omega), moved, hsource, store_update _ (by rw [length_slice]), moved,
      slice_succ, store_concat, length_slice]

end Down

section Memmove

variable {m : Mem} {dst src n : UInt32}

theorem kernel_memmove_moved (hd : dst.toNat + n.toNat ≤ 2 ^ 32) (hs : src.toNat + n.toNat ≤ 2 ^ 32) :
    (Kernel.memmove m dst src n).1 = moved m dst.toNat src.toNat n.toNat := by
  unfold Kernel.memmove
  split_ifs with hover
  · have hlt : src.toNat < dst.toNat := hover.1
    have hdown := copyDown_of_lt (m := m) hlt hd
    rwa [UInt32.ofNat_toNat] at hdown
  · rcases Nat.lt_or_ge src.toNat dst.toNat with hlt | hge
    · -- the ranges do not meet, so no stored byte is read
      have hend : (src + n).toNat = src.toNat + n.toNat := by
        rw [UInt32.toNat_add, Nat.mod_eq_of_lt (by omega)]
      have happart : src.toNat + n.toNat ≤ dst.toNat := by
        rw [← hend]
        exact Nat.le_of_not_lt fun h => hover ⟨hlt, h⟩
      have hcycle : cycle m src.toNat (dst.toNat - src.toNat) n.toNat = slice m src.toNat n.toNat := by
        refine List.map_congr_left fun i hi => ?_
        rw [Nat.mod_eq_of_lt (by have := List.mem_range.mp hi; omega)]
      rw [copyUp_of_lt hlt hd, hcycle]
      rfl
    · exact copyUp_of_le hge hs

/-- The rounds that the user library's loop makes. -/
theorem rounds_eq (n : UInt32) : n.toInt32.toInt.toNat = if n.toNat < 2 ^ 31 then n.toNat else 0 := by
  have hint : n.toInt32.toInt = n.toBitVec.toInt := rfl
  have hlt := n.toNat_lt
  rw [hint, BitVec.toInt_eq_toNat_cond, show n.toBitVec.toNat = n.toNat from rfl]
  split_ifs <;> omega

/-- Where an upward copy, and a signed length, do no harm: the length is one of a signed integer and
either the destination does not begin within the source, or the source repeats itself with the distance
to the destination as its period; or the length is taken for a negative one and the bytes are in place. -/
def Harmless (m : Mem) (dst src n : Nat) : Prop :=
  if n < 2 ^ 31 then src < dst → dst < src + n → ∀ i < n, m (src + i % (dst - src)) = m (src + i)
  else ∀ i < n, m (dst + i) = m (src + i)

theorem user_memmove_moved_iff (hd : dst.toNat + n.toNat ≤ 2 ^ 32) (hs : src.toNat + n.toNat ≤ 2 ^ 32) :
    (User.memmove m dst src n.toInt32).1 = moved m dst.toNat src.toNat n.toNat ↔
      Harmless m dst.toNat src.toNat n.toNat := by
  rw [User.memmove, rounds_eq, Harmless]
  split_ifs with hn
  · rcases Nat.lt_or_ge src.toNat dst.toNat with hlt | hge
    · have hlen : (cycle m src.toNat (dst.toNat - src.toNat) n.toNat).length =
          (slice m src.toNat n.toNat).length := by rw [length_cycle, length_slice]
      rw [copyUp_of_lt hlt hd, moved, store_eq_store_iff hlen]
      unfold cycle slice
      rw [List.map_inj_left]
      refine ⟨fun h _ _ i hi => h i (List.mem_range.mpr hi), fun h i hi => ?_⟩
      have hi' := List.mem_range.mp hi
      rcases Nat.lt_or_ge dst.toNat (src.toNat + n.toNat) with hover | happart
      · exact h hlt hover i hi'
      · rw [Nat.mod_eq_of_lt (by omega)]
    · refine ⟨fun _ hlt => absurd hlt (Nat.not_lt.mpr hge), fun _ => ?_⟩
      exact copyUp_of_le hge hs
  · constructor
    · intro h i hi
      have hat := congrFun h (dst.toNat + i)
      rw [moved, store_add _ _ (by rwa [length_slice]), getElem_slice] at hat
      exact hat
    · intro h
      have hplace : slice m src.toNat n.toNat = slice m dst.toNat n.toNat :=
        slice_congr fun i hi => (h i hi).symm
      funext x
      rw [moved, hplace, store]
      split_ifs with hx
      · rw [length_slice] at hx
        rw [getD_slice m _ (by omega), Nat.add_sub_of_le hx.1]
        rfl
      · rfl

/-- The two copies do what a move asks for, and so agree, exactly on harmless inputs; the kernel's
always does. -/
theorem memmove_overlap_iff (m : Mem) (dst src n : UInt32) (hd : dst.toNat + n.toNat ≤ 2 ^ 32)
    (hs : src.toNat + n.toNat ≤ 2 ^ 32) :
    (Kernel.memmove m dst src n).1 = moved m dst.toNat src.toNat n.toNat ∧
      ((User.memmove m dst src n.toInt32).1 = moved m dst.toNat src.toNat n.toNat ↔
        Harmless m dst.toNat src.toNat n.toNat) ∧
      (Kernel.memmove m dst src n = User.memmove m dst src n.toInt32 ↔
        Harmless m dst.toNat src.toNat n.toNat) := by
  have hkernel := kernel_memmove_moved (m := m) hd hs
  have huser := user_memmove_moved_iff (m := m) hd hs
  refine ⟨hkernel, huser, ?_⟩
  have hdst : (Kernel.memmove m dst src n).2 = (User.memmove m dst src n.toInt32).2 := by
    unfold Kernel.memmove
    split_ifs <;> rfl
  rw [Prod.ext_iff, hkernel, ← huser, and_iff_left hdst, eq_comm]

/-- Three bytes moved down by one. -/
theorem memmove_overlap_iff_down :
    (User.memmove UInt8.ofNat 3 4 (3 : UInt32).toInt32).1 = moved UInt8.ofNat 3 4 3 :=
  (memmove_overlap_iff UInt8.ofNat 3 4 3 (by decide) (by decide)).2.1.mpr (by
    simp only [Harmless]
    decide)

/-- Two bytes moved up by one: the user library reads the second byte after it has overwritten it. -/
theorem user_memmove_clobbers :
    (1 : UInt32).toNat + (2 : UInt32).toNat ≤ 2 ^ 32 ∧ (0 : UInt32).toNat + (2 : UInt32).toNat ≤ 2 ^ 32 ∧
      (Kernel.memmove UInt8.ofNat 1 0 2).1 2 = 1 ∧
      (User.memmove UInt8.ofNat 1 0 (2 : UInt32).toInt32).1 2 = 0 := by
  decide

end Memmove

end Chameleon.Str
