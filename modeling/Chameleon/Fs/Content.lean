import Chameleon.Fs.Disk

/-! How a change of a slot or of a block changes the blocks and the bytes of a file. -/

namespace Chameleon.Fs
open Bytes

section Slots

variable {bn bn' : Nat} {sl : Slot}

theorem slotOf_inj (h : slotOf bn = some sl) (h' : slotOf bn' = some sl) : bn = bn' := by
  unfold slotOf at h h'
  split_ifs at h h'
  · have heq := Option.some.inj (h.trans h'.symm)
    exact congrArg Fin.val (Slot.addr.inj heq)
  · exact Slot.noConfusion (Option.some.inj (h.trans h'.symm))
  · exact Slot.noConfusion (Option.some.inj (h.trans h'.symm))
  · have heq := Option.some.inj (h.trans h'.symm)
    have hval := congrArg Fin.val (Slot.entry.inj heq)
    change bn - NDIRECT = bn' - NDIRECT at hval
    omega

theorem slotOf_isSome (h : bn < MAXFILE) : ∃ sl, slotOf bn = some sl := by
  unfold slotOf
  split_ifs with h₁ h₂
  · exact ⟨_, rfl⟩
  · exact ⟨_, rfl⟩
  · unfold MAXFILE at h
    omega

theorem slotOf_lt (h : slotOf bn = some sl) : bn < MAXFILE := by
  unfold slotOf at h
  split_ifs at h with h₁ h₂
  all_goals
    unfold MAXFILE
    omega

/-- The indirect block holds no bytes of the file. -/
theorem slotOf_ne_indirect (bn : Nat) : slotOf bn ≠ some (.addr indirect) := by
  unfold slotOf
  split_ifs with h₁ h₂
  · intro h
    have heq := congrArg Fin.val (Slot.addr.inj (Option.some.inj h))
    change bn = NDIRECT at heq
    omega
  · exact fun h => Slot.noConfusion (Option.some.inj h)
  · exact nofun

theorem slotOf_direct (h : bn < NDIRECT) : slotOf bn = some (.addr ⟨bn, Nat.lt_succ_of_lt h⟩) := dif_pos h

theorem slotOf_entry (h : NDIRECT ≤ bn) (h' : bn - NDIRECT < NINDIRECT) : slotOf bn = some (.entry ⟨bn - NDIRECT, h'⟩) := by
  rw [slotOf, dif_neg (Nat.not_lt.mpr h), dif_pos h']

end Slots

section Refs

variable {data data' : Nat → Block} {d : Dinode}

theorem refs_congr (h : d.addrs indirect ≠ 0 → data' (d.addrs indirect) = data (d.addrs indirect)) :
    refs data' d = refs data d := by
  funext sl
  cases sl with
  | addr k => rfl
  | entry j =>
    by_cases hz : d.addrs indirect = 0
    · simp only [refs, if_pos hz]
    · simp only [refs, if_neg hz, h hz]

theorem refs_setAddr {k : Fin (NDIRECT + 1)} (hk : k ≠ indirect) (b : Nat) :
    refs data { d with addrs := Function.update d.addrs k b } = Function.update (refs data d) (.addr k) b := by
  funext sl
  cases sl with
  | addr k' =>
    by_cases hk' : k' = k
    · subst hk'
      simp [refs]
    · have hne : Slot.addr k' ≠ Slot.addr k := fun h => hk' (Slot.addr.inj h)
      simp [refs, hk', hne]
  | entry j => simp [refs, Function.update_of_ne (Ne.symm hk)]

theorem word_zero (j : Nat) : word (fun _ => 0) j = 0 := by
  simp [word, slice, number, List.range_succ]

/-- A fresh indirect block has no entries. -/
theorem refs_setIndirect {b : Nat} (hnone : d.addrs indirect = 0) (hzero : data b = fun _ => 0) :
    refs data { d with addrs := Function.update d.addrs indirect b } =
      Function.update (refs data d) (.addr indirect) b := by
  funext sl
  cases sl with
  | addr k =>
    by_cases hk : k = indirect
    · subst hk
      simp [refs]
    · have hne : Slot.addr k ≠ Slot.addr indirect := fun h => hk (Slot.addr.inj h)
      simp [refs, hk, hne]
  | entry j =>
    simp only [refs, Function.update_self, hzero, word_zero, ite_self]
    rw [Function.update_of_ne (by simp), refs, if_pos hnone]

theorem refs_setEntry {j : Fin NINDIRECT} {w : Nat} (hind : d.addrs indirect ≠ 0) (hw : w < 2 ^ 32) :
    refs (Function.update data (d.addrs indirect) (putWord (data (d.addrs indirect)) j w)) d =
      Function.update (refs data d) (.entry j) w := by
  funext sl
  cases sl with
  | addr k => rw [Function.update_of_ne (by simp), refs, refs]
  | entry j' =>
    rw [refs, if_neg hind, Function.update_self]
    by_cases hj : j' = j
    · subst hj
      rw [word_putWord_self _ _ hw, Function.update_self]
    · have hne : Slot.entry j' ≠ Slot.entry j := fun h => hj (Slot.entry.inj h)
      rw [word_putWord_of_ne _ _ fun h => hj (Fin.ext h), Function.update_of_ne hne, refs, if_neg hind]

end Refs

section Content

variable {data data' : Nat → Block} {r : Slot → Nat}

theorem content_congr (h : ∀ sl, r sl ≠ 0 → data' (r sl) = data (r sl)) : content data' r = content data r := by
  funext k
  unfold content
  cases slotOf (k / BSIZE) with
  | none => rfl
  | some sl =>
    by_cases hz : r sl = 0
    · simp only [if_pos hz]
    · simp only [if_neg hz, h sl hz]

/-- A block of zeros reads as a block that is not there. -/
theorem content_setZero {sl : Slot} {b : Nat} (hnone : r sl = 0) (hzero : data b = fun _ => 0) :
    content data (Function.update r sl b) = content data r := by
  funext k
  unfold content
  cases slotOf (k / BSIZE) with
  | none => rfl
  | some sl' =>
    by_cases hsl : sl' = sl
    · subst hsl
      simp [hnone, hzero]
    · simp only [Function.update_of_ne hsl]

/-- Bytes stored in a block of the file, and in no other of its blocks, are stored in the file. -/
theorem content_store {bn o : Nat} {sl : Slot} {bs : List UInt8} (hsl : slotOf bn = some sl) (hne : r sl ≠ 0)
    (hinj : ∀ sl', r sl' = r sl → sl' = sl) (hfits : o + bs.length ≤ BSIZE) :
    content (Function.update data (r sl) (store (data (r sl)) o bs)) r =
      store (content data r) (bn * BSIZE + o) bs := by
  funext k
  by_cases hk : k / BSIZE = bn
  · have hmod : bn * BSIZE + k % BSIZE = k := by
      rw [← hk, Nat.mul_comm]
      exact Nat.div_add_mod k BSIZE
    have hin : bn * BSIZE + o ≤ k ∧ k < bn * BSIZE + o + bs.length ↔ o ≤ k % BSIZE ∧ k % BSIZE < o + bs.length := by
      omega
    have hsub : k - (bn * BSIZE + o) = k % BSIZE - o := by omega
    simp only [content, hk, hsl, if_neg hne, Function.update_self, store, hin, hsub]
  · have hout : ¬(bn * BSIZE + o ≤ k ∧ k < bn * BSIZE + o + bs.length) := by
      intro h
      apply hk
      unfold BSIZE at h hfits ⊢
      omega
    rw [store, if_neg hout]
    unfold content
    cases hsl' : slotOf (k / BSIZE) with
    | none => rfl
    | some sl' =>
      have hother : r sl' ≠ r sl := fun h => hk (slotOf_inj (hinj sl' h ▸ hsl') hsl)
      simp only [Function.update_of_ne hother]

end Content

section Shape

/-! A file of `nb` blocks has the first `nb` of them, and its indirect block as soon as an entry is in use. -/

/-- The block of a file that a slot is needed for first. -/
def Slot.index : Slot → Nat
  | .addr k => k
  | .entry j => NDIRECT + j

def Filled (r : Slot → Nat) (nb : Nat) : Prop := ∀ sl, r sl ≠ 0 ↔ sl.index < nb

/-- The blocks that such a file takes. -/
def cost (nb : Nat) : Nat := nb + if NDIRECT < nb then 1 else 0

variable {r : Slot → Nat} {nb bn b b' : Nat} {sl : Slot}

theorem index_slotOf (h : slotOf bn = some sl) : sl.index = bn := by
  unfold slotOf at h
  split_ifs at h with h₁ h₂
  · obtain rfl := Option.some.inj h
    rfl
  · obtain rfl := Option.some.inj h
    change NDIRECT + (bn - NDIRECT) = bn
    omega

theorem Filled.direct (h : Filled r nb) (hnb : nb < NDIRECT) (hb : b ≠ 0) :
    Filled (Function.update r (.addr ⟨nb, Nat.lt_succ_of_lt hnb⟩) b) (nb + 1) := by
  intro sl
  by_cases hsl : sl = .addr ⟨nb, Nat.lt_succ_of_lt hnb⟩
  · subst hsl
    simp [Slot.index, hb]
  · have hindex : sl.index ≠ nb := by
      cases sl with
      | addr k => exact fun heq => hsl (congrArg Slot.addr (Fin.ext heq))
      | entry j =>
        change NDIRECT + j.val ≠ nb
        omega
    rw [Function.update_of_ne hsl, h sl]
    omega

theorem Filled.entry (h : Filled r nb) (hnb : NDIRECT < nb) (hlt : nb - NDIRECT < NINDIRECT) (hb : b ≠ 0) :
    Filled (Function.update r (.entry ⟨nb - NDIRECT, hlt⟩) b) (nb + 1) := by
  intro sl
  by_cases hsl : sl = .entry ⟨nb - NDIRECT, hlt⟩
  · subst hsl
    have hindex : (Slot.entry ⟨nb - NDIRECT, hlt⟩).index < nb + 1 := by
      change NDIRECT + (nb - NDIRECT) < nb + 1
      omega
    simp [hb, hindex]
  · have hindex : sl.index ≠ nb := by
      cases sl with
      | addr k =>
        have hk := k.isLt
        change k.val ≠ nb
        omega
      | entry j =>
        intro heq
        apply hsl
        apply congrArg Slot.entry
        apply Fin.ext
        change NDIRECT + j.val = nb at heq
        change j.val = nb - NDIRECT
        omega
    rw [Function.update_of_ne hsl, h sl]
    omega

/-- The first entry comes with the indirect block. -/
theorem Filled.first (h : Filled r NDIRECT) (hb : b ≠ 0) (hb' : b' ≠ 0) :
    Filled (Function.update (Function.update r (.addr indirect) b) (.entry ⟨0, by decide⟩) b') (NDIRECT + 1) := by
  intro sl
  by_cases hsl : sl = .entry ⟨0, by decide⟩
  · subst hsl
    simp [Slot.index, hb']
  rw [Function.update_of_ne hsl]
  by_cases hsl' : sl = .addr indirect
  · subst hsl'
    simp [Slot.index, hb]
  have hindex : sl.index ≠ NDIRECT := by
    cases sl with
    | addr k => exact fun heq => hsl' (congrArg Slot.addr (Fin.ext heq))
    | entry j =>
      intro heq
      apply hsl
      apply congrArg Slot.entry
      apply Fin.ext
      change NDIRECT + j.val = NDIRECT at heq
      change j.val = 0
      omega
  rw [Function.update_of_ne hsl', h sl]
  omega

/-- A file has its first `m` blocks exactly if it has at least that many. -/
theorem Filled.present_iff {m : Nat} (h : Filled r nb) (hnb : nb ≤ MAXFILE) :
    (∀ bn < m, ∃ sl, slotOf bn = some sl ∧ r sl ≠ 0) ↔ m ≤ nb := by
  constructor
  · intro hall
    by_contra hlt
    obtain ⟨sl, hsl, hne⟩ := hall nb (Nat.lt_of_not_le hlt)
    have hindex := (h sl).mp hne
    rw [index_slotOf hsl] at hindex
    exact absurd hindex (Nat.lt_irrefl nb)
  · intro hle bn hbn
    have hlt := Nat.lt_of_lt_of_le hbn hle
    obtain ⟨sl, hsl⟩ := slotOf_isSome (Nat.lt_of_lt_of_le hlt hnb)
    refine ⟨sl, hsl, (h sl).mpr ?_⟩
    rwa [index_slotOf hsl]

theorem cost_le {m n : Nat} (h : m ≤ n) : cost m ≤ cost n := by
  unfold cost
  split_ifs <;> omega

/-- The blocks of a file of `n` bytes. -/
def blocks (n : Nat) : Nat := (n + (BSIZE - 1)) / BSIZE

theorem blocks_mono {m n : Nat} (h : m ≤ n) : blocks m ≤ blocks n :=
  Nat.div_le_div_right (Nat.add_le_add_right h _)

theorem blocks_le {n bn : Nat} (h : n ≤ bn * BSIZE) : blocks n ≤ bn := by
  apply Nat.le_of_lt_succ
  apply (Nat.div_lt_iff_lt_mul (by decide)).mpr
  rw [Nat.succ_mul]
  exact Nat.add_lt_add_of_le_of_lt h (by decide)

theorem le_blocks {n bn : Nat} (h : bn * BSIZE ≤ n) : bn ≤ blocks n :=
  (Nat.le_div_iff_mul_le (by decide)).mpr (Nat.le_trans h (Nat.le_add_right ..))

theorem lt_blocks {n bn : Nat} (h : bn * BSIZE < n) : bn < blocks n := by
  apply (Nat.le_div_iff_mul_le (by decide)).mpr
  rw [Nat.succ_mul]
  unfold BSIZE at h ⊢
  omega

end Shape

section Files

/-! The files of a disk, one for each inode. -/

/-- The block numbers of every inode. -/
def slots (data : Nat → Block) (dino : Nat → Dinode) (i : Nat) : Slot → Nat := refs data (dino i)

/-- No block is in two slots. -/
def Apart (r : Nat → Slot → Nat) : Prop := ∀ ⦃i sl i' sl'⦄, r i sl ≠ 0 → r i' sl' = r i sl → i' = i ∧ sl' = sl

variable {data : Nat → Block} {dino : Nat → Dinode} {i : Nat} {sl : Slot} {b : Nat}

theorem Apart.take {r : Nat → Slot → Nat} (h : Apart r) (hfresh : ∀ i sl, r i sl ≠ b) :
    Apart (Function.update r i (Function.update (r i) sl b)) := by
  have hslot : ∀ i' sl', Function.update r i (Function.update (r i) sl b) i' sl' =
      if i' = i ∧ sl' = sl then b else r i' sl' := by
    intro i' sl'
    by_cases hi : i' = i
    · subst hi
      by_cases hsl : sl' = sl
      · subst hsl
        simp
      · simp [hsl]
    · simp [hi]
  intro i₁ sl₁ i₂ sl₂ hne heq
  rw [hslot] at hne
  rw [hslot, hslot] at heq
  split_ifs at hne heq with h₁ h₂ h₂
  · exact ⟨h₂.1.trans h₁.1.symm, h₂.2.trans h₁.2.symm⟩
  · exact absurd heq (hfresh i₂ sl₂)
  · exact absurd heq.symm (hfresh i₁ sl₁)
  · exact h hne heq

theorem slots_take {d : Dinode} (h : refs data d = Function.update (slots data dino i) sl b) :
    slots data (Function.update dino i d) =
      Function.update (slots data dino) i (Function.update (slots data dino i) sl b) := by
  funext i'
  by_cases hi : i' = i
  · subst hi
    rw [Function.update_self, ← h, slots, Function.update_self]
  · rw [Function.update_of_ne hi, slots, Function.update_of_ne hi, slots]

theorem slots_entry {j : Fin NINDIRECT} {w : Nat} (h : Apart (slots data dino)) (hind : (dino i).addrs indirect ≠ 0)
    (hw : w < 2 ^ 32) :
    slots (Function.update data ((dino i).addrs indirect) (putWord (data ((dino i).addrs indirect)) j w)) dino =
      Function.update (slots data dino) i (Function.update (slots data dino i) (.entry j) w) := by
  funext i'
  by_cases hi : i' = i
  · subst hi
    rw [Function.update_self]
    exact refs_setEntry hind hw
  · rw [Function.update_of_ne hi]
    apply refs_congr
    intro hind'
    have hne : (dino i').addrs indirect ≠ (dino i).addrs indirect := fun heq =>
      hi (@h i (.addr indirect) i' (.addr indirect) hind heq).1
    rw [Function.update_of_ne hne]

/-- Only a write of an indirect block changes slots. -/
theorem slots_write (h : Apart (slots data dino)) (hne : slots data dino i sl ≠ 0) (hsl : sl ≠ .addr indirect)
    (a : Block) : slots (Function.update data (slots data dino i sl) a) dino = slots data dino := by
  funext i'
  apply refs_congr
  intro _
  have hother : (dino i').addrs indirect ≠ slots data dino i sl := fun heq =>
    hsl (@h i sl i' (.addr indirect) hne heq).2.symm
  rw [Function.update_of_ne hother]

/-- A write of a block leaves the bytes of the files that do not have it. -/
theorem content_write_of_ne {r : Nat → Slot → Nat} (h : Apart r) (hne : r i sl ≠ 0) (a : Block) {i' : Nat}
    (hi : i' ≠ i) : content (Function.update data (r i sl) a) (r i') = content data (r i') := by
  apply content_congr
  intro sl' _
  rw [Function.update_of_ne fun heq => hi (h hne heq).1]

theorem content_write_indirect {r : Nat → Slot → Nat} (h : Apart r) (hne : r i (.addr indirect) ≠ 0) (a : Block) :
    content (Function.update data (r i (.addr indirect)) a) (r i) = content data (r i) := by
  funext k
  unfold content
  cases hsl : slotOf (k / BSIZE) with
  | none => rfl
  | some sl =>
    have hother : r i sl ≠ r i (.addr indirect) := by
      intro heq
      rw [(h hne heq).2] at hsl
      exact slotOf_ne_indirect _ hsl
    simp only [Function.update_of_ne hother]

end Files

section Layout

/-- The files `file` of a disk: each has blocks of its own, all of them in use, and these hold its bytes. -/
structure Holds (used : Nat → Prop) (data : Nat → Block) (dino : Nat → Dinode) (file : Nat → Nat → UInt8) : Prop where
  apart : Apart (slots data dino)
  used : ∀ i sl, slots data dino i sl ≠ 0 → used (slots data dino i sl)
  holds : ∀ i, content data (slots data dino i) = file i

variable {used used' : Nat → Prop} {data : Nat → Block} {dino : Nat → Dinode} {file : Nat → Nat → UInt8}
variable {i b : Nat} {sl : Slot}

theorem Holds.fresh (h : Holds used data dino file) (hb : ¬used b) (hpos : b ≠ 0) (i : Nat) (sl : Slot) :
    slots data dino i sl ≠ b := by
  intro heq
  apply hb
  rw [← heq]
  apply h.used
  rwa [heq]

theorem used_take {r : Nat → Slot → Nat} (hr : ∀ i sl, r i sl ≠ 0 → used (r i sl)) (hsub : ∀ x, used x → used' x)
    (hb : used' b) (i' : Nat) (sl' : Slot) (hne : Function.update r i (Function.update (r i) sl b) i' sl' ≠ 0) :
    used' (Function.update r i (Function.update (r i) sl b) i' sl') := by
  by_cases hi : i' = i
  · subst hi
    rw [Function.update_self] at hne ⊢
    by_cases hsl : sl' = sl
    · subst hsl
      rwa [Function.update_self]
    · rw [Function.update_of_ne hsl] at hne ⊢
      exact hsub _ (hr _ _ hne)
  · rw [Function.update_of_ne hi] at hne ⊢
    exact hsub _ (hr _ _ hne)

/-- An inode gets a fresh block of zeros. -/
theorem Holds.take {d : Dinode} (h : Holds used data dino file) (hb : ¬used b) (hpos : b ≠ 0)
    (hzero : data b = fun _ => 0) (hsub : ∀ x, used x → used' x) (hb' : used' b) (hnone : slots data dino i sl = 0)
    (hd : refs data d = Function.update (slots data dino i) sl b) :
    Holds used' data (Function.update dino i d) file := by
  have hslots := slots_take hd
  constructor
  · rw [hslots]
    exact h.apart.take (h.fresh hb hpos)
  · rw [hslots]
    exact used_take h.used hsub hb'
  · intro i'
    rw [hslots, ← h.holds i']
    by_cases hi : i' = i
    · subst hi
      rw [Function.update_self]
      exact content_setZero hnone hzero
    · rw [Function.update_of_ne hi]

/-- An indirect block gets a fresh block of zeros. -/
theorem Holds.entry {j : Fin NINDIRECT} (h : Holds used data dino file) (hb : ¬used b) (hpos : b ≠ 0)
    (hzero : data b = fun _ => 0) (hsub : ∀ x, used x → used' x) (hb' : used' b) (hind : (dino i).addrs indirect ≠ 0)
    (hnone : slots data dino i (.entry j) = 0) (hlt : b < 2 ^ 32) :
    Holds used' (Function.update data ((dino i).addrs indirect) (putWord (data ((dino i).addrs indirect)) j b)) dino file := by
  have hslots := slots_entry (j := j) h.apart hind hlt
  have hown : slots data dino i (.addr indirect) ≠ 0 := hind
  have hne : b ≠ (dino i).addrs indirect := (h.fresh hb hpos i (.addr indirect)).symm
  constructor
  · rw [hslots]
    exact h.apart.take (h.fresh hb hpos)
  · rw [hslots]
    exact used_take h.used hsub hb'
  · intro i'
    rw [hslots, ← h.holds i']
    by_cases hi : i' = i
    · subst hi
      rw [Function.update_self, content_setZero hnone (by rw [Function.update_of_ne hne, hzero])]
      exact content_write_indirect h.apart hown _
    · rw [Function.update_of_ne hi]
      exact content_write_of_ne h.apart hown _ hi

theorem Holds.write {bn o : Nat} {bs : List UInt8} (h : Holds used data dino file) (hsl : slotOf bn = some sl)
    (hne : slots data dino i sl ≠ 0) (hfits : o + bs.length ≤ BSIZE) :
    Holds used (Function.update data (slots data dino i sl) (store (data (slots data dino i sl)) o bs)) dino
      (Function.update file i (store (file i) (bn * BSIZE + o) bs)) := by
  have hind : sl ≠ .addr indirect := fun heq => slotOf_ne_indirect bn (heq ▸ hsl)
  have hslots := slots_write h.apart hne hind (store (data (slots data dino i sl)) o bs)
  constructor
  · rw [hslots]
    exact h.apart
  · rw [hslots]
    exact h.used
  · intro i'
    rw [hslots]
    by_cases hi : i' = i
    · subst hi
      rw [Function.update_self, ← h.holds i']
      exact content_store hsl hne (fun sl' heq => (h.apart hne heq).2) hfits
    · rw [Function.update_of_ne hi, ← h.holds i']
      exact content_write_of_ne h.apart hne _ hi

/-- Only the slots count, and the blocks in use. -/
theorem Holds.congr {data' : Nat → Block} {dino' : Nat → Dinode} (h : Holds used data dino file)
    (hdata : ∀ b, used b → data' b = data b) (hslots : slots data' dino' = slots data dino) :
    Holds used data' dino' file := by
  constructor
  · rw [hslots]
    exact h.apart
  · rw [hslots]
    exact h.used
  · intro i
    rw [hslots, ← h.holds i]
    apply content_congr
    intro sl hne
    exact hdata _ (h.used i sl hne)

/-- A block that is not in use may be written. -/
theorem Holds.unused (h : Holds used data dino file) (hb : ¬used b) (a : Block) :
    Holds used (Function.update data b a) dino file := by
  have hother : ∀ x, used x → Function.update data b a x = data x := by
    intro x hx
    apply Function.update_of_ne
    rintro rfl
    exact hb hx
  apply h.congr hother
  funext i
  apply refs_congr
  intro hne
  exact hother _ (h.used i (.addr indirect) hne)

end Layout

end Chameleon.Fs
