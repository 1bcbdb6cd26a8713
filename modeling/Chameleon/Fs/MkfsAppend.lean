import Chameleon.Fs.MkfsImage

/-! `iappend`. While it runs, the inode that is appended to is ahead of the one in the image. -/

namespace Chameleon.Mkfs
open Fs Hoare

section States

/-- Dinode `i` of the image. -/
def onDisk (s : State) (i : Nat) : Dino := .ofBlock (s.sect (IBLOCK i)) (i % IPB)

/-- The inodes that are in use, as the kernel reads them. -/
def inodes (s : State) (i : Nat) : Dinode := if 0 < i ∧ i < s.freeinode then (onDisk s i).toDinode else .zero

/-- The sectors that a part of the program is meant to write. -/
def Part.Within : Part → Nat → Prop
  | .zero, sec => sec < FSSIZE
  | .super, sec => sec = 1
  | .inode, sec => inodestart ≤ sec ∧ sec < bmapstart
  | .data, sec => nmeta ≤ sec ∧ sec < FSSIZE
  | .bitmap, sec => bmapstart ≤ sec ∧ sec < nmeta

structure Tidy (s : State) : Prop where
  len : s.len = FSSIZE
  inodes : s.freeinode ≤ ninodeblocks * IPB
  writes : ∀ w ∈ s.writes, w.1.Within w.2
  stored : ∀ b ∈ s.stored, nmeta ≤ b ∧ b < s.freeblock

/-- What an append leaves alone. -/
structure Frame (s s' : State) : Prop where
  freeinode : s'.freeinode = s.freeinode
  inums : s'.inums = s.inums
  sect : ∀ b, b < nmeta → s'.sect b = s.sect b

def wrote (part : Part) (sec : Nat) (a : Block) (s : State) : State := { s with
  sect := Function.update s.sect sec a
  len := max s.len (sec + 1)
  writes := s.writes ++ [(part, sec)] }

def took (s : State) : State := { s with freeblock := s.freeblock + 1, stored := s.stored ++ [s.freeblock] }

variable {s s₀ : State}

theorem wrote_sect_self (part : Part) (sec : Nat) (a : Block) (s : State) : (wrote part sec a s).sect sec = a := by
  simp [wrote]

theorem run_wsect (part : Part) (sec : Nat) (a : Block) (s : State) :
    (wsect part sec a).run s = .ok ((), wrote part sec a s) := rfl

theorem run_newBlock (s : State) : newBlock.run s = .ok (s.freeblock, took s) := rfl

theorem run_rsect {sec : Nat} (h : sec < s.len) : (rsect sec).run s = .ok (s.sect sec, s) := by
  unfold rsect
  rw [run_get_bind, if_pos h]
  rfl

theorem run_rsect_of_le {sec : Nat} (h : s.len ≤ sec) : (rsect sec).run s = .error "read" := by
  unfold rsect
  rw [run_get_bind, if_neg (Nat.not_lt.mpr h)]
  rfl

/-- A sector is read, or the program stops. -/
theorem triple_rsect {stop : String → Prop} {sec : Nat} {α : Type} {f : Block → M α} {Q : α → State → Prop}
    (hstop : s.len ≤ sec → stop "read")
    (hf : sec < s.len → Triple stop (fun t => t = s) (f (s.sect sec)) Q) :
    Triple stop (fun t => t = s) (rsect sec >>= f) Q := by
  rcases Nat.lt_or_ge sec s.len with hlt | hge
  · exact (hf hlt).runs (run_rsect hlt)
  · rintro t rfl
    rw [StateT.run_bind, run_rsect_of_le hge]
    exact hstop hge

theorem Tidy.took (h : Tidy s) (htop : nmeta ≤ s.freeblock) : Tidy (took s) where
  len := h.len
  inodes := h.inodes
  writes := h.writes
  stored b hb := by
    rcases List.mem_append.mp hb with hb | hb
    · exact ⟨(h.stored b hb).1, Nat.lt_succ_of_lt (h.stored b hb).2⟩
    · obtain rfl := List.mem_singleton.mp hb
      exact ⟨htop, Nat.lt_succ_self _⟩

theorem Tidy.wrote {part : Part} {sec : Nat} (h : Tidy s) (a : Block) (hsec : sec < FSSIZE)
    (hpart : part.Within sec) : Tidy (wrote part sec a s) where
  len := (Nat.max_eq_left (h.len ▸ hsec)).trans h.len
  inodes := h.inodes
  writes w hw := by
    rcases List.mem_append.mp hw with hw | hw
    · exact h.writes w hw
    · obtain rfl := List.mem_singleton.mp hw
      exact hpart
  stored := h.stored

theorem Frame.refl (s : State) : Frame s s := ⟨rfl, rfl, fun _ _ => rfl⟩

theorem Frame.took (h : Frame s₀ s) : Frame s₀ (took s) := ⟨h.freeinode, h.inums, h.sect⟩

theorem Frame.wrote {part : Part} {sec : Nat} (h : Frame s₀ s) (a : Block) (hsec : nmeta ≤ sec) :
    Frame s₀ (wrote part sec a s) where
  freeinode := h.freeinode
  inums := h.inums
  sect b hb := (Function.update_of_ne (Nat.ne_of_lt (Nat.lt_of_lt_of_le hb hsec)) ..).trans (h.sect b hb)

end States

section Blocks

variable {s₀ s : State} {i : Nat} {d : Dino} {bytes : Nat → List UInt8} {nb : Nat → Nat}

/-- In the middle of an append: inode `i` is `d`, and file `i'` has `nb i'` blocks. -/
structure Appending (s₀ : State) (i : Nat) (d : Dino) (bytes : Nat → List UInt8) (nb : Nat → Nat) (s : State) : Prop where
  frame : Frame s₀ s
  tidy : Tidy s
  laid : Laid s.sect s.freeblock (Function.update (inodes s₀) i d.toDinode) bytes
  filled : ∀ i', Filled (slots s.sect (Function.update (inodes s₀) i d.toDinode) i') (nb i')

/-- Only the addresses differ. -/
def SameHead (d d' : Dino) : Prop := d' = { d with addrs := d'.addrs }

theorem filled_update {r : Nat → Slot → Nat} {r' : Slot → Nat} {n : Nat} (h : ∀ i', Filled (r i') (nb i'))
    (h' : Filled r' n) (i' : Nat) : Filled (Function.update r i r' i') (Function.update nb i n i') := by
  by_cases hi : i' = i
  · subst hi
    rwa [Function.update_self, Function.update_self]
  · rw [Function.update_of_ne hi, Function.update_of_ne hi]
    exact h i'

/-- The inode of the append with one more block. -/
def Dino.set (d : Dino) (k : Fin (NDIRECT + 1)) (b : Nat) : Dino := { d with addrs := Function.update d.addrs k b }

theorem run_addrFor_of_ne {k : Fin (NDIRECT + 1)} (h : d.addrs k ≠ 0) : (addrFor d k).run s = .ok (d, s) := by
  rw [addrFor, if_neg h]
  rfl

theorem run_addrFor_of_eq {k : Fin (NDIRECT + 1)} (h : d.addrs k = 0) :
    (addrFor d k).run s = .ok (d.set k s.freeblock, took s) := by
  rw [addrFor, if_pos h]
  rfl

theorem Laid.setAddr {sect : Nat → Block} {top : Nat} {dino : Nat → Dinode} {k : Fin (NDIRECT + 1)}
    (h : Laid sect top (Function.update dino i d.toDinode) bytes) (hnone : d.addrs k = 0)
    (hrefs : refs sect (d.set k top).toDinode = Function.update (refs sect d.toDinode) (.addr k) top) :
    Laid sect (top + 1) (Function.update dino i (d.set k top).toDinode) bytes ∧
      slots sect (Function.update dino i (d.set k top).toDinode) =
        Function.update (slots sect (Function.update dino i d.toDinode)) i
          (Function.update (slots sect (Function.update dino i d.toDinode) i) (.addr k) top) := by
  have hslot : slots sect (Function.update dino i d.toDinode) i = refs sect d.toDinode := by
    rw [slots, Function.update_self]
  rw [← hslot] at hrefs
  have hzero : slots sect (Function.update dino i d.toDinode) i (.addr k) = 0 := by
    rw [hslot]
    exact hnone
  have hlaid := h.take hzero hrefs
  have hslots := slots_take hrefs
  rw [Function.update_idem] at hlaid hslots
  exact ⟨hlaid, hslots⟩

theorem Appending.freeblock_ne (h : Appending s₀ i d bytes nb s) : s.freeblock ≠ 0 :=
  Nat.ne_of_gt (Nat.lt_of_lt_of_le (by decide) h.laid.top)

theorem Appending.slot_eq (h : Appending s₀ i d bytes nb s) (sl : Slot) :
    refs s.sect d.toDinode sl ≠ 0 ↔ sl.index < nb i := by
  have hfilled := h.filled i sl
  rwa [slots, Function.update_self] at hfilled

theorem Appending.direct (h : Appending s₀ i d bytes nb s) (hnb : nb i < NDIRECT) :
    Appending s₀ i (d.set ⟨nb i, Nat.lt_succ_of_lt hnb⟩ s.freeblock) bytes (Function.update nb i (nb i + 1)) (took s) := by
  have hk : (⟨nb i, Nat.lt_succ_of_lt hnb⟩ : Fin (NDIRECT + 1)) ≠ indirect := fun heq =>
    absurd (congrArg Fin.val heq) (Nat.ne_of_lt hnb)
  have hnone : d.addrs ⟨nb i, Nat.lt_succ_of_lt hnb⟩ = 0 := by
    by_contra hne
    exact absurd ((h.slot_eq (.addr ⟨nb i, _⟩)).mp hne) (Nat.lt_irrefl _)
  obtain ⟨hlaid, hslots⟩ := h.laid.setAddr hnone (refs_setAddr (d := d.toDinode) hk s.freeblock)
  refine ⟨h.frame.took, h.tidy.took h.laid.top, hlaid, ?_⟩
  change ∀ i', Filled (slots s.sect _ i') _
  rw [hslots]
  exact filled_update h.filled ((h.filled i).direct hnb h.freeblock_ne)

theorem Laid.setEntry {sect : Nat → Block} {top : Nat} {dino : Nat → Dinode} {j : Nat} (hj : j < NINDIRECT)
    (h : Laid sect top (Function.update dino i d.toDinode) bytes) (hind : d.addrs indirect ≠ 0)
    (hnone : refs sect d.toDinode (.entry ⟨j, hj⟩) = 0) (htop : top < 2 ^ 32) :
    Laid (Function.update sect (d.addrs indirect) (putWord (sect (d.addrs indirect)) j top)) (top + 1)
        (Function.update dino i d.toDinode) bytes ∧
      slots (Function.update sect (d.addrs indirect) (putWord (sect (d.addrs indirect)) j top))
          (Function.update dino i d.toDinode) =
        Function.update (slots sect (Function.update dino i d.toDinode)) i
          (Function.update (slots sect (Function.update dino i d.toDinode) i) (.entry ⟨j, hj⟩) top) := by
  have hdino : (Function.update dino i d.toDinode i).addrs indirect = d.addrs indirect := by
    rw [Function.update_self]
    rfl
  have hzero : slots sect (Function.update dino i d.toDinode) i (.entry ⟨j, hj⟩) = 0 := by
    rw [slots, Function.update_self]
    exact hnone
  rw [← hdino] at hind
  have hlaid := h.entry (j := ⟨j, hj⟩) hind hzero htop
  have hslots := slots_entry (j := ⟨j, hj⟩) h.apart hind htop
  rw [hdino] at hlaid hslots
  exact ⟨hlaid, hslots⟩

/-- An entry of the indirect block gets a block. -/
theorem Appending.entry (h : Appending s₀ i d bytes nb s) (htop : s.freeblock ≤ FSSIZE) (hnb : NDIRECT < nb i)
    (hlt : nb i - NDIRECT < NINDIRECT) :
    Appending s₀ i d bytes (Function.update nb i (nb i + 1))
      (wrote .data (d.addrs indirect) (putWord (s.sect (d.addrs indirect)) (nb i - NDIRECT) s.freeblock) (took s)) := by
  have hind : d.addrs indirect ≠ 0 := (h.slot_eq (.addr indirect)).mpr hnb
  have hnone : refs s.sect d.toDinode (.entry ⟨nb i - NDIRECT, hlt⟩) = 0 := by
    by_contra hne
    have hindex := (h.slot_eq (.entry ⟨nb i - NDIRECT, hlt⟩)).mp hne
    change NDIRECT + (nb i - NDIRECT) < nb i at hindex
    omega
  have hrange : nmeta ≤ d.addrs indirect ∧ d.addrs indirect < s.freeblock := by
    have hrange := h.laid.used i (.addr indirect)
    rw [slots, Function.update_self] at hrange
    exact hrange hind
  obtain ⟨hlaid, hslots⟩ := h.laid.setEntry hlt hind hnone (Nat.lt_of_le_of_lt htop (by decide))
  have hsec : d.addrs indirect < FSSIZE := Nat.lt_of_lt_of_le hrange.2 htop
  refine ⟨h.frame.took.wrote _ hrange.1, (h.tidy.took h.laid.top).wrote _ hsec ⟨hrange.1, hsec⟩, hlaid, ?_⟩
  change ∀ i', Filled (slots (Function.update s.sect _ _) _ i') _
  rw [hslots]
  exact filled_update h.filled ((h.filled i).entry hnb hlt h.freeblock_ne)

/-- The indirect block and its first entry. -/
theorem Appending.first (h : Appending s₀ i d bytes nb s) (htop : s.freeblock < FSSIZE) (hnb : nb i = NDIRECT) :
    Appending s₀ i (d.set indirect s.freeblock) bytes (Function.update nb i (nb i + 1))
      (wrote .data s.freeblock (putWord (s.sect s.freeblock) 0 (s.freeblock + 1)) (took (took s))) := by
  have hnone : d.addrs indirect = 0 := by
    by_contra hne
    have hindex := (h.slot_eq (.addr indirect)).mp hne
    rw [hnb] at hindex
    exact absurd hindex (Nat.lt_irrefl _)
  have hfresh := h.laid.fresh s.freeblock (Nat.le_refl _)
  obtain ⟨hlaid, hslots⟩ := h.laid.setAddr hnone (refs_setIndirect (d := d.toDinode) hnone hfresh)
  have hind : (d.set indirect s.freeblock).addrs indirect = s.freeblock := Function.update_self indirect _ d.addrs
  have hentry : refs s.sect (d.set indirect s.freeblock).toDinode (.entry ⟨0, by decide⟩) = 0 := by
    change (if (d.set indirect s.freeblock).addrs indirect = 0 then 0
      else word (s.sect ((d.set indirect s.freeblock).addrs indirect)) 0) = 0
    rw [hind, hfresh, word_zero, ite_self]
  obtain ⟨hlaid', hslots'⟩ := hlaid.setEntry (by decide) (hind ▸ h.freeblock_ne) hentry
    (Nat.lt_of_le_of_lt htop (by decide))
  rw [hind] at hlaid' hslots'
  have htidy := (h.tidy.took h.laid.top).took (Nat.le_succ_of_le h.laid.top)
  refine ⟨h.frame.took.took.wrote _ h.laid.top, htidy.wrote _ htop ⟨h.laid.top, htop⟩, hlaid', ?_⟩
  change ∀ i', Filled (slots (Function.update s.sect _ _) _ i') _
  rw [hslots', hslots, Function.update_idem, Function.update_self]
  have hfilled := h.filled i
  rw [hnb] at hfilled ⊢
  exact filled_update h.filled (hfilled.first h.freeblock_ne (Nat.succ_ne_zero _))

theorem SameHead.refl (d : Dino) : SameHead d d := rfl

theorem SameHead.set (d : Dino) (k : Fin (NDIRECT + 1)) (b : Nat) : SameHead d (d.set k b) := rfl

theorem SameHead.trans {d' d'' : Dino} (h : SameHead d d') (h' : SameHead d' d'') : SameHead d d'' := by
  rw [SameHead, h', h]

/-- Block `bn` is there, as `x`, and is the only one that may lie outside the image. -/
structure Ready (s₀ : State) (i : Nat) (d : Dino) (bytes : Nat → List UInt8) (nb : Nat → Nat) (top bn : Nat) (r : Dino × Nat)
    (s : State) : Prop where
  appending : Appending s₀ i r.1 bytes (Function.update nb i (bn + 1)) s
  top : s.freeblock + cost (nb i) = top + cost (bn + 1)
  head : SameHead d r.1
  slot : ∃ sl, slotOf bn = some sl ∧ refs s.sect r.1.toDinode sl = r.2
  last : s.freeblock ≤ FSSIZE ∨ s.freeblock = r.2 + 1

theorem blockFor_direct {stop : String → Prop} {bn : Nat} (h : Appending s₀ i d bytes nb s) (htop : s.freeblock ≤ FSSIZE)
    (hlo : bn ≤ nb i) (hhi : nb i ≤ bn + 1) (hbn : bn < NDIRECT) :
    Triple stop (fun t => t = s) (blockFor d bn) (Ready s₀ i d bytes nb s.freeblock bn) := by
  rw [blockFor, dif_pos hbn]
  rcases Nat.lt_or_eq_of_le hlo with hlt | rfl
  · obtain heq : nb i = bn + 1 := Nat.le_antisymm hhi hlt
    have hne : d.addrs ⟨bn, Nat.lt_succ_of_lt hbn⟩ ≠ 0 := (h.slot_eq (.addr ⟨bn, _⟩)).mpr hlt
    apply Triple.runs (run_addrFor_of_ne hne)
    apply Triple.ret
    rintro t rfl
    have happ : Appending s₀ i d bytes (Function.update nb i (bn + 1)) t := by
      rwa [← heq, Function.update_eq_self]
    exact ⟨happ, by rw [heq], .refl d, ⟨_, slotOf_direct hbn, rfl⟩, Or.inl htop⟩
  · have hnone : d.addrs ⟨nb i, Nat.lt_succ_of_lt hbn⟩ = 0 := by
      by_contra hne
      exact absurd ((h.slot_eq (.addr ⟨nb i, _⟩)).mp hne) (Nat.lt_irrefl _)
    apply Triple.runs (run_addrFor_of_eq hnone)
    apply Triple.ret
    rintro t rfl
    refine ⟨h.direct hbn, ?_, .set .., ⟨_, slotOf_direct hbn, rfl⟩, Or.inr ?_⟩
    · change s.freeblock + 1 + cost (nb i) = s.freeblock + cost (nb i + 1)
      unfold cost
      rw [if_neg (Nat.not_lt.mpr (Nat.le_of_lt hbn)), if_neg (by omega)]
      omega
    · change s.freeblock + 1 = Function.update d.addrs _ s.freeblock _ + 1
      rw [Function.update_self]

theorem refs_entry {data : Nat → Block} {e : Dinode} {j : Nat} (hj : j < NINDIRECT) (h : e.addrs indirect ≠ 0) :
    refs data e (.entry ⟨j, hj⟩) = word (data (e.addrs indirect)) j := if_neg h

theorem Appending.read_lt (h : Appending s₀ i d bytes nb s) (htop : s.freeblock ≤ FSSIZE) (sl : Slot)
    (hne : refs s.sect d.toDinode sl ≠ 0) : refs s.sect d.toDinode sl < s.len := by
  have hrange := h.laid.used i sl
  rw [slots, Function.update_self] at hrange
  rw [h.tidy.len]
  exact Nat.lt_of_lt_of_le (hrange hne).2 htop

theorem blockFor_entry {stop : String → Prop} {bn : Nat} (h : Appending s₀ i d bytes nb s) (htop : s.freeblock ≤ FSSIZE)
    (hlo : bn ≤ nb i) (hhi : nb i ≤ bn + 1) (hbn : NDIRECT ≤ bn) (hmax : bn < MAXFILE) (hnb : NDIRECT < nb i) :
    Triple stop (fun t => t = s) (blockFor d bn) (Ready s₀ i d bytes nb s.freeblock bn) := by
  have hj : bn - NDIRECT < NINDIRECT := by
    unfold MAXFILE at hmax
    omega
  have hind : d.addrs indirect ≠ 0 := (h.slot_eq (.addr indirect)).mpr hnb
  have hlen : d.addrs indirect < s.len := h.read_lt htop (.addr indirect) hind
  have hentry : refs s.sect d.toDinode (.entry ⟨bn - NDIRECT, hj⟩) = word (s.sect (d.addrs indirect)) (bn - NDIRECT) :=
    refs_entry hj hind
  have hindex : (Slot.entry ⟨bn - NDIRECT, hj⟩).index = bn := index_slotOf (slotOf_entry hbn hj)
  rw [blockFor, dif_neg (Nat.not_lt.mpr hbn)]
  apply Triple.runs (run_addrFor_of_ne hind)
  apply Triple.runs (run_rsect hlen)
  apply Triple.ite
  · intro hzero
    rcases Nat.lt_or_eq_of_le hlo with hlt | rfl
    · exact absurd (hentry.trans hzero) ((h.slot_eq _).mpr (by rwa [hindex]))
    · apply Triple.runs (run_newBlock s)
      apply Triple.runs (run_wsect ..)
      apply Triple.ret
      rintro t rfl
      have hlt : s.freeblock < 2 ^ 32 := Nat.lt_of_le_of_lt htop (by decide)
      refine ⟨h.entry htop hnb hj, ?_, .refl d, ⟨_, slotOf_entry hbn hj, ?_⟩, Or.inr rfl⟩
      · change s.freeblock + 1 + cost (nb i) = s.freeblock + cost (nb i + 1)
        unfold cost
        rw [if_pos hnb, if_pos (Nat.lt_succ_of_lt hnb)]
        omega
      · have hset := @refs_setEntry s.sect d.toDinode ⟨nb i - NDIRECT, hj⟩ _ hind hlt
        exact (congrFun hset _).trans (Function.update_self ..)
  · intro hne
    have hlt : bn < nb i := by
      rw [← hindex]
      apply (h.slot_eq _).mp
      rwa [hentry]
    obtain heq : nb i = bn + 1 := Nat.le_antisymm hhi hlt
    apply Triple.ret
    rintro t rfl
    have happ : Appending s₀ i d bytes (Function.update nb i (bn + 1)) t := by
      rwa [← heq, Function.update_eq_self]
    exact ⟨happ, by rw [heq], .refl d, ⟨_, slotOf_entry hbn hj, hentry⟩, Or.inl htop⟩

theorem blockFor_first {stop : String → Prop} (h : Appending s₀ i d bytes nb s)
    (hstop : FSSIZE ≤ s.freeblock → stop "read") (hnb : nb i = NDIRECT) :
    Triple stop (fun t => t = s) (blockFor d NDIRECT) (Ready s₀ i d bytes nb s.freeblock NDIRECT) := by
  have hnone : d.addrs indirect = 0 := by
    by_contra hne
    have hindex := (h.slot_eq (.addr indirect)).mp hne
    rw [hnb] at hindex
    exact absurd hindex (Nat.lt_irrefl _)
  have hind : (d.set indirect s.freeblock).addrs indirect = s.freeblock := Function.update_self indirect _ d.addrs
  have hzero : word ((took s).sect s.freeblock) (NDIRECT - NDIRECT) = 0 := by
    change word (s.sect s.freeblock) _ = 0
    rw [h.laid.fresh _ (Nat.le_refl _), word_zero]
  rw [blockFor, dif_neg (Nat.lt_irrefl _)]
  apply Triple.runs (run_addrFor_of_eq hnone)
  rw [hind]
  apply triple_rsect
  · intro hlen
    exact hstop (h.tidy.len ▸ hlen)
  · intro hlen
    have htop : s.freeblock < FSSIZE := h.tidy.len ▸ hlen
    rw [if_pos hzero]
    apply Triple.runs (run_newBlock _)
    apply Triple.runs (run_wsect ..)
    apply Triple.ret
    rintro t rfl
    have happ := h.first htop hnb
    rw [hnb] at happ
    refine ⟨happ, ?_, .set .., ⟨_, slotOf_entry (Nat.le_refl _) (by decide), ?_⟩, Or.inr rfl⟩
    · change s.freeblock + 1 + 1 + cost (nb i) = s.freeblock + cost (NDIRECT + 1)
      rw [hnb]
      rfl
    · have hset := @refs_setEntry s.sect (d.set indirect s.freeblock).toDinode ⟨0, by decide⟩ _
        (hind ▸ h.freeblock_ne) (Nat.lt_of_le_of_lt htop (by decide))
      change (d.set indirect s.freeblock).toDinode.addrs indirect = s.freeblock at hind
      rw [hind] at hset
      exact (congrFun hset _).trans (Function.update_self ..)

theorem blockFor_spec {fits : Prop} {bn : Nat} (h : Appending s₀ i d bytes nb s) (htop : s.freeblock ≤ FSSIZE)
    (hlo : bn ≤ nb i) (hhi : nb i ≤ bn + 1) (hmax : bn < MAXFILE)
    (hfits : fits → s.freeblock + cost (bn + 1) ≤ FSSIZE + cost (nb i)) :
    Triple (fun _ => ¬fits) (fun t => t = s) (blockFor d bn) (Ready s₀ i d bytes nb s.freeblock bn) := by
  rcases Nat.lt_or_ge bn NDIRECT with hbn | hbn
  · exact blockFor_direct h htop hlo hhi hbn
  rcases Nat.lt_or_ge NDIRECT (nb i) with hnb | hnb
  · exact blockFor_entry h htop hlo hhi hbn hmax hnb
  obtain rfl : bn = NDIRECT := Nat.le_antisymm (Nat.le_trans hlo hnb) hbn
  have heq : nb i = NDIRECT := Nat.le_antisymm hnb hlo
  apply blockFor_first h _ heq
  intro hge hfit
  have hcost := hfits hfit
  rw [heq, show cost (NDIRECT + 1) = cost NDIRECT + 2 from rfl] at hcost
  omega

end Blocks

section Loop

variable {s₀ s : State} {i : Nat} {d : Dino} {bytes : Nat → List UInt8} {nb : Nat → Nat}

theorem store_getD (bs p : List UInt8) :
    Bytes.store (fun k => bs.getD k 0) bs.length p = fun k => (bs ++ p).getD k 0 := by
  funext k
  unfold Bytes.store
  split_ifs with h
  · rw [List.getD_append_right _ _ _ _ h.1]
  · rcases Nat.lt_or_ge k bs.length with hlt | hge
    · rw [List.getD_append _ _ _ _ hlt]
    · have hout : (bs ++ p).length ≤ k := by
        rw [List.length_append]
        omega
      rw [List.getD_eq_default _ _ hout]
      exact List.getD_eq_default _ _ hge

/-- Bytes are written into the last block of the file. -/
theorem Ready.write {top bn : Nat} {r : Dino × Nat} {p : List UInt8} (h : Ready s₀ i d bytes nb top bn r s)
    (hx : r.2 < FSSIZE) (hlo : bn * BSIZE ≤ (bytes i).length) (hhi : (bytes i).length + p.length ≤ (bn + 1) * BSIZE) :
    Appending s₀ i r.1 (Function.update bytes i (bytes i ++ p)) (Function.update nb i (bn + 1))
      (wrote .data r.2 (Bytes.store (s.sect r.2) ((bytes i).length - bn * BSIZE) p) s) := by
  obtain ⟨sl, hsl, hr⟩ := h.slot
  have happ := h.appending
  have hslot : slots s.sect (Function.update (inodes s₀) i r.1.toDinode) i sl = r.2 := by
    rw [slots, Function.update_self, hr]
  have hne : slots s.sect (Function.update (inodes s₀) i r.1.toDinode) i sl ≠ 0 := by
    apply (happ.filled i sl).mpr
    rw [index_slotOf hsl, Function.update_self]
    exact Nat.lt_succ_self bn
  have hmeta : nmeta ≤ r.2 := hslot ▸ (happ.laid.used i sl hne).1
  have hfits : (bytes i).length - bn * BSIZE + p.length ≤ BSIZE := by
    rw [Nat.succ_mul] at hhi
    omega
  have hstore : Bytes.store (fun k => (bytes i).getD k 0) (bn * BSIZE + ((bytes i).length - bn * BSIZE)) p =
      fun k => (bytes i ++ p).getD k 0 := by
    rw [Nat.add_sub_cancel' hlo]
    exact store_getD ..
  have hlaid := happ.laid.write hsl hne hfits hstore
  have hind : sl ≠ .addr indirect := fun heq => slotOf_ne_indirect bn (heq ▸ hsl)
  have hslots := slots_write happ.laid.apart hne hind (Bytes.store (s.sect r.2) ((bytes i).length - bn * BSIZE) p)
  rw [hslot] at hlaid hslots
  refine ⟨happ.frame.wrote _ hmeta, happ.tidy.wrote _ hx ⟨hmeta, hx⟩, hlaid, ?_⟩
  change ∀ i', Filled (slots (Function.update s.sect _ _) _ i') _
  rw [hslots]
  exact happ.filled

/-- After the bytes `p` are appended to `bytes i`. -/
structure Appended (s₀ : State) (i : Nat) (d : Dino) (bytes : Nat → List UInt8) (nb : Nat → Nat) (top : Nat) (p : List UInt8)
    (r : Dino × Nat) (s : State) : Prop where
  appending : Appending s₀ i r.1 (Function.update bytes i (bytes i ++ p))
    (Function.update nb i (blocks ((bytes i).length + p.length))) s
  top : s.freeblock + cost (blocks (bytes i).length) = top + cost (blocks ((bytes i).length + p.length))
  fits : s.freeblock ≤ FSSIZE
  small : (bytes i).length ≤ MAXFILE * BSIZE → (bytes i).length + p.length ≤ MAXFILE * BSIZE
  head : SameHead d r.1
  off : r.2 = (bytes i).length + p.length

theorem Ready.lt {top bn : Nat} {r : Dino × Nat} (h : Ready s₀ i d bytes nb top bn r s) : r.2 < s.freeblock := by
  obtain ⟨sl, hsl, hr⟩ := h.slot
  have hrange := h.appending.laid.used i sl
  rw [slots, Function.update_self, hr] at hrange
  apply (hrange _).2
  rw [← hr]
  apply (h.appending.slot_eq sl).mpr
  rw [index_slotOf hsl, Function.update_self]
  exact Nat.lt_succ_self bn

theorem Appended.nil (h : Appending s₀ i d bytes nb s) (htop : s.freeblock ≤ FSSIZE)
    (hnb : nb i = blocks (bytes i).length) : Appended s₀ i d bytes nb s.freeblock [] (d, (bytes i).length) s where
  appending := by
    rw [List.append_nil, List.length_nil, Nat.add_zero, ← hnb, Function.update_eq_self, Function.update_eq_self]
    exact h
  top := rfl
  fits := htop
  small h := h
  head := .refl d
  off := rfl

theorem Appended.cons {top bn : Nat} {r r' : Dino × Nat} {p q : List UInt8} {s' : State}
    (h : Ready s₀ i d bytes nb top bn r s) (hnb : nb i = blocks (bytes i).length)
    (hbn : blocks ((bytes i).length + p.length) = bn + 1) (hsmall : (bytes i).length + p.length ≤ MAXFILE * BSIZE)
    (h' : Appended s₀ i r.1 (Function.update bytes i (bytes i ++ p)) (Function.update nb i (bn + 1)) s.freeblock q r' s') :
    Appended s₀ i d bytes nb top (p ++ q) r' s' := by
  obtain ⟨happ, htop, hfits, hsm, hhead, hoff⟩ := h'
  rw [Function.update_self, Function.update_idem, Function.update_idem, List.append_assoc, List.length_append] at happ
  rw [Function.update_self, List.length_append] at htop hsm hoff
  have htop' := h.top
  rw [hnb] at htop'
  rw [hbn] at htop
  constructor
  · rwa [List.length_append, ← Nat.add_assoc]
  · rw [List.length_append, ← Nat.add_assoc]
    omega
  · exact hfits
  · intro _
    rw [List.length_append, ← Nat.add_assoc]
    exact hsm hsmall
  · exact h.head.trans hhead
  · rw [hoff, List.length_append, Nat.add_assoc]

/-- One turn: the block of the end of the file is found and the bytes are stored in it. -/
theorem turn_spec {fits : Prop} {bn : Nat} {p : List UInt8} {α : Type} {f : Dino → M α} {Q : α → State → Prop}
    (h : Appending s₀ i d bytes nb s) (htop : s.freeblock ≤ FSSIZE) (hnb : nb i = blocks (bytes i).length)
    (hlo : bn * BSIZE ≤ (bytes i).length) (hmax : bn < MAXFILE)
    (hhi : (bytes i).length + p.length ≤ (bn + 1) * BSIZE)
    (hfits : fits → s.freeblock + cost (bn + 1) ≤ FSSIZE + cost (nb i))
    (hf : ∀ r t, Ready s₀ i d bytes nb s.freeblock bn r t → r.2 < FSSIZE → Triple (fun _ => ¬fits)
      (fun u => u = wrote .data r.2 (Bytes.store (t.sect r.2) ((bytes i).length - bn * BSIZE) p) t) (f r.1) Q) :
    Triple (fun _ => ¬fits) (fun t => t = s) (do
      let (d, x) ← blockFor d bn
      let a ← rsect x
      wsect .data x (Bytes.store a ((bytes i).length - bn * BSIZE) p)
      f d) Q := by
  have hle : nb i ≤ bn + 1 := hnb ▸ blocks_le (Nat.le_trans (Nat.le_add_right ..) hhi)
  refine (blockFor_spec h htop (hnb ▸ le_blocks hlo) hle hmax hfits).bind fun r => Triple.each fun t ht => ?_
  have hlen := ht.appending.tidy.len
  apply triple_rsect
  · -- the block lies behind the end of the image, so it was the last one that was taken
    intro hout hfit
    have hx := ht.lt
    have hroom := hfits hfit
    have hcost := ht.top
    have hlast := ht.last
    omega
  · intro hin
    apply Triple.runs (run_wsect ..)
    exact hf r t ht (hlen ▸ hin)

theorem appendLoop_spec {fits : Prop} (fuel : Nat) {off : Nat} {p : List UInt8} (hfuel : p.length ≤ fuel)
    (h : Appending s₀ i d bytes nb s) (htop : s.freeblock ≤ FSSIZE) (hoff : (bytes i).length = off)
    (hnb : nb i = blocks off)
    (hfits : fits → off + p.length ≤ MAXFILE * BSIZE ∧
      s.freeblock + cost (blocks (off + p.length)) ≤ FSSIZE + cost (blocks off)) :
    Triple (fun _ => ¬fits) (fun t => t = s) (appendLoop fuel d off p) (Appended s₀ i d bytes nb s.freeblock p) := by
  induction fuel generalizing d off p bytes nb s with
  | zero =>
    obtain rfl : p = [] := List.length_eq_zero_iff.mp (Nat.le_zero.mp hfuel)
    subst hoff
    apply Triple.ret
    rintro t rfl
    exact .nil h htop hnb
  | succ fuel ih =>
    subst hoff
    unfold appendLoop
    by_cases hp : p = []
    · subst hp
      rw [if_pos rfl]
      apply Triple.ret
      rintro t rfl
      exact .nil h htop hnb
    rw [if_neg hp]
    have hpos : 0 < p.length := List.length_pos_iff.mpr hp
    by_cases hmax : MAXFILE ≤ (bytes i).length / BSIZE
    · rw [if_pos hmax]
      apply Triple.fail
      intro hfit
      have hle := (hfits hfit).1
      have hge := (Nat.le_div_iff_mul_le (by decide)).mp hmax
      omega
    rw [if_neg hmax]
    generalize hbn : (bytes i).length / BSIZE = bn at hmax ⊢
    have hlo : bn * BSIZE ≤ (bytes i).length := hbn ▸ Nat.div_mul_le_self _ BSIZE
    have hhi : (bytes i).length < (bn + 1) * BSIZE := (Nat.div_lt_iff_lt_mul (by decide)).mp (hbn ▸ Nat.lt_succ_self _)
    -- the part of `p` that goes into block `bn`
    have hmin : (bytes i).length + min p.length ((bn + 1) * BSIZE - (bytes i).length) ≤ (bn + 1) * BSIZE := by omega
    have hminpos : 0 < min p.length ((bn + 1) * BSIZE - (bytes i).length) := by omega
    have hminle : min p.length ((bn + 1) * BSIZE - (bytes i).length) ≤ p.length := Nat.min_le_left ..
    generalize min p.length ((bn + 1) * BSIZE - (bytes i).length) = n1 at hmin hminpos hminle ⊢
    have hlen : (p.take n1).length = n1 := List.length_take_of_le hminle
    have hdrop : n1 + (p.drop n1).length = p.length := by
      rw [List.length_drop]
      omega
    have hblocks : blocks ((bytes i).length + n1) = bn + 1 :=
      Nat.le_antisymm (blocks_le hmin) (lt_blocks (Nat.lt_of_le_of_lt hlo (Nat.lt_add_of_pos_right hminpos)))
    have hsmall : (bytes i).length + n1 ≤ MAXFILE * BSIZE :=
      Nat.le_trans hmin (Nat.mul_le_mul_right _ (Nat.lt_of_not_le hmax))
    have hcost : cost (bn + 1) ≤ cost (blocks ((bytes i).length + p.length)) := by
      rw [← hblocks]
      exact cost_le (blocks_mono (Nat.add_le_add_left hminle _))
    apply turn_spec (f := fun d => appendLoop fuel d ((bytes i).length + n1) (p.drop n1)) h htop hnb hlo
      (Nat.lt_of_not_le hmax) (hlen.symm ▸ hmin)
    · intro hfit
      have hroom := (hfits hfit).2
      rw [hnb]
      omega
    intro r t ht hx
    have happ := ht.write (p := p.take n1) hx hlo (hlen.symm ▸ hmin)
    have htop' : t.freeblock ≤ FSSIZE := ht.last.elim id fun heq => heq ▸ hx
    have hbytes : (Function.update bytes i (bytes i ++ p.take n1) i).length = (bytes i).length + n1 := by
      rw [Function.update_self, List.length_append, hlen]
    have hnb' : Function.update nb i (bn + 1) i = blocks ((bytes i).length + n1) := by
      rw [Function.update_self, hblocks]
    refine (ih (by omega) happ htop' hbytes hnb' ?_).post fun r' t' h' => ?_
    · intro hfit
      have hroom := hfits hfit
      have htake := ht.top
      rw [Nat.add_assoc, hdrop, hblocks]
      rw [hnb] at htake
      refine ⟨hroom.1, ?_⟩
      change t.freeblock + _ ≤ _
      omega
    · rw [← List.take_append_drop n1 p]
      exact .cons ht hnb (by rw [hlen, hblocks]) (hlen.symm ▸ hsmall) h'

end Loop

end Chameleon.Mkfs
