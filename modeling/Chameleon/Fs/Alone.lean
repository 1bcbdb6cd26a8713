import Mathlib.Data.Finset.Card
import Mathlib.Data.Finset.Range
import Chameleon.Lib.Solo
import Chameleon.Fs.Content
import Chameleon.Fs.Model

/-! `balloc` and `bmap` of a process that runs alone. The inode it works on is ahead of its dinode until `iupdate`. -/

namespace Chameleon.Fs
open Conc Hoare

section Balloc

variable {sb : Super} {p : Pid} {s : State}

/-- The number of free blocks. -/
def Disk.free (sb : Super) (D : Disk) : Nat := ((Finset.range sb.size).filter fun b => D.bit b = false).card

theorem clear_some {D : Disk} {j b : Nat} (h : D.clear sb j = some b) : D.bit b = false ∧ b < sb.size := by
  have hbit := List.find?_some h
  have hmem := List.mem_range'_1.mp (List.mem_of_find?_eq_some h)
  refine ⟨Bool.not_eq_true' _ |>.mp hbit, ?_⟩
  omega

theorem clear_none {D : Disk} {j b : Nat} (h : D.clear sb j = none) (hb : b < sb.size) (hj : b / BPB = j) : D.bit b = true := by
  have hall := List.find?_eq_none.mp h b
  rw [List.mem_range'_1] at hall
  have hlo : j * BPB ≤ b := hj ▸ Nat.div_mul_le_self b BPB
  have hhi : b < (j + 1) * BPB := (Nat.div_lt_iff_lt_mul (by decide)).mp (hj ▸ Nat.lt_succ_self _)
  have hbit := hall ⟨hlo, by rw [Nat.succ_mul] at hhi; omega⟩
  cases hb : D.bit b with
  | true => rfl
  | false => exact absurd (by rw [hb]; rfl) hbit

/-- A block is taken and zeroed. -/
def took (s : State) (b : Nat) : State := (s.setBit b true).setData b fun _ => 0

theorem free_took {D : Disk} {b : Nat} (hb : b < sb.size) (hbit : D.bit b = false) :
    Disk.free sb { D with bit := Function.update D.bit b true } + 1 = D.free sb := by
  have hmem : b ∈ (Finset.range sb.size).filter fun x => D.bit x = false := by
    rw [Finset.mem_filter, Finset.mem_range]
    exact ⟨hb, hbit⟩
  have herase : ((Finset.range sb.size).filter fun x => Function.update D.bit b true x = false) =
      ((Finset.range sb.size).filter fun x => D.bit x = false).erase b := by
    ext x
    rw [Finset.mem_erase, Finset.mem_filter, Finset.mem_filter]
    by_cases hx : x = b
    · subst hx
      simp
    · simp [hx]
  unfold Disk.free
  rw [herase, Finset.card_erase_add_one hmem]

theorem ballocFrom_spec {stop : String → Prop} (js : List Nat)
    (hstop : (∀ j ∈ js, s.disk.clear sb j = none) → stop "balloc: out of blocks") :
    Triple stop (fun t => t = s) (solo (sem sb) p (ballocFrom js)) fun b t =>
      (s.disk.bit b = false ∧ b < sb.size) ∧ t = took s b := by
  induction js with
  | nil => exact Triple.fail (hstop nofun)
  | cons j js ih =>
    rw [ballocFrom, solo_bind, solo_lift]
    cases hclear : s.disk.clear sb j with
    | none =>
      have hrun : (once (sem sb) p (.ballocIn j)).run s = .ok (none, s) := by
        apply run_once
        simp only [sem, hclear]
        rfl
      apply Triple.runs hrun
      apply ih
      intro hjs
      apply hstop
      exact List.forall_mem_cons.mpr ⟨hclear, hjs⟩
    | some b =>
      have hrun : (once (sem sb) p (.ballocIn j)).run s = .ok (some b, s.setBit b true) := by
        apply run_once
        simp only [sem, hclear]
        rfl
      apply Triple.runs hrun
      rw [solo_bind, solo_lift]
      apply Triple.runs (run_once rfl)
      apply Triple.ret
      rintro t rfl
      exact ⟨clear_some hclear, rfl⟩

theorem balloc_spec {roomy : Prop} (hroom : roomy → 0 < s.disk.free sb) :
    Triple (fun _ => ¬roomy) (fun t => t = s) (solo (sem sb) p (balloc sb)) fun b t =>
      (s.disk.bit b = false ∧ b < sb.size) ∧ t = took s b := by
  apply ballocFrom_spec
  intro hnone hroomy
  obtain ⟨b, hb⟩ := Finset.card_pos.mp (hroom hroomy)
  rw [Finset.mem_filter, Finset.mem_range] at hb
  have hj : b / BPB ∈ List.range ((sb.size + BPB - 1) / BPB) := by
    rw [List.mem_range, Nat.div_lt_iff_lt_mul (by decide)]
    have hle := Nat.div_add_mod (sb.size + BPB - 1) BPB
    have hlt := Nat.mod_lt (sb.size + BPB - 1) (show 0 < BPB by decide)
    unfold BPB BSIZE at *
    omega
  have hbit := clear_none (hnone _ hj) hb.1 rfl
  rw [hb.2] at hbit
  exact Bool.noConfusion hbit

end Balloc

section Volume

/-- The data blocks that the bitmap marks. -/
def Used (sb : Super) (D : Disk) (b : Nat) : Prop := sb.nmeta ≤ b ∧ b < sb.size ∧ D.bit b = true

/-- The disk holds the files `file`, by the inodes `dino`. -/
structure Sound (sb : Super) (D : Disk) (dino : Nat → Dinode) (file : Nat → Nat → UInt8) : Prop
    extends Holds (Used sb D) D.data dino file where
  low : ∀ b < sb.nmeta, D.bit b = true

variable {sb : Super} {D : Disk} {dino : Nat → Dinode} {file : Nat → Nat → UInt8} {b : Nat}

theorem Sound.ge (h : Sound sb D dino file) (hbit : D.bit b = false) : sb.nmeta ≤ b := by
  by_contra hlt
  have hset := h.low b (Nat.lt_of_not_le hlt)
  rw [hbit] at hset
  exact Bool.noConfusion hset

theorem Sound.ne_zero (h : Sound sb D dino file) (hbit : D.bit b = false) : b ≠ 0 :=
  Nat.ne_of_gt (Nat.lt_of_lt_of_le sb.pos (h.ge hbit))

theorem not_used (hbit : D.bit b = false) : ¬Used sb D b := fun h => by
  have hset := h.2.2
  rw [hbit] at hset
  exact Bool.noConfusion hset

/-- The disk with block `b` taken and zeroed. -/
def Disk.take (D : Disk) (b : Nat) : Disk :=
  { D with bit := Function.update D.bit b true, data := Function.update D.data b fun _ => 0 }

/-- The disk with block `b` written. -/
def Disk.write (D : Disk) (b : Nat) (a : Block) : Disk := { D with data := Function.update D.data b a }

theorem Disk.take_bit_self (D : Disk) (b : Nat) : (D.take b).bit b = true := by simp [Disk.take]

theorem Disk.take_data_self (D : Disk) (b : Nat) : (D.take b).data b = fun _ => 0 := by simp [Disk.take]

theorem used_take_sub (x : Nat) (hx : Used sb D x) : Used sb (D.take b) x := by
  refine ⟨hx.1, hx.2.1, ?_⟩
  change Function.update D.bit b true x = true
  by_cases heq : x = b
  · rw [heq, Function.update_self]
  · rw [Function.update_of_ne heq]
    exact hx.2.2

theorem Sound.used_new (h : Sound sb D dino file) (hbit : D.bit b = false) (hlt : b < sb.size) : Used sb (D.take b) b :=
  ⟨h.ge hbit, hlt, D.take_bit_self b⟩

theorem Sound.low_take (h : Sound sb D dino file) (x : Nat) (hx : x < sb.nmeta) : (D.take b).bit x = true := by
  change Function.update D.bit b true x = true
  by_cases heq : x = b
  · rw [heq, Function.update_self]
  · rw [Function.update_of_ne heq]
    exact h.low x hx

theorem Sound.setAddr {i : Nat} {sl : Slot} {d : Dinode} (h : Sound sb D dino file) (hbit : D.bit b = false) (hlt : b < sb.size)
    (hnone : slots (D.take b).data dino i sl = 0)
    (hd : refs (D.take b).data d = Function.update (slots (D.take b).data dino i) sl b) :
    Sound sb (D.take b) (Function.update dino i d) file where
  toHolds := (h.toHolds.unused (not_used hbit) _).take (not_used hbit) (h.ne_zero hbit)
    (D.take_data_self b) (fun x hx => used_take_sub x hx) (h.used_new hbit hlt) hnone hd
  low := h.low_take

theorem Sound.setEntry {i : Nat} {j : Fin NINDIRECT} (h : Sound sb D dino file) (hbit : D.bit b = false) (hlt : b < sb.size)
    (hind : (dino i).addrs indirect ≠ 0) (hnone : slots (D.take b).data dino i (.entry j) = 0) :
    Sound sb ((D.take b).write ((dino i).addrs indirect) (putWord ((D.take b).data ((dino i).addrs indirect)) j b)) dino
      file where
  toHolds := (h.toHolds.unused (not_used hbit) _).entry (not_used hbit) (h.ne_zero hbit)
    (D.take_data_self b) (fun x hx => used_take_sub x hx) (h.used_new hbit hlt) hind hnone
    (Nat.lt_trans hlt sb.fits)
  low := h.low_take

theorem Sound.write {i bn o : Nat} {sl : Slot} {bs : List UInt8} (h : Sound sb D dino file) (hsl : slotOf bn = some sl)
    (hne : slots D.data dino i sl ≠ 0) (hfits : o + bs.length ≤ BSIZE) :
    Sound sb (D.write (slots D.data dino i sl) (Bytes.store (D.data (slots D.data dino i sl)) o bs)) dino
      (Function.update file i (Bytes.store (file i) (bn * BSIZE + o) bs)) where
  toHolds := h.toHolds.write hsl hne hfits
  low := h.low

end Volume

section Bmap

variable {sb : Super} {p : Pid} {e : Entry} {s₀ s : State} {file : Nat → Nat → UInt8} {nb b : Nat}

/-- What a process changes outside of the data blocks and the bitmap while it works on inode `e`: the addresses. -/
structure Framed (e : Entry) (s₀ s : State) : Prop where
  tab : s.tab = s₀.tab
  dino : s.disk.dino = s₀.disk.dino
  ino : ∀ e', e' ≠ e → s.ino e' = s₀.ino e'
  holder : (s.ino e).holder = (s₀.ino e).holder
  valid : (s.ino e).valid = (s₀.ino e).valid
  head : (s.ino e).d = { (s₀.ino e).d with addrs := (s.ino e).d.addrs }
  input : s.input = s₀.input

/-- The inodes, with `e` ahead of its dinode. -/
def ahead (s₀ : State) (e : Entry) (d : Dinode) : Nat → Dinode :=
  Function.update s₀.disk.dino (s₀.tab.icache e).inum d

/-- In the middle of work on inode `e`. -/
structure Working (sb : Super) (e : Entry) (s₀ : State) (file : Nat → Nat → UInt8) (s : State) : Prop where
  frame : Framed e s₀ s
  sound : Sound sb s.disk (ahead s₀ e (s.ino e).d) file
  others : ∀ i, i ≠ (s₀.tab.icache e).inum → slots s.disk.data s₀.disk.dino i = slots s₀.disk.data s₀.disk.dino i

/-- The inode has its first `nb` blocks. -/
structure Writing (sb : Super) (e : Entry) (s₀ : State) (file : Nat → Nat → UInt8) (nb : Nat) (s : State) : Prop
    extends Working sb e s₀ file s where
  filled : Filled (refs s.disk.data (s.ino e).d) nb

def Dinode.set (d : Dinode) (k : Fin (NDIRECT + 1)) (b : Nat) : Dinode := { d with addrs := Function.update d.addrs k b }

/-- Inode `e` has got block `b`. -/
def grown (s : State) (e : Entry) (k : Fin (NDIRECT + 1)) (b : Nat) : State :=
  (took s b).setIno e { s.ino e with d := (s.ino e).d.set k b }

theorem slots_ahead (data : Nat → Block) (s₀ : State) (e : Entry) (d : Dinode) :
    slots data (ahead s₀ e d) (s₀.tab.icache e).inum = refs data d := by
  rw [slots, ahead, Function.update_self]

theorem Working.used (h : Working sb e s₀ file s) (sl : Slot) (hne : refs s.disk.data (s.ino e).d sl ≠ 0) :
    Used sb s.disk (refs s.disk.data (s.ino e).d sl) := by
  have hused := h.sound.used (s₀.tab.icache e).inum sl
  rw [slots_ahead] at hused
  exact hused hne

/-- A block that is not in use is no block of a file. -/
theorem Working.refs_take (h : Working sb e s₀ file s) (hbit : s.disk.bit b = false) :
    refs (s.disk.take b).data (s.ino e).d = refs s.disk.data (s.ino e).d := by
  apply refs_congr
  intro hne
  apply Function.update_of_ne
  intro heq
  apply not_used hbit
  rw [← heq]
  exact h.used (.addr indirect) hne

theorem Working.other_used (h : Working sb e s₀ file s) {i : Nat} (hi : i ≠ (s₀.tab.icache e).inum)
    (hne : (s₀.disk.dino i).addrs indirect ≠ 0) : Used sb s.disk ((s₀.disk.dino i).addrs indirect) := by
  have hused := h.sound.used i (.addr indirect)
  rw [slots, ahead, Function.update_of_ne hi] at hused
  exact hused hne

theorem Working.other_ne (h : Working sb e s₀ file s) {i : Nat} (hi : i ≠ (s₀.tab.icache e).inum) (sl : Slot)
    (hne : refs s.disk.data (s.ino e).d sl ≠ 0) :
    (s₀.disk.dino i).addrs indirect ≠ refs s.disk.data (s.ino e).d sl := by
  intro heq
  have hapart := @h.sound.apart (s₀.tab.icache e).inum sl i (.addr indirect)
  rw [slots_ahead, slots, ahead, Function.update_of_ne hi] at hapart
  exact hi (hapart hne heq).1

theorem Working.others_of {data : Nat → Block} (h : Working sb e s₀ file s)
    (hdata : ∀ i, i ≠ (s₀.tab.icache e).inum → (s₀.disk.dino i).addrs indirect ≠ 0 →
      data ((s₀.disk.dino i).addrs indirect) = s.disk.data ((s₀.disk.dino i).addrs indirect)) (i : Nat)
    (hi : i ≠ (s₀.tab.icache e).inum) : slots data s₀.disk.dino i = slots s₀.disk.data s₀.disk.dino i := by
  rw [← h.others i hi]
  exact refs_congr (hdata i hi)

theorem grown_ino (s : State) (e : Entry) (k : Fin (NDIRECT + 1)) (b : Nat) :
    (grown s e k b).ino e = { s.ino e with d := (s.ino e).d.set k b } := by
  simp [grown, State.setIno]

theorem Framed.grown (h : Framed e s₀ s) (k : Fin (NDIRECT + 1)) (b : Nat) : Framed e s₀ (grown s e k b) where
  tab := h.tab
  dino := h.dino
  ino e' he := (Function.update_of_ne he ..).trans (h.ino e' he)
  holder := by rw [grown_ino]; exact h.holder
  valid := by rw [grown_ino]; exact h.valid
  head := by rw [grown_ino, Dinode.set, h.head]
  input := h.input

theorem refs_set {data : Nat → Block} {d : Dinode} {k : Fin (NDIRECT + 1)} (hnone : d.addrs k = 0)
    (hzero : data b = fun _ => 0) : refs data (d.set k b) = Function.update (refs data d) (.addr k) b := by
  by_cases hk : k = indirect
  · subst hk
    exact refs_setIndirect hnone hzero
  · exact refs_setAddr hk b

theorem Working.setAddr {k : Fin (NDIRECT + 1)} (h : Working sb e s₀ file s) (hbit : s.disk.bit b = false)
    (hlt : b < sb.size) (hnone : (s.ino e).d.addrs k = 0) :
    Working sb e s₀ file (grown s e k b) ∧ refs (grown s e k b).disk.data ((grown s e k b).ino e).d =
      Function.update (refs s.disk.data (s.ino e).d) (.addr k) b := by
  have hrefs : refs (s.disk.take b).data ((s.ino e).d.set k b) =
      Function.update (refs s.disk.data (s.ino e).d) (.addr k) b := by
    rw [refs_set hnone (Disk.take_data_self ..), h.refs_take hbit]
  have hslots := slots_ahead (s.disk.take b).data s₀ e (s.ino e).d
  have hzero : slots (s.disk.take b).data (ahead s₀ e (s.ino e).d) (s₀.tab.icache e).inum (.addr k) = 0 := by
    rw [hslots]
    exact hnone
  have hd : refs (s.disk.take b).data ((s.ino e).d.set k b) =
      Function.update (slots (s.disk.take b).data (ahead s₀ e (s.ino e).d) (s₀.tab.icache e).inum) (.addr k) b := by
    rw [hslots, hrefs, h.refs_take hbit]
  have hsound := h.sound.setAddr hbit hlt hzero hd
  rw [ahead, Function.update_idem] at hsound
  rw [grown_ino]
  refine ⟨⟨h.frame.grown k b, ?_, ?_⟩, hrefs⟩
  · rw [grown_ino]
    exact hsound
  · apply h.others_of
    intro i hi hne
    apply Function.update_of_ne
    intro heq
    apply not_used hbit
    rw [← heq]
    exact h.other_used hi hne

/-- An entry of the indirect block of inode `e` has got block `b`. -/
def entered (s : State) (e : Entry) (j b : Nat) : State :=
  (took s b).setData ((s.ino e).d.addrs indirect) (putWord ((s.disk.take b).data ((s.ino e).d.addrs indirect)) j b)

theorem Working.setEntry {j : Fin NINDIRECT} (h : Working sb e s₀ file s) (hbit : s.disk.bit b = false) (hlt : b < sb.size)
    (hind : (s.ino e).d.addrs indirect ≠ 0) (hnone : refs s.disk.data (s.ino e).d (.entry j) = 0) :
    Working sb e s₀ file (entered s e j b) ∧ refs (entered s e j b).disk.data ((entered s e j b).ino e).d =
      Function.update (refs s.disk.data (s.ino e).d) (.entry j) b := by
  have hdino : (ahead s₀ e (s.ino e).d (s₀.tab.icache e).inum).addrs indirect = (s.ino e).d.addrs indirect := by
    rw [ahead, Function.update_self]
  have hzero : slots (s.disk.take b).data (ahead s₀ e (s.ino e).d) (s₀.tab.icache e).inum (.entry j) = 0 := by
    rw [slots_ahead, h.refs_take hbit]
    exact hnone
  have hsound := h.sound.setEntry hbit hlt (hdino.symm ▸ hind) hzero
  rw [hdino] at hsound
  refine ⟨⟨⟨h.frame.tab, h.frame.dino, h.frame.ino, h.frame.holder, h.frame.valid, h.frame.head,
    h.frame.input⟩, hsound, ?_⟩, ?_⟩
  · apply h.others_of
    intro i hi hne
    have hmine : (s₀.disk.dino i).addrs indirect ≠ (s.ino e).d.addrs indirect := h.other_ne hi (.addr indirect) hind
    have hnew : (s₀.disk.dino i).addrs indirect ≠ b := by
      intro heq
      apply not_used hbit
      rw [← heq]
      exact h.other_used hi hne
    exact (Function.update_of_ne hmine ..).trans (Function.update_of_ne hnew ..)
  · have hset := @refs_setEntry (s.disk.take b).data (s.ino e).d j b hind (Nat.lt_trans hlt sb.fits)
    rw [h.refs_take hbit] at hset
    exact hset

theorem run_bmapAddr {k : Fin (NDIRECT + 1)} (h : (s.ino e).d.addrs k ≠ 0) :
    (solo (sem sb) p (bmapAddr sb e k)).run s = .ok ((s.ino e).d.addrs k, s) := by
  rw [bmapAddr, solo_bind, solo_lift, run_bind_of_ok (run_once rfl), if_neg h]
  rfl

theorem bmapAddr_spec {roomy : Prop} {k : Fin (NDIRECT + 1)} (h : (s.ino e).d.addrs k = 0)
    (hroom : roomy → 0 < s.disk.free sb) :
    Triple (fun _ => ¬roomy) (fun t => t = s) (solo (sem sb) p (bmapAddr sb e k)) fun b t =>
      (s.disk.bit b = false ∧ b < sb.size) ∧ t = grown s e k b := by
  rw [bmapAddr, solo_bind, solo_lift]
  apply Triple.runs (run_once rfl)
  rw [if_pos h, solo_bind]
  apply (balloc_spec hroom).bind
  intro b
  apply Triple.each
  rintro t ⟨hb, rfl⟩
  rw [solo_bind, solo_lift]
  apply Triple.runs (run_once rfl)
  apply Triple.ret
  rintro t rfl
  exact ⟨hb, rfl⟩

theorem run_bmapEntry {j : Nat} (h : word (s.disk.data b) j ≠ 0) :
    (solo (sem sb) p (bmapEntry sb b j)).run s = .ok (word (s.disk.data b) j, s) := by
  rw [bmapEntry, solo_bind, solo_lift, run_bind_of_ok (run_once rfl), if_neg h]
  rfl

theorem bmapEntry_spec {roomy : Prop} {j : Nat} (h : word (s.disk.data ((s.ino e).d.addrs indirect)) j = 0)
    (hroom : roomy → 0 < s.disk.free sb) :
    Triple (fun _ => ¬roomy) (fun t => t = s) (solo (sem sb) p (bmapEntry sb ((s.ino e).d.addrs indirect) j)) fun b t =>
      (s.disk.bit b = false ∧ b < sb.size) ∧ t = entered s e j b := by
  rw [bmapEntry, solo_bind, solo_lift]
  apply Triple.runs (run_once rfl)
  rw [if_pos h, solo_bind]
  apply (balloc_spec hroom).bind
  intro b
  apply Triple.each
  rintro t ⟨hb, rfl⟩
  rw [solo_bind, solo_lift]
  apply Triple.runs (run_once rfl)
  apply Triple.ret
  rintro t rfl
  exact ⟨hb, rfl⟩

/-- After `bmap` of block `bn`. -/
structure Mapped (sb : Super) (e : Entry) (s₀ : State) (file : Nat → Nat → UInt8) (nb bn : Nat) (s : State) (x : Nat)
    (t : State) : Prop where
  writing : Writing sb e s₀ file (max nb (bn + 1)) t
  free : t.disk.free sb + cost (max nb (bn + 1)) = s.disk.free sb + cost nb
  slot : ∃ sl, slotOf bn = some sl ∧ refs t.disk.data (t.ino e).d sl = x
  same : bn < nb → t = s

theorem Mapped.present {bn : Nat} {sl : Slot} (h : Writing sb e s₀ file nb s) (hbn : bn < nb) (hsl : slotOf bn = some sl) :
    Mapped sb e s₀ file nb bn s (refs s.disk.data (s.ino e).d sl) s := by
  have hmax : max nb (bn + 1) = nb := Nat.max_eq_left hbn
  exact ⟨hmax.symm ▸ h, by rw [hmax], ⟨sl, hsl, rfl⟩, fun _ => rfl⟩

theorem Writing.absent (h : Writing sb e s₀ file nb s) (sl : Slot) (hsl : nb ≤ sl.index) :
    refs s.disk.data (s.ino e).d sl = 0 := by
  by_contra hne
  exact absurd ((h.filled sl).mp hne) (Nat.not_lt.mpr hsl)

theorem free_grown {k : Fin (NDIRECT + 1)} (hb : s.disk.bit b = false ∧ b < sb.size) :
    (grown s e k b).disk.free sb + 1 = s.disk.free sb := free_took hb.2 hb.1

theorem free_entered {j : Nat} (hb : s.disk.bit b = false ∧ b < sb.size) :
    (entered s e j b).disk.free sb + 1 = s.disk.free sb := free_took hb.2 hb.1

theorem cost_direct {n : Nat} (h : n < NDIRECT) : cost (n + 1) = cost n + 1 := by
  unfold cost
  split_ifs <;> omega

theorem cost_entry {n : Nat} (h : NDIRECT < n) : cost (n + 1) = cost n + 1 := by
  unfold cost
  split_ifs <;> omega

theorem bmap_direct {roomy : Prop} {bn : Nat} (h : Writing sb e s₀ file nb s) (hle : bn ≤ nb) (hbn : bn < NDIRECT)
    (hroom : roomy → cost (max nb (bn + 1)) ≤ s.disk.free sb + cost nb) :
    Triple (fun _ => ¬roomy) (fun t => t = s) (solo (sem sb) p (bmap sb e bn)) (Mapped sb e s₀ file nb bn s) := by
  rw [bmap, dif_pos hbn]
  rcases Nat.lt_or_eq_of_le hle with hlt | rfl
  · have hne : (s.ino e).d.addrs ⟨bn, Nat.lt_succ_of_lt hbn⟩ ≠ 0 := (h.filled (.addr ⟨bn, _⟩)).mpr hlt
    rintro t rfl
    rw [run_bmapAddr hne]
    exact .present h hlt (slotOf_direct hbn)
  · have hnone : (s.ino e).d.addrs ⟨bn, Nat.lt_succ_of_lt hbn⟩ = 0 := h.absent (.addr ⟨bn, _⟩) (Nat.le_refl _)
    have hmax : max bn (bn + 1) = bn + 1 := Nat.max_eq_right (Nat.le_succ _)
    rw [hmax, cost_direct hbn] at hroom
    apply (bmapAddr_spec hnone fun hr => by have := hroom hr; omega).post
    rintro b t ⟨hb, rfl⟩
    obtain ⟨hwork, hrefs⟩ := h.toWorking.setAddr hb.1 hb.2 hnone
    have hfree := free_grown (e := e) (k := ⟨bn, Nat.lt_succ_of_lt hbn⟩) hb
    refine ⟨⟨hwork, ?_⟩, ?_, ⟨_, slotOf_direct hbn, ?_⟩, fun hlt => absurd hlt (Nat.lt_irrefl _)⟩
    · rw [hrefs, hmax]
      exact h.filled.direct hbn (h.sound.ne_zero hb.1)
    · rw [hmax, cost_direct hbn]
      omega
    · rw [hrefs, Function.update_self]

theorem bmapEntry_mapped {roomy : Prop} {bn : Nat} (h : Writing sb e s₀ file nb s) (hle : bn ≤ nb) (hbn : NDIRECT ≤ bn)
    (hmax : bn - NDIRECT < NINDIRECT) (hnb : NDIRECT < nb)
    (hroom : roomy → cost (max nb (bn + 1)) ≤ s.disk.free sb + cost nb) :
    Triple (fun _ => ¬roomy) (fun t => t = s)
      (solo (sem sb) p (bmapEntry sb ((s.ino e).d.addrs indirect) (bn - NDIRECT))) (Mapped sb e s₀ file nb bn s) := by
  have hind : (s.ino e).d.addrs indirect ≠ 0 := (h.filled (.addr indirect)).mpr hnb
  have hsl := slotOf_entry hbn hmax
  have hindex := index_slotOf hsl
  have hentry : refs s.disk.data (s.ino e).d (.entry ⟨bn - NDIRECT, hmax⟩) =
      word (s.disk.data ((s.ino e).d.addrs indirect)) (bn - NDIRECT) := if_neg hind
  rcases Nat.lt_or_eq_of_le hle with hlt | rfl
  · have hne : refs s.disk.data (s.ino e).d (.entry ⟨bn - NDIRECT, hmax⟩) ≠ 0 := (h.filled _).mpr (hindex.symm ▸ hlt)
    rintro t rfl
    rw [run_bmapEntry (hentry ▸ hne), ← hentry]
    exact .present h hlt hsl
  · have hnone := h.absent _ (Nat.le_of_eq hindex.symm)
    have hmax' : max bn (bn + 1) = bn + 1 := Nat.max_eq_right (Nat.le_succ _)
    rw [hmax', cost_entry hnb] at hroom
    apply (bmapEntry_spec (hentry ▸ hnone) fun hr => by have := hroom hr; omega).post
    rintro b t ⟨hb, rfl⟩
    obtain ⟨hwork, hrefs⟩ := h.toWorking.setEntry hb.1 hb.2 hind hnone
    have hfree := free_entered (e := e) (j := bn - NDIRECT) hb
    refine ⟨⟨hwork, ?_⟩, ?_, ⟨_, hsl, ?_⟩, fun hlt => absurd hlt (Nat.lt_irrefl _)⟩
    · rw [hrefs, hmax']
      exact h.filled.entry hnb hmax (h.sound.ne_zero hb.1)
    · rw [hmax', cost_entry hnb]
      omega
    · rw [hrefs, Function.update_self]

theorem bmap_first {roomy : Prop} (h : Writing sb e s₀ file NDIRECT s)
    (hroom : roomy → 2 ≤ s.disk.free sb) :
    Triple (fun _ => ¬roomy) (fun t => t = s) (solo (sem sb) p (bmap sb e NDIRECT))
      (Mapped sb e s₀ file NDIRECT NDIRECT s) := by
  have hnone : (s.ino e).d.addrs indirect = 0 := h.absent (.addr indirect) (Nat.le_refl _)
  rw [bmap, dif_neg (Nat.lt_irrefl _), if_pos (by decide), solo_bind]
  apply (bmapAddr_spec hnone fun hr => Nat.lt_of_lt_of_le (by decide) (hroom hr)).bind
  intro b
  apply Triple.each
  rintro t ⟨hb, rfl⟩
  obtain ⟨hwork, hrefs⟩ := h.toWorking.setAddr hb.1 hb.2 hnone
  have hfree := free_grown (e := e) (k := indirect) hb
  have hind : ((grown s e indirect b).ino e).d.addrs indirect = b := by
    rw [grown_ino]
    exact Function.update_self indirect b (s.ino e).d.addrs
  have hpos := h.sound.ne_zero hb.1
  have hzero : word ((grown s e indirect b).disk.data (((grown s e indirect b).ino e).d.addrs indirect)) 0 = 0 := by
    rw [hind]
    change word ((s.disk.take b).data b) 0 = 0
    rw [Disk.take_data_self, word_zero]
  have hentry : refs (grown s e indirect b).disk.data ((grown s e indirect b).ino e).d (.entry ⟨0, by decide⟩) = 0 :=
    (if_neg (hind.symm ▸ hpos)).trans hzero
  have hspec := bmapEntry_spec (p := p) (e := e) hzero fun hr => (by have := hroom hr; omega : 0 < (grown s e indirect b).disk.free sb)
  rw [hind] at hspec
  apply hspec.post
  rintro b' t ⟨hb', rfl⟩
  obtain ⟨hwork', hrefs'⟩ := hwork.setEntry (j := ⟨0, by decide⟩) hb'.1 hb'.2 (hind.symm ▸ hpos) hentry
  have hfree' := free_entered (e := e) (j := 0) hb'
  refine ⟨⟨hwork', ?_⟩, ?_, ⟨_, slotOf_entry (Nat.le_refl _) (by decide), ?_⟩, fun hlt => absurd hlt (Nat.lt_irrefl _)⟩
  · rw [hrefs', hrefs]
    exact h.filled.first hpos (hwork.sound.ne_zero hb'.1)
  · change _ + cost (NDIRECT + 1) = _
    rw [show cost (NDIRECT + 1) = cost NDIRECT + 2 from rfl]
    omega
  · exact (congrFun hrefs' _).trans (Function.update_self ..)

theorem bmap_spec {roomy : Prop} {bn : Nat} (h : Writing sb e s₀ file nb s) (hle : bn ≤ nb) (hmax : bn < MAXFILE)
    (hroom : roomy → cost (max nb (bn + 1)) ≤ s.disk.free sb + cost nb) :
    Triple (fun _ => ¬roomy) (fun t => t = s) (solo (sem sb) p (bmap sb e bn)) (Mapped sb e s₀ file nb bn s) := by
  rcases Nat.lt_or_ge bn NDIRECT with hbn | hbn
  · exact bmap_direct h hle hbn hroom
  rcases Nat.lt_or_ge NDIRECT nb with hnb | hnb
  · have hlt : bn - NDIRECT < NINDIRECT := by
      unfold MAXFILE at hmax
      omega
    have hind : (s.ino e).d.addrs indirect ≠ 0 := (h.filled (.addr indirect)).mpr hnb
    rw [bmap, dif_neg (Nat.not_lt.mpr hbn), if_pos hlt, solo_bind]
    apply Triple.runs (run_bmapAddr hind)
    exact bmapEntry_mapped h hle hbn hlt hnb hroom
  obtain rfl : nb = NDIRECT := Nat.le_antisymm hnb (Nat.le_trans hbn hle)
  obtain rfl : bn = NDIRECT := Nat.le_antisymm hle hbn
  apply bmap_first h
  intro hr
  have hcost := hroom hr
  change cost (NDIRECT + 1) ≤ _ at hcost
  rw [show cost (NDIRECT + 1) = cost NDIRECT + 2 from rfl] at hcost
  omega

end Bmap

end Chameleon.Fs
