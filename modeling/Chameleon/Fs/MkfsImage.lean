import Chameleon.Fs.Content
import Chameleon.Fs.Mkfs

/-! The image that `mkfs` builds. While a file is appended to, its inode is ahead of the one in the image;
everything else in the image is a set of files with blocks of their own. -/

namespace Chameleon.Mkfs
open Fs Hoare

section Format

/-- `type` of an inode as the kernel tells them apart. -/
def kindOf : Nat → Kind
  | 0 => .free
  | 1 => .dir
  | 2 => .file
  | _ => .dev

/-- The inode as the kernel reads it. -/
def Dino.toDinode (d : Dino) : Dinode where
  type := kindOf d.type
  major := BitVec.ofNat 16 d.major
  minor := BitVec.ofNat 16 d.minor
  nlink := BitVec.ofNat 16 d.nlink
  size := d.size
  addrs := d.addrs

/-- The fields fit their widths. -/
structure Dino.Fits (d : Dino) : Prop where
  type : d.type < 2 ^ 16
  major : d.major < 2 ^ 16
  minor : d.minor < 2 ^ 16
  nlink : d.nlink < 2 ^ 16
  size : d.size < 2 ^ 32
  addrs : ∀ k, d.addrs k < 2 ^ 32

theorem Dino.length_words (d : Dino) : d.words.length = 16 := by
  simp [words]

theorem Dino.words_lt {d : Dino} (h : d.Fits) : ∀ w ∈ d.words, w < 2 ^ 32 := by
  have ht := h.type
  have hm := h.major
  have hi := h.minor
  have hn := h.nlink
  intro w hw
  rcases List.mem_append.mp hw with hw | hw
  · simp only [List.mem_cons, List.not_mem_nil, or_false] at hw
    rcases hw with rfl | rfl | rfl
    · omega
    · omega
    · exact h.size
  · obtain ⟨k, -, rfl⟩ := List.mem_map.mp hw
    exact h.addrs k

theorem word_store_bytes (a : Block) (k : Nat) {d : Dino} (h : d.Fits) {j : Nat} (hj : j < 16) :
    word (Bytes.store a (64 * k) d.bytes) (16 * k + j) = d.words.getD j 0 := by
  have hlen : j < d.words.length := by rwa [d.length_words]
  have hlt := Dino.words_lt h d.words[j] (List.getElem_mem hlen)
  rw [word, show 4 * (16 * k + j) = 64 * k + 4 * j by omega, Dino.bytes, Bytes.slice_store_flatMap a _ 4 hlen,
    Bytes.number_le, List.getD_eq_getElem _ _ hlen]
  exact Nat.mod_eq_of_lt hlt

theorem word_store_bytes_of_ne (a : Block) {k j : Nat} (d : Dino) (h : j < 16 * k ∨ 16 * k + 16 ≤ j) :
    word (Bytes.store a (64 * k) d.bytes) j = word a j := by
  unfold word
  rw [Bytes.slice_store_of_disjoint]
  rw [Dino.bytes, Bytes.length_flatMap_le, d.length_words]
  omega

theorem Dino.getD_words (d : Dino) (j : Fin (NDIRECT + 1)) : d.words.getD (3 + j) 0 = d.addrs j := by
  have hlt : j.val < ((List.finRange (NDIRECT + 1)).map d.addrs).length := by
    rw [List.length_map, List.length_finRange]
    exact j.isLt
  rw [words, List.getD_append_right _ _ _ _ (by simp)]
  change ((List.finRange (NDIRECT + 1)).map d.addrs).getD (3 + j.val - 3) 0 = d.addrs j
  rw [Nat.add_sub_cancel_left, List.getD_eq_getElem _ _ hlt]
  simp

/-- What is written is what is read back. -/
theorem ofBlock_store_self (a : Block) (k : Nat) {d : Dino} (h : d.Fits) :
    Dino.ofBlock (Bytes.store a (64 * k) d.bytes) k = d := by
  have ht := h.type
  have hi := h.minor
  have h0 : word (Bytes.store a (64 * k) d.bytes) (16 * k) = d.type + 2 ^ 16 * d.major :=
    word_store_bytes a k h (by decide : 0 < 16)
  have h1 : word (Bytes.store a (64 * k) d.bytes) (16 * k + 1) = d.minor + 2 ^ 16 * d.nlink :=
    word_store_bytes a k h (by decide : 1 < 16)
  have h2 : word (Bytes.store a (64 * k) d.bytes) (16 * k + 2) = d.size :=
    word_store_bytes a k h (by decide : 2 < 16)
  have haddr : ∀ j : Fin (NDIRECT + 1), word (Bytes.store a (64 * k) d.bytes) (16 * k + 3 + j) = d.addrs j := by
    intro j
    have hlt : 3 + j.val < 16 := Nat.add_lt_add_left j.isLt 3
    rw [Nat.add_assoc, word_store_bytes a k h hlt, d.getD_words]
  unfold Dino.ofBlock
  rw [h0, h1, h2, Nat.add_mul_mod_self_left, Nat.add_mul_mod_self_left, Nat.mod_eq_of_lt ht, Nat.mod_eq_of_lt hi,
    Nat.add_mul_div_left _ _ (by decide), Nat.add_mul_div_left _ _ (by decide), Nat.div_eq_of_lt ht,
    Nat.div_eq_of_lt hi, Nat.zero_add, Nat.zero_add, funext haddr]

theorem ofBlock_store_of_ne (a : Block) {k k' : Nat} (d : Dino) (h : k' ≠ k) :
    Dino.ofBlock (Bytes.store a (64 * k) d.bytes) k' = Dino.ofBlock a k' := by
  have hword : ∀ j < 16, word (Bytes.store a (64 * k) d.bytes) (16 * k' + j) = word a (16 * k' + j) := by
    intro j hj
    apply word_store_bytes_of_ne
    omega
  have haddr : ∀ j : Fin (NDIRECT + 1), word (Bytes.store a (64 * k) d.bytes) (16 * k' + 3 + j) = word a (16 * k' + 3 + j) := by
    intro j
    rw [Nat.add_assoc]
    exact hword _ (Nat.add_lt_add_left j.isLt 3)
  have h0 : word (Bytes.store a (64 * k) d.bytes) (16 * k') = word a (16 * k') := hword 0 (by decide)
  unfold Dino.ofBlock
  rw [h0, hword 1 (by decide), hword 2 (by decide), funext haddr]

theorem word_lt (a : Block) (j : Nat) : word a j < 2 ^ 32 := by
  have h := Bytes.number_lt (Bytes.slice a (4 * j) 4)
  rwa [Bytes.length_slice] at h

theorem fits_ofBlock (a : Block) (k : Nat) : (Dino.ofBlock a k).Fits where
  type := Nat.mod_lt _ (by decide)
  major := Nat.div_lt_of_lt_mul (word_lt a _)
  minor := Nat.mod_lt _ (by decide)
  nlink := Nat.div_lt_of_lt_mul (word_lt a _)
  size := word_lt a _
  addrs _ := word_lt a _

end Format

section Layout

/-- The files of the image: their blocks lie between `nmeta` and `top`, and the sectors behind are still zero. -/
structure Laid (sect : Nat → Block) (top : Nat) (dino : Nat → Dinode) (bytes : Nat → List UInt8) : Prop
    extends Holds (fun b => nmeta ≤ b ∧ b < top) sect dino fun i k => (bytes i).getD k 0 where
  fresh : ∀ b, top ≤ b → sect b = fun _ => 0
  top : nmeta ≤ top

variable {sect : Nat → Block} {top : Nat} {dino : Nat → Dinode} {bytes : Nat → List UInt8} {i : Nat} {sl : Slot}

theorem Laid.top_ne (h : Laid sect top dino bytes) : top ≠ 0 := Nat.ne_of_gt (Nat.lt_of_lt_of_le (by decide) h.top)

theorem top_unused (b : Nat) : ¬(nmeta ≤ b ∧ b < b) := fun hb => absurd hb.2 (Nat.lt_irrefl b)

/-- An inode gets the next block. -/
theorem Laid.take {d : Dinode} (h : Laid sect top dino bytes) (hnone : slots sect dino i sl = 0)
    (hd : refs sect d = Function.update (slots sect dino i) sl top) :
    Laid sect (top + 1) (Function.update dino i d) bytes where
  toHolds := h.toHolds.take (top_unused top) h.top_ne (h.fresh top (Nat.le_refl top))
    (fun _ hx => ⟨hx.1, Nat.lt_succ_of_lt hx.2⟩) ⟨h.top, Nat.lt_succ_self top⟩ hnone hd
  fresh b hb := h.fresh b (Nat.le_of_succ_le hb)
  top := Nat.le_succ_of_le h.top

/-- An indirect block gets the next block. -/
theorem Laid.entry {j : Fin NINDIRECT} (h : Laid sect top dino bytes) (hind : (dino i).addrs indirect ≠ 0)
    (hnone : slots sect dino i (.entry j) = 0) (htop : top < 2 ^ 32) :
    Laid (Function.update sect ((dino i).addrs indirect) (putWord (sect ((dino i).addrs indirect)) j top)) (top + 1)
      dino bytes where
  toHolds := h.toHolds.entry (top_unused top) h.top_ne (h.fresh top (Nat.le_refl top))
    (fun _ hx => ⟨hx.1, Nat.lt_succ_of_lt hx.2⟩) ⟨h.top, Nat.lt_succ_self top⟩ hind hnone htop
  fresh b hb := by
    have hlt : (dino i).addrs indirect < top := (h.used i (.addr indirect) hind).2
    rw [Function.update_of_ne (by omega)]
    exact h.fresh b (Nat.le_of_succ_le hb)
  top := Nat.le_succ_of_le h.top

theorem Laid.write {bn o : Nat} {p bs : List UInt8} (h : Laid sect top dino bytes) (hsl : slotOf bn = some sl)
    (hne : slots sect dino i sl ≠ 0) (hfits : o + p.length ≤ BSIZE)
    (hbs : Bytes.store (fun k => (bytes i).getD k 0) (bn * BSIZE + o) p = fun k => bs.getD k 0) :
    Laid (Function.update sect (slots sect dino i sl) (Bytes.store (sect (slots sect dino i sl)) o p)) top dino
      (Function.update bytes i bs) where
  toHolds := by
    have hfile : (fun i' k => (Function.update bytes i bs i').getD k 0) =
        Function.update (fun i' k => (bytes i').getD k 0) i fun k => bs.getD k 0 := by
      funext i'
      by_cases hi : i' = i
      · rw [hi, Function.update_self, Function.update_self]
      · rw [Function.update_of_ne hi, Function.update_of_ne hi]
    rw [hfile, ← hbs]
    exact h.toHolds.write hsl hne hfits
  fresh b hb := by
    have hlt := (h.used i sl hne).2
    rw [Function.update_of_ne (by omega)]
    exact h.fresh b hb
  top := h.top

/-- Only the slots count, and the sectors from `nmeta` on. -/
theorem Laid.congr {sect' : Nat → Block} {dino' : Nat → Dinode} (h : Laid sect top dino bytes)
    (hsect : ∀ b, nmeta ≤ b → sect' b = sect b) (hslots : slots sect' dino' = slots sect dino) :
    Laid sect' top dino' bytes where
  toHolds := h.toHolds.congr (fun b hb => hsect b hb.1) hslots
  fresh b hb := (hsect b (Nat.le_trans h.top hb)).trans (h.fresh b hb)
  top := h.top

end Layout

end Chameleon.Mkfs
