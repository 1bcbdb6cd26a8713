import Chameleon.Lib.Budget
import Chameleon.Fs.Filewrite

/-! The blocks that a chunk of `filewrite` logs, against what `begin_op` has reserved for it. -/

namespace Chameleon.Fs
open Conc Hoare

/-- A block that is given to `log_write`: a data block, a block of the bitmap or a block of dinodes. -/
inductive Logged
  | data (b : Nat)
  | bitmap (j : Nat)
  | inodes (k : Nat)
deriving DecidableEq

/-- The block number. -/
def Logged.blockno (inodestart bmapstart : Nat) : Logged → Nat
  | .data b => b
  | .bitmap j => bmapstart + j
  | .inodes k => inodestart + k

/-- The calls of `log_write` in an action. -/
def logWrites : ∀ {β : Type}, Act β → State → β → List Logged
  | _, .iupdate e, s, _ => [.inodes ((s.tab.icache e).inum / IPB)]
  | _, .ballocIn j, _, found => if found.isSome then [.bitmap j] else []
  | _, .bzero b, _, _ => [.data b]
  | _, .bfree b, _, used => if used then [.bitmap (b / BPB)] else []
  | _, .bwrite b _ _, _, _ => [.data b]
  | _, _, _, _ => []

section Potential

variable {sb : Super} {p : Pid} {e : Entry} {s t : State} {K L : Finset Logged}

/-- What may still be logged for the indirect block of `e`. -/
def pending (e : Entry) (K : Finset Logged) (s : State) : Nat :=
  if (s.ino e).d.addrs indirect = 0 then 2
  else if .data ((s.ino e).d.addrs indirect) ∈ K then 0
  else 1

theorem pending_le (e : Entry) (K : Finset Logged) (s : State) : pending e K s ≤ 2 := by
  unfold pending
  split_ifs <;> omega

theorem pending_mono (hino : (t.ino e).d.addrs indirect = (s.ino e).d.addrs indirect) (h : K ⊆ L) :
    pending e L t ≤ pending e K s := by
  unfold pending
  rw [hino]
  split_ifs with hz hL hK
  · exact Nat.le_refl _
  · exact Nat.zero_le _
  · exact Nat.zero_le _
  · rename_i hK
    exact absurd (h hK) hL
  · exact Nat.le_refl _

end Potential

section Bmap

variable {sb : Super} {p : Pid} {e : Entry} {s : State} {K : Finset Logged} {B : Nat}

/-- The budget of a program of process `p` for its calls of `log_write`. -/
abbrev Logs {α : Type} (sb : Super) (p : Pid) (B : Nat) (K : Finset Logged) (s : State) (x : M α)
    (Q : α → State → Finset Logged → Prop) : Prop := Within (sem sb) logWrites p B K s x Q

theorem subset_insert_pair (w w' : Logged) : K ⊆ insert w (insert w' K) :=
  (Finset.subset_insert w' K).trans (Finset.subset_insert w _)

theorem card_insert_pair (w w' : Logged) : (insert w (insert w' K)).card ≤ K.card + 2 :=
  (Finset.card_insert_le ..).trans (Nat.add_le_add_right (Finset.card_insert_le ..) 1)

/-- A block of the bitmap and the new block. -/
theorem ballocFrom_logs (js : List Nat) (hB : K.card + 2 ≤ B) :
    Logs sb p B K s (ballocFrom js) fun b t L =>
      (s.disk.bit b = false ∧ t = took s b) ∧ .data b ∈ L ∧ L.card ≤ K.card + 2 := by
  induction js with
  | nil => exact .panic (by omega)
  | cons j js ih =>
    rw [ballocFrom]
    cases hclear : s.disk.clear sb j with
    | none =>
      have hrun : sem sb p (.ballocIn j) s = some (some none, s) := by
        simp only [sem, hclear]
        rfl
      exact Within.unseen hrun rfl ih
    | some b =>
      have hrun : sem sb p (.ballocIn j) s = some (some (some b), s.setBit b true) := by
        simp only [sem, hclear]
        rfl
      have hcard := card_insert_pair (K := K) (.data b) (.bitmap j)
      apply Within.count (subset_insert_pair (.data b) (.bitmap j))
      refine Within.act hrun ?_ (Within.act rfl ?_ (Within.ret (by omega) ?_))
      · intro w hw
        obtain rfl := List.mem_singleton.mp hw
        exact Finset.mem_insert_of_mem (Finset.mem_insert_self ..)
      · intro w hw
        obtain rfl := List.mem_singleton.mp hw
        exact Finset.mem_insert_self ..
      · exact ⟨⟨(clear_some hclear).1, rfl⟩, Finset.mem_insert_self .., hcard⟩

/-- A direct block, or the one behind an entry: where it is new, a block of the bitmap comes with it. -/
structure Counted (e : Entry) (K : Finset Logged) (n : Nat) (s : State) (b : Nat) (t : State) (L : Finset Logged) : Prop where
  mem : .data b ∈ L
  card : L.card + pending e L t ≤ K.card + n + pending e K s
  boot : t.disk.bit 0 = true

theorem boot_took {b : Nat} (h : s.disk.bit 0 = true) : (took s b).disk.bit 0 = true := by
  change Function.update s.disk.bit b true 0 = true
  by_cases hb : 0 = b
  · rw [← hb, Function.update_self]
  · rw [Function.update_of_ne hb]
    exact h

theorem ne_zero_of_free {b : Nat} (h : s.disk.bit 0 = true) (hb : s.disk.bit b = false) : b ≠ 0 := by
  rintro rfl
  rw [h] at hb
  exact Bool.noConfusion hb

theorem indirect_grown {k : Fin (NDIRECT + 1)} (hk : k ≠ indirect) (b : Nat) :
    ((grown s e k b).ino e).d.addrs indirect = (s.ino e).d.addrs indirect := by
  rw [grown_ino]
  exact Function.update_of_ne hk.symm ..

theorem Counted.present (b : Nat) (hboot : s.disk.bit 0 = true) (hB : K.card + 2 + pending e K s ≤ B) :
    Logs sb p B K s (pure b) (Counted e K 2 s) := by
  have hsub := Finset.subset_insert (.data b) K
  have hcard : (insert (Logged.data b) K).card ≤ K.card + 1 := Finset.card_insert_le ..
  have hpending : pending e (insert (.data b) K) s ≤ pending e K s := pending_mono rfl hsub
  exact Within.count hsub (Within.ret (by omega) ⟨Finset.mem_insert_self .., by omega, hboot⟩)

theorem bmapAddr_logs {k : Fin (NDIRECT + 1)} (hk : k ≠ indirect) (hboot : s.disk.bit 0 = true)
    (hB : K.card + 2 + pending e K s ≤ B) : Logs sb p B K s (bmapAddr sb e k) (Counted e K 2 s) := by
  rw [bmapAddr]
  apply Within.unseen rfl rfl
  by_cases hz : (s.ino e).d.addrs k = 0
  · rw [if_pos hz]
    apply (ballocFrom_logs _ (by omega)).bind
    rintro b _ L hsub ⟨⟨hfree, rfl⟩, hmem, hcard⟩
    apply Within.unseen rfl rfl
    have hpending : pending e L (grown s e k b) ≤ pending e K s := pending_mono (indirect_grown hk b) hsub
    refine Within.ret (by omega) ⟨hmem, ?_, boot_took hboot⟩
    change L.card + pending e L (grown s e k b) ≤ _
    omega
  · rw [if_neg hz]
    exact Counted.present _ hboot hB

theorem bmapIndirect_logs (hboot : s.disk.bit 0 = true) (hB : K.card + pending e K s ≤ B) :
    Logs sb p B K s (bmapAddr sb e indirect) fun b t L =>
      ((t.ino e).d.addrs indirect = b ∧ b ≠ 0) ∧ L.card + pending e L t ≤ K.card + pending e K s ∧ t.disk.bit 0 = true := by
  rw [bmapAddr]
  apply Within.unseen rfl rfl
  by_cases hz : (s.ino e).d.addrs indirect = 0
  · have htwo : pending e K s = 2 := if_pos hz
    rw [if_pos hz]
    apply (ballocFrom_logs _ (by omega)).bind
    rintro b _ L hsub ⟨⟨hfree, rfl⟩, hmem, hcard⟩
    apply Within.unseen rfl rfl
    have hne := ne_zero_of_free hboot hfree
    have hind : ((grown s e indirect b).ino e).d.addrs indirect = b := by
      rw [grown_ino]
      exact Function.update_self indirect b (s.ino e).d.addrs
    have hnone : pending e L (grown s e indirect b) = 0 := by
      rw [pending, hind, if_neg hne, if_pos hmem]
    refine Within.ret (by omega) ⟨⟨hind, hne⟩, ?_, boot_took hboot⟩
    change L.card + pending e L (grown s e indirect b) ≤ _
    omega
  · rw [if_neg hz]
    exact Within.ret (by omega) ⟨⟨rfl, hz⟩, Nat.le_refl _, hboot⟩

theorem card_insert_indirect (hind : (s.ino e).d.addrs indirect ≠ 0) :
    (insert (Logged.data ((s.ino e).d.addrs indirect)) K).card ≤ K.card + pending e K s := by
  by_cases hmem : .data ((s.ino e).d.addrs indirect) ∈ K
  · rw [Finset.insert_eq_of_mem hmem]
    exact Nat.le_add_right ..
  · rw [Finset.card_insert_of_notMem hmem, pending, if_neg hind, if_neg hmem]

theorem bmapEntry_logs {j : Nat} (hind : (s.ino e).d.addrs indirect ≠ 0) (hboot : s.disk.bit 0 = true)
    (hB : K.card + 2 + pending e K s ≤ B) :
    Logs sb p B K s (bmapEntry sb ((s.ino e).d.addrs indirect) j) (Counted e K 2 s) := by
  rw [bmapEntry]
  apply Within.unseen rfl rfl
  by_cases hz : word (s.disk.data ((s.ino e).d.addrs indirect)) j = 0
  · rw [if_pos hz]
    have hpaid := card_insert_indirect (K := K) hind
    apply Within.count (Finset.subset_insert (.data ((s.ino e).d.addrs indirect)) K)
    apply (ballocFrom_logs _ (by omega)).bind
    rintro b _ L hsub ⟨⟨hfree, rfl⟩, hmem, hcard⟩
    have hin := hsub (Finset.mem_insert_self ..)
    have hnone : pending e L (entered s e j b) = 0 := by
      rw [pending]
      exact (if_neg hind).trans (if_pos hin)
    refine Within.act rfl ?_ (Within.ret (by omega) ⟨hmem, ?_, boot_took hboot⟩)
    · intro w hw
      obtain rfl := List.mem_singleton.mp hw
      exact hin
    · change L.card + pending e L (entered s e j b) ≤ _
      omega
  · rw [if_neg hz]
    exact Counted.present _ hboot hB

theorem bmap_logs (bn : Nat) (hboot : s.disk.bit 0 = true) (hB : K.card + 2 + pending e K s ≤ B) :
    Logs sb p B K s (bmap sb e bn) (Counted e K 2 s) := by
  unfold bmap
  split_ifs with hdirect hentry
  · apply bmapAddr_logs _ hboot hB
    intro heq
    exact absurd (congrArg Fin.val heq) (Nat.ne_of_lt hdirect)
  · apply (bmapIndirect_logs hboot (by omega)).bind
    rintro b t L hsub ⟨⟨rfl, hne⟩, hcard, hboot'⟩
    apply (bmapEntry_logs hne hboot' (by omega)).post
    rintro x u L' - ⟨hmem, hcard', hboot''⟩
    exact ⟨hmem, by omega, hboot''⟩
  · exact .panic (by omega)

theorem bmapAddr_present {k : Fin (NDIRECT + 1)} (hne : (s.ino e).d.addrs k ≠ 0) (hB : K.card ≤ B) :
    Logs sb p B K s (bmapAddr sb e k) fun b t L => b = (s.ino e).d.addrs k ∧ t = s ∧ L = K := by
  rw [bmapAddr]
  apply Within.unseen rfl rfl
  rw [if_neg hne]
  exact Within.ret hB ⟨rfl, rfl, rfl⟩

theorem bmap_present {bn : Nat} {sl : Slot} (hsl : slotOf bn = some sl) (hne : refs s.disk.data (s.ino e).d sl ≠ 0)
    (hB : K.card ≤ B) : Logs sb p B K s (bmap sb e bn) fun b t L =>
      b = refs s.disk.data (s.ino e).d sl ∧ t = s ∧ L = K := by
  unfold bmap
  unfold slotOf at hsl
  split_ifs at hsl ⊢ with hdirect hentry
  · obtain rfl := Option.some.inj hsl
    exact bmapAddr_present hne hB
  · obtain rfl := Option.some.inj hsl
    have hind : (s.ino e).d.addrs indirect ≠ 0 := fun hz => hne (if_pos hz)
    have hword : refs s.disk.data (s.ino e).d (.entry ⟨bn - NDIRECT, hentry⟩) =
        word (s.disk.data ((s.ino e).d.addrs indirect)) (bn - NDIRECT) := if_neg hind
    apply (bmapAddr_present hind hB).bind
    rintro _ _ _ - ⟨rfl, rfl, rfl⟩
    rw [bmapEntry]
    apply Within.unseen rfl rfl
    rw [if_neg (hword ▸ hne)]
    exact Within.ret hB ⟨hword.symm, rfl, rfl⟩

end Bmap

section Writei

variable {sb : Super} {p : Pid} {e : Entry} {s : State} {K : Finset Logged} {B : Nat}

/-- The number of blocks of a file that `n` bytes from `off` on are in. -/
def touched (off n : Nat) : Nat := if n = 0 then 0 else blocks (off + n) - off / BSIZE

theorem touched_step (off : Nat) {n : Nat} (hn : n ≠ 0) :
    touched off n = touched (off + min n (BSIZE - off % BSIZE)) (n - min n (BSIZE - off % BSIZE)) + 1 := by
  unfold touched blocks BSIZE
  rw [if_neg hn]
  split_ifs with hrest
  · omega
  · omega

theorem touched_le (off : Nat) {n : Nat} (hn : n ≤ filewriteMax) :
    touched off n ≤ if off % BSIZE = 0 then 3 else 4 := by
  unfold touched blocks
  unfold filewriteMax MAXOPBLOCKS at hn
  unfold BSIZE
  split_ifs
  all_goals omega

/-- The rest of a turn, once its block is known. -/
theorem bwrite_logs {n b off : Nat} {t : State} {L : Finset Logged} {bs : List UInt8} {x : M Unit} {R : Unit → State → Finset Logged → Prop}
    (h : Counted e K n s b t L)
    (hx : ∀ u, u.disk.bit 0 = true → L.card + pending e L u ≤ K.card + n + pending e K s → Logs sb p B L u x R) :
    Logs sb p B L t (Prog.lift (.bwrite b off bs) >>= fun _ => x) R := by
  refine Within.act rfl ?_ (hx _ h.boot h.card)
  intro w hw
  obtain rfl := List.mem_singleton.mp hw
  exact h.mem

theorem writeLoop_logs (fuel : Nat) {off : Nat} {src : List UInt8} (hboot : s.disk.bit 0 = true)
    (hB : K.card + 2 * touched off src.length + pending e K s ≤ B) :
    Logs sb p B K s (writeLoop sb e fuel off src) fun _ _ L =>
      L.card ≤ K.card + 2 * touched off src.length + pending e K s := by
  induction fuel generalizing off src K s with
  | zero => exact Within.ret (by omega) (by omega)
  | succ fuel ih =>
    unfold writeLoop
    by_cases hsrc : src = []
    · rw [if_pos hsrc]
      exact Within.ret (by omega) (by omega)
    rw [if_neg hsrc]
    have hstep := touched_step off (mt List.length_eq_zero_iff.mp hsrc)
    rw [← List.length_drop] at hstep
    apply (bmap_logs _ hboot (by omega)).bind
    intro b t L _ ht
    apply bwrite_logs ht
    intro u hboot' hcard
    apply (ih hboot' (by omega)).post
    intro _ _ L' _ hL'
    omega

theorem writeLoop_logs_present (fuel : Nat) {off : Nat} {sl : Slot} {src : List UInt8} (hboot : s.disk.bit 0 = true)
    (hsl : slotOf (off / BSIZE) = some sl) (hne : refs s.disk.data (s.ino e).d sl ≠ 0) (hsrc : src ≠ [])
    (hB : K.card + 2 * touched off src.length + pending e K s ≤ B + 1) :
    Logs sb p B K s (writeLoop sb e (fuel + 1) off src) fun _ _ L =>
      L.card + 1 ≤ K.card + 2 * touched off src.length + pending e K s := by
  unfold writeLoop
  rw [if_neg hsrc]
  have hstep := touched_step off (mt List.length_eq_zero_iff.mp hsrc)
  rw [← List.length_drop] at hstep
  apply (bmap_present hsl hne (by omega)).bind
  intro b t L _ hbmap
  rw [hbmap.1, hbmap.2.1, hbmap.2.2]
  have hsub := Finset.subset_insert (.data (refs s.disk.data (s.ino e).d sl)) K
  have hcard : (insert (Logged.data (refs s.disk.data (s.ino e).d sl)) K).card ≤ K.card + 1 := Finset.card_insert_le ..
  have hpending := pending_mono (e := e) (s := s) (t := s) rfl hsub
  have hcounted : Counted e K 1 s (refs s.disk.data (s.ino e).d sl) s
      (insert (.data (refs s.disk.data (s.ino e).d sl)) K) := ⟨Finset.mem_insert_self .., by omega, hboot⟩
  apply Within.count hsub
  apply bwrite_logs hcounted
  intro u hboot' hcard'
  apply (writeLoop_logs fuel hboot' (by omega)).post
  intro _ _ L' _ hL'
  omega

theorem growTo_logs (n off : Nat) (hB : K.card + 1 ≤ B) : Logs sb p B K s (growTo e n off) fun _ _ L => L.card ≤ B := by
  have hcard : (insert (Logged.inodes ((s.tab.icache e).inum / IPB)) K).card ≤ K.card + 1 := Finset.card_insert_le ..
  rw [growTo]
  apply Within.unseen rfl rfl
  by_cases hgrow : 0 < n ∧ (s.ino e).d.size < off
  · rw [if_pos hgrow]
    apply Within.count (Finset.subset_insert (.inodes ((s.tab.icache e).inum / IPB)) K)
    apply Within.unseen rfl rfl
    refine ⟨_, Finset.Subset.refl _, ?_, Nat.le_trans hcard hB, fun _ _ _ => Nat.le_trans hcard hB⟩
    rw [trace_lift rfl]
    intro w hw
    obtain rfl := List.mem_singleton.mp hw
    exact Finset.mem_insert_self ..
  · rw [if_neg hgrow]
    exact Within.ret (by omega) (by omega)

/-- The file has all blocks that its size needs. -/
def Whole (data : Nat → Block) (d : Dinode) : Prop :=
  ∀ bn sl, bn < blocks d.size → slotOf bn = some sl → refs data d sl ≠ 0

/-- The loop of a chunk: in a block that it only changes in part, there is something already. -/
theorem chunk_logs {off : Nat} {src : List UInt8} (hboot : s.disk.bit 0 = true) (hwhole : Whole s.disk.data (s.ino e).d)
    (hoff : off ≤ (s.ino e).d.size) (hmax : off + src.length ≤ MAXFILE * BSIZE) (hsrc : src.length ≤ filewriteMax) :
    Logs sb p MAXOPBLOCKS ∅ s (writeLoop sb e src.length off src) fun _ _ L => L.card + 1 ≤ MAXOPBLOCKS := by
  have htouched := touched_le off hsrc
  have hpending := pending_le e ∅ s
  have hempty : (∅ : Finset Logged).card = 0 := Finset.card_empty
  have hten : MAXOPBLOCKS = 10 := rfl
  by_cases halign : off % BSIZE = 0
  · rw [if_pos halign] at htouched
    apply (writeLoop_logs _ hboot (by omega)).post
    intro _ _ L _ hL
    omega
  rw [if_neg halign] at htouched
  by_cases hnil : src = []
  · subst hnil
    exact Within.ret (by omega) (by omega)
  obtain ⟨fuel, hfuel⟩ := Nat.exists_eq_succ_of_ne_zero (mt List.length_eq_zero_iff.mp hnil)
  have hpos := List.length_pos_of_ne_nil hnil
  have hfile : off / BSIZE < MAXFILE := (Nat.div_lt_iff_lt_mul (by decide)).mpr (by omega)
  obtain ⟨sl, hsl⟩ := slotOf_isSome hfile
  have hlt : off / BSIZE < blocks (s.ino e).d.size := by
    apply lt_blocks
    have hdiv := Nat.div_add_mod' off BSIZE
    omega
  rw [hfuel]
  apply (writeLoop_logs_present fuel hboot hsl (hwhole _ sl hlt hsl) hnil (by omega)).post
  intro _ _ L _ hL
  omega

theorem writei_logs {off : Nat} {src : List UInt8} (htype : (s.ino e).d.type ≠ .dev) (hboot : s.disk.bit 0 = true)
    (hwhole : Whole s.disk.data (s.ino e).d) (hsrc : src.length ≤ filewriteMax) :
    Logs sb p MAXOPBLOCKS ∅ s (writei sb e src off) fun _ _ L => L.card ≤ MAXOPBLOCKS := by
  rw [writei]
  apply Within.unseen rfl rfl
  rw [if_neg htype]
  split_ifs with hrange hmax
  · exact Within.ret (Nat.zero_le _) (Nat.zero_le _)
  · exact Within.ret (Nat.zero_le _) (Nat.zero_le _)
  have hoff : off ≤ (s.ino e).d.size := by omega
  apply (chunk_logs hboot hwhole hoff (by omega) hsrc).bind
  intro _ t L _ hL
  apply (growTo_logs _ _ hL).bind
  intro _ u L' _ hL'
  exact Within.ret hL' hL'

end Writei

section Chunk

open Prog (All)

variable {sb : Super} {p : Pid} {f : FileId} {e : Entry} {s : State} {src : List UInt8}

/-- Programs that call no `log_write`. -/
def Unlogged {α : Type} (x : M α) : Prop := x.All (fun {_} a => ∀ s b, logWrites a s b = []) fun _ => True

theorem unlogged_lift {α : Type} {a : Act α} (h : ∀ s b, logWrites a s b = []) : Unlogged (Prog.lift a) := All.lift h

theorem ilock_unlogged (e : Entry) : Unlogged (ilock e) := by
  refine All.bind (unlogged_lift fun _ _ => rfl) fun r => ?_
  split
  · trivial
  refine All.bind (unlogged_lift fun _ _ => rfl) fun _ => All.bind (unlogged_lift fun _ _ => rfl) fun valid => ?_
  split
  · trivial
  refine All.bind (unlogged_lift fun _ _ => rfl) fun d => ?_
  split
  · trivial
  · trivial

theorem iunlock_unlogged (e : Entry) : Unlogged (iunlock e) := by
  refine All.bind (unlogged_lift fun _ _ => rfl) fun held => All.bind (unlogged_lift fun _ _ => rfl) fun r => ?_
  split
  · trivial
  · exact unlogged_lift fun _ _ => rfl

theorem filewriteOnce_logs (sb : Super) (p : Pid) (f : FileId) (h : Lockable s e) (htype : (s.disk.dino (s.tab.icache e).inum).type ≠ .dev)
    (hboot : s.disk.bit 0 = true) (hwhole : Whole s.disk.data (s.disk.dino (s.tab.icache e).inum))
    (hsrc : src.length ≤ filewriteMax) :
    Logs sb p MAXOPBLOCKS ∅ s (filewriteOnce sb f e src) fun _ _ _ => True := by
  have hlocked : Logs sb p MAXOPBLOCKS ∅ s (ilock e) fun _ t L => t = locked s p e ∧ L = ∅ := by
    apply Within.quiet (ilock_unlogged e) (Nat.zero_le _)
    intro a t hrun
    rw [run_ilock h] at hrun
    exact ⟨(Prod.mk.inj (Except.ok.inj hrun)).2.symm, rfl⟩
  apply hlocked.bind
  rintro _ _ _ - ⟨rfl, rfl⟩
  apply Within.unseen rfl rfl
  have hd : ((locked s p e).ino e).d = s.disk.dino (s.tab.icache e).inum := by rw [locked_ino]
  have htype' : ((locked s p e).ino e).d.type ≠ .dev := hd ▸ htype
  have hwhole' : Whole (locked s p e).disk.data ((locked s p e).ino e).d := by
    rw [hd]
    exact hwhole
  apply (writei_logs htype' hboot hwhole' hsrc).bind
  intro r t L _ hL
  cases r with
  | none =>
    have hrest : Unlogged (iunlock e >>= fun _ => pure (none : Option Nat)) := All.bind (iunlock_unlogged e) fun _ => trivial
    exact Within.quiet hrest hL fun _ _ _ => trivial
  | some m =>
    have hrest : Unlogged (Prog.lift (.setOff f ((((locked s p e).tab.file f).off + m) % 2 ^ 32)) >>= fun _ =>
        iunlock e >>= fun _ => pure (some m)) :=
      All.bind (unlogged_lift fun _ _ => rfl) fun _ => All.bind (iunlock_unlogged e) fun _ => trivial
    exact Within.quiet hrest hL fun _ _ _ => trivial

/-- A chunk of `filewrite` calls `log_write` for no more blocks than `begin_op` has reserved, wherever it begins and
whatever it has to allocate. -/
theorem chunk_within_reservation (h : Lockable s e) (htype : (s.disk.dino (s.tab.icache e).inum).type ≠ .dev)
    (hboot : s.disk.bit 0 = true) (hwhole : Whole s.disk.data (s.disk.dino (s.tab.icache e).inum))
    (hsrc : src.length ≤ filewriteMax) (inodestart bmapstart : Nat) :
    ((trace (sem sb) logWrites p (filewriteOnce sb f e src) s).map (Logged.blockno inodestart bmapstart)).toFinset.card ≤
      MAXOPBLOCKS := by
  have hcard := (filewriteOnce_logs sb p f h htype hboot hwhole hsrc).card_le
  have himage : ((trace (sem sb) logWrites p (filewriteOnce sb f e src) s).map
      (Logged.blockno inodestart bmapstart)).toFinset =
        (trace (sem sb) logWrites p (filewriteOnce sb f e src) s).toFinset.image (Logged.blockno inodestart bmapstart) := by
    ext b
    simp
  rw [himage]
  exact Nat.le_trans Finset.card_image_le hcard

/-- A file that ends inside its last direct block, on a disk whose free blocks have their bits in four different
blocks of the bitmap. -/
def scattered : State :=
  { opened with
    tab := { opened.tab with file := Function.update opened.tab.file 0 ⟨1, .inode 0, false, true, 5732⟩ }
    disk := ⟨Function.update (fun _ => .zero) 2 ⟨.file, 0, 0, 1, 5732, fun k => if k.val < NDIRECT then 100 + k.val else 0⟩,
      fun b => decide (b % BPB ≠ 500), fun _ _ => 0⟩ }

def wideSuper : Super := ⟨16384, 200, 59, smallSuper.pos, by decide⟩

theorem lockable_scattered : Lockable scattered 0 := ⟨Nat.one_pos, rfl, nofun, by decide⟩

theorem whole_scattered : Whole scattered.disk.data (scattered.disk.dino 2) := by
  intro bn sl hbn hsl
  have hlt : bn < NDIRECT := hbn
  rw [slotOf, dif_pos hlt] at hsl
  obtain rfl := Option.some.inj hsl
  show (if bn < NDIRECT then 100 + bn else 0) ≠ 0
  rw [if_pos hlt]
  omega

/-- The largest chunk there reaches the bound. -/
theorem chunk_within_reservation_scattered :
    ((trace (sem wideSuper) logWrites 0 (filewriteOnce wideSuper 0 0 (List.replicate filewriteMax 7)) scattered).map
      (Logged.blockno 32 58)).toFinset.card ≤ MAXOPBLOCKS ∧
    ((trace (sem wideSuper) logWrites 0 (filewriteOnce wideSuper 0 0 (List.replicate filewriteMax 7)) scattered).map
      (Logged.blockno 32 58)).toFinset.card = MAXOPBLOCKS :=
  ⟨chunk_within_reservation lockable_scattered (by decide) rfl whole_scattered List.length_replicate.le 32 58,
    by decide +kernel⟩

end Chunk

end Chameleon.Fs
