import Chameleon.Fs.Alone

/-! `readi` and `writei` of a process that runs alone: a file is an array of bytes. -/

namespace Chameleon.Fs
open Conc Hoare

section Write

variable {sb : Super} {p : Pid} {e : Entry} {s₀ s : State} {file : Nat → Nat → UInt8} {nb : Nat}

/-- File `i` with the bytes `src` stored at `off`. -/
def stored (file : Nat → Nat → UInt8) (i off : Nat) (src : List UInt8) : Nat → Nat → UInt8 :=
  Function.update file i (Bytes.store (file i) off src)

theorem stored_nil (file : Nat → Nat → UInt8) (i off : Nat) : stored file i off [] = file := by
  rw [stored, Bytes.store_nil, Function.update_eq_self]

theorem stored_append (file : Nat → Nat → UInt8) (i off : Nat) (a b : List UInt8) :
    stored file i off (a ++ b) = stored (stored file i off a) i (off + a.length) b := by
  rw [stored, stored, stored, Function.update_self, Function.update_idem, Bytes.store_append]

theorem Writing.write {bn o : Nat} {sl : Slot} {bs : List UInt8} (h : Writing sb e s₀ file nb s) (hbn : bn < nb)
    (hsl : slotOf bn = some sl) (hfits : o + bs.length ≤ BSIZE) :
    Writing sb e s₀ (stored file (s₀.tab.icache e).inum (bn * BSIZE + o) bs) nb
      (s.setData (refs s.disk.data (s.ino e).d sl) (Bytes.store (s.disk.data (refs s.disk.data (s.ino e).d sl)) o bs)) := by
  have hne : refs s.disk.data (s.ino e).d sl ≠ 0 := by
    apply (h.filled sl).mpr
    rwa [index_slotOf hsl]
  have hind : sl ≠ .addr indirect := fun heq => slotOf_ne_indirect bn (heq ▸ hsl)
  have hslots := slots_ahead s.disk.data s₀ e (s.ino e).d
  have hsound := h.sound.write (i := (s₀.tab.icache e).inum) hsl (by rwa [hslots]) hfits
  have hsame := slots_write (i := (s₀.tab.icache e).inum) h.sound.apart (by rwa [hslots]) hind
    (Bytes.store (s.disk.data (refs s.disk.data (s.ino e).d sl)) o bs)
  rw [hslots] at hsound hsame
  refine ⟨⟨⟨h.frame.tab, h.frame.dino, h.frame.ino, h.frame.holder, h.frame.valid, h.frame.head,
    h.frame.input⟩, hsound, ?_⟩, ?_⟩
  · apply h.others_of
    intro i hi _
    exact Function.update_of_ne (h.other_ne hi sl hne) ..
  · have hmine := congrFun hsame (s₀.tab.icache e).inum
    rw [slots_ahead, slots_ahead] at hmine
    change Filled (refs (Function.update s.disk.data _ _) (s.ino e).d) nb
    rw [hmine]
    exact h.filled

/-- After the loop of `writei`. -/
structure Looped (sb : Super) (e : Entry) (s₀ : State) (file : Nat → Nat → UInt8) (nb off : Nat) (src : List UInt8) (s t : State) :
    Prop where
  writing : Writing sb e s₀ (stored file (s₀.tab.icache e).inum off src) (max nb (blocks (off + src.length))) t
  free : t.disk.free sb + cost (max nb (blocks (off + src.length))) = s.disk.free sb + cost nb
  same : blocks (off + src.length) ≤ nb → t.ino = s.ino

theorem Looped.nil {off : Nat} (h : Writing sb e s₀ file nb s) (hoff : blocks off ≤ nb) :
    Looped sb e s₀ file nb off [] s s := by
  have hmax : max nb (blocks (off + ([] : List UInt8).length)) = nb := Nat.max_eq_left hoff
  refine ⟨?_, by rw [hmax], fun _ => rfl⟩
  rw [hmax, stored_nil]
  exact h

theorem Looped.cons {off bn x m : Nat} {a b : List UInt8} {t u : State} (hm : Mapped sb e s₀ file nb bn s x t)
    (ha : a.length = m) (hbn : bn < blocks (off + (a ++ b).length))
    (h : Looped sb e s₀ (stored file (s₀.tab.icache e).inum off a) (max nb (bn + 1)) (off + m) b
      (t.setData x (Bytes.store (t.disk.data x) (off % BSIZE) a)) u) :
    Looped sb e s₀ file nb off (a ++ b) s u := by
  subst ha
  obtain ⟨hw, hfree, hsame⟩ := h
  have hlen : off + a.length + b.length = off + (a ++ b).length := by rw [List.length_append, Nat.add_assoc]
  have hmax : max (max nb (bn + 1)) (blocks (off + (a ++ b).length)) = max nb (blocks (off + (a ++ b).length)) := by
    omega
  rw [hlen, hmax] at hw hfree
  rw [hlen] at hsame
  refine ⟨?_, ?_, ?_⟩
  · rw [stored_append]
    exact hw
  · exact hfree.trans hm.free
  · intro hle
    have hino : u.ino = t.ino := hsame (Nat.le_trans hle (Nat.le_max_left ..))
    rw [hino, hm.same (Nat.lt_of_lt_of_le hbn hle)]

theorem writeLoop_spec {roomy : Prop} (fuel : Nat) {off : Nat} {src : List UInt8} (hfuel : src.length ≤ fuel)
    (h : Writing sb e s₀ file nb s) (hoff : blocks off ≤ nb) (hmax : off + src.length ≤ MAXFILE * BSIZE)
    (hroom : roomy → cost (max nb (blocks (off + src.length))) ≤ s.disk.free sb + cost nb) :
    Triple (fun _ => ¬roomy) (fun t => t = s) (solo (sem sb) p (writeLoop sb e fuel off src)) fun _ =>
      Looped sb e s₀ file nb off src s := by
  induction fuel generalizing off src file nb s with
  | zero =>
    obtain rfl : src = [] := List.length_eq_zero_iff.mp (Nat.le_zero.mp hfuel)
    apply Triple.ret
    rintro t rfl
    exact .nil h hoff
  | succ fuel ih =>
    unfold writeLoop
    by_cases hsrc : src = []
    · subst hsrc
      rw [if_pos rfl]
      apply Triple.ret
      rintro t rfl
      exact .nil h hoff
    rw [if_neg hsrc, solo_bind]
    have hpos : 0 < src.length := List.length_pos_iff.mpr hsrc
    have hdiv : off / BSIZE * BSIZE + off % BSIZE = off := Nat.div_add_mod' off BSIZE
    have hmod : off % BSIZE < BSIZE := Nat.mod_lt off (by decide)
    have hlo : off / BSIZE * BSIZE ≤ off := Nat.div_mul_le_self off BSIZE
    have hle : off / BSIZE ≤ nb := Nat.le_trans (le_blocks hlo) hoff
    have hlt : off / BSIZE < blocks (off + src.length) := lt_blocks (Nat.lt_of_le_of_lt hlo (Nat.lt_add_of_pos_right hpos))
    have hfile : off / BSIZE < MAXFILE := Nat.lt_of_lt_of_le hlt (blocks_le hmax)
    -- the bytes of this turn, and those that are left
    have hm : 0 < min src.length (BSIZE - off % BSIZE) := by omega
    have hmle : min src.length (BSIZE - off % BSIZE) ≤ src.length := Nat.min_le_left ..
    have hmfit : off % BSIZE + min src.length (BSIZE - off % BSIZE) ≤ BSIZE := by omega
    generalize min src.length (BSIZE - off % BSIZE) = m at hm hmle hmfit ⊢
    have htake : (src.take m).length = m := List.length_take_of_le hmle
    have hsplit : src.take m ++ src.drop m = src := List.take_append_drop m src
    have hdrop : off + m + (src.drop m).length = off + src.length := by
      rw [List.length_drop]
      omega
    have hcost : max (max nb (off / BSIZE + 1)) (blocks (off + src.length)) = max nb (blocks (off + src.length)) := by
      omega
    refine (bmap_spec h hle hfile ?_).bind fun x => Triple.each fun t ht => ?_
    · intro hr
      have hmono : cost (max nb (off / BSIZE + 1)) ≤ cost (max nb (blocks (off + src.length))) := cost_le (by omega)
      exact Nat.le_trans hmono (hroom hr)
    rw [solo_bind, solo_lift]
    apply Triple.runs (run_once rfl)
    obtain ⟨sl, hsl, rfl⟩ := ht.slot
    have hfits : off % BSIZE + (src.take m).length ≤ BSIZE := htake.symm ▸ hmfit
    have hwrite := ht.writing.write (Nat.lt_of_lt_of_le (Nat.lt_succ_self _) (Nat.le_max_right ..)) hsl hfits
    rw [hdiv] at hwrite
    have hend : blocks (off + m) ≤ max nb (off / BSIZE + 1) := by
      apply Nat.le_trans (blocks_le _) (Nat.le_max_right ..)
      rw [Nat.succ_mul]
      omega
    have hfree := ht.free
    refine (ih (by rw [List.length_drop]; omega) hwrite hend (by rw [hdrop]; exact hmax) ?_).post fun _ u hu => ?_
    · intro hr
      have hle := hroom hr
      rw [hdrop, hcost]
      change _ ≤ t.disk.free sb + _
      omega
    · rw [← hsplit]
      refine .cons ht htake ?_ hu
      rw [hsplit]
      exact hlt

end Write

section Writei

variable {sb : Super} {p : Pid} {e : Entry} {s : State} {file : Nat → Nat → UInt8} {off : Nat} {src : List UInt8}

/-- The disk holds the files `file`, without holes and without blocks behind their ends. -/
structure Intact (sb : Super) (file : Nat → Nat → UInt8) (D : Disk) : Prop where
  sound : Sound sb D D.dino file
  filled : ∀ i, Filled (slots D.data D.dino i) (blocks (D.dino i).size)
  small : ∀ i, (D.dino i).size ≤ MAXFILE * BSIZE

/-- The inode is as on disk. -/
def Fresh (s : State) (e : Entry) : Prop := (s.ino e).d = s.disk.dino (s.tab.icache e).inum

/-- What `writei` does not accept. -/
def Refused (d : Dinode) (off n : Nat) : Prop := (d.size < off ∨ (off + n) % 2 ^ 32 < off) ∨ MAXFILE * BSIZE < off + n

instance (d : Dinode) (off n : Nat) : Decidable (Refused d off n) := inferInstanceAs (Decidable (_ ∨ _))

/-- After `writei` of `src` at `off`. -/
structure Written (sb : Super) (e : Entry) (file : Nat → Nat → UInt8) (off : Nat) (src : List UInt8) (s t : State) : Prop where
  intact : Intact sb (stored file (s.tab.icache e).inum off src) t.disk
  fresh : Fresh t e
  tab : t.tab = s.tab
  dino : ∀ i, i ≠ (s.tab.icache e).inum → t.disk.dino i = s.disk.dino i
  ino : ∀ e', e' ≠ e → t.ino e' = s.ino e'
  holder : (t.ino e).holder = (s.ino e).holder
  valid : (t.ino e).valid = (s.ino e).valid
  head : (t.ino e).d = { (s.ino e).d with size := max (s.ino e).d.size (off + src.length), addrs := (t.ino e).d.addrs }
  free : t.disk.free sb + cost (blocks (t.ino e).d.size) = s.disk.free sb + cost (blocks (s.ino e).d.size)
  input : t.input = s.input

theorem Intact.writing (h : Intact sb file s.disk) (hfresh : Fresh s e) :
    Writing sb e s file (blocks (s.ino e).d.size) s := by
  have hself : ahead s e (s.ino e).d = s.disk.dino := by
    rw [ahead, hfresh, Function.update_eq_self]
  refine ⟨⟨⟨rfl, rfl, fun _ _ => rfl, rfl, rfl, rfl, rfl⟩, ?_, fun _ _ => rfl⟩, ?_⟩
  · rw [hself]
    exact h.sound
  · have hfilled := h.filled (s.tab.icache e).inum
    rwa [slots, ← hfresh] at hfilled

/-- The disk once the inode is as on disk again. -/
theorem Writing.intact {s₀ t : State} {d : Dinode} {nb : Nat} (h : Writing sb e s₀ file nb t) (h₀ : ∀ i, i ≠ (s₀.tab.icache e).inum →
      Filled (slots s₀.disk.data s₀.disk.dino i) (blocks (s₀.disk.dino i).size) ∧ (s₀.disk.dino i).size ≤ MAXFILE * BSIZE)
    (haddrs : d.addrs = (t.ino e).d.addrs) (hsize : blocks d.size = nb) (hsmall : d.size ≤ MAXFILE * BSIZE) :
    Intact sb file { t.disk with dino := ahead s₀ e d } := by
  have hslots : slots t.disk.data (ahead s₀ e d) = slots t.disk.data (ahead s₀ e (t.ino e).d) := by
    funext i sl
    by_cases hi : i = (s₀.tab.icache e).inum
    · subst hi
      rw [slots_ahead, slots_ahead]
      cases sl with
      | addr k => exact congrFun haddrs k
      | entry j => simp only [refs, haddrs]
    · rw [slots, slots, ahead, ahead, Function.update_of_ne hi, Function.update_of_ne hi]
  refine ⟨⟨h.sound.toHolds.congr (fun _ _ => rfl) hslots, h.sound.low⟩, ?_, ?_⟩
  · intro i
    change Filled (slots t.disk.data (ahead s₀ e d) i) (blocks (ahead s₀ e d i).size)
    rw [hslots]
    by_cases hi : i = (s₀.tab.icache e).inum
    · subst hi
      rw [slots_ahead, ahead, Function.update_self, hsize]
      exact h.filled
    · have hother := h.others i hi
      rw [ahead, ahead, Function.update_of_ne hi, slots, Function.update_of_ne hi]
      rw [slots, slots] at hother
      rw [hother]
      exact (h₀ i hi).1
  · intro i
    change (ahead s₀ e d i).size ≤ _
    by_cases hi : i = (s₀.tab.icache e).inum
    · rw [hi, ahead, Function.update_self]
      exact hsmall
    · rw [ahead, Function.update_of_ne hi]
      exact (h₀ i hi).2

theorem blocks_max (m n : Nat) : blocks (max m n) = max (blocks m) (blocks n) := by
  rcases Nat.le_total m n with h | h
  · rw [Nat.max_eq_right h, Nat.max_eq_right (blocks_mono h)]
  · rw [Nat.max_eq_left h, Nat.max_eq_left (blocks_mono h)]

/-- The inode with another size. -/
def Dinode.resize (d : Dinode) (n : Nat) : Dinode := { d with size := n }

/-- The inode is set, and the dinode is written. -/
def updated (t : State) (e : Entry) (d : Dinode) : State :=
  (t.setIno e { t.ino e with d := d }).setDino (t.tab.icache e).inum d

theorem updated_ino (t : State) (e : Entry) (d : Dinode) : (updated t e d).ino e = { t.ino e with d := d } := by
  simp [updated, State.setIno, State.setDino]

theorem run_update (t : State) (e : Entry) (d : Dinode) : (solo (sem sb) p (do
    Prog.lift (.store e d)
    Prog.lift (.iupdate e))).run t = .ok ((), updated t e d) := by
  have hino : (t.setIno e { t.ino e with d := d }).ino e = { t.ino e with d := d } := by
    simp [State.setIno]
  have hstate : (t.setIno e { t.ino e with d := d }).setDino ((t.setIno e { t.ino e with d := d }).tab.icache e).inum
      ((t.setIno e { t.ino e with d := d }).ino e).d = updated t e d := by
    rw [hino]
    rfl
  rw [solo_bind, solo_lift, solo_lift, run_bind_of_ok (run_once rfl), ← hstate]
  rfl

theorem Intact.others (h : Intact sb file s.disk) (i : Nat) (_ : i ≠ (s.tab.icache e).inum) :
    Filled (slots s.disk.data s.disk.dino i) (blocks (s.disk.dino i).size) ∧ (s.disk.dino i).size ≤ MAXFILE * BSIZE :=
  ⟨h.filled i, h.small i⟩

theorem Looped.grow {t : State} (h : Intact sb file s.disk) (hmax : off + src.length ≤ MAXFILE * BSIZE)
    (hgrow : (s.ino e).d.size < off + src.length) (ht : Looped sb e s file (blocks (s.ino e).d.size) off src s t) :
    Written sb e file off src s (updated t e ((t.ino e).d.resize (off + src.length))) := by
  have hw := ht.writing
  have hmaxsize : max (s.ino e).d.size (off + src.length) = off + src.length := Nat.max_eq_right (Nat.le_of_lt hgrow)
  have hblocks : blocks (off + src.length) = max (blocks (s.ino e).d.size) (blocks (off + src.length)) := by
    rw [← blocks_max, hmaxsize]
  have hinum : (t.tab.icache e).inum = (s.tab.icache e).inum := by rw [hw.frame.tab]
  have hdino : (updated t e ((t.ino e).d.resize (off + src.length))).disk.dino = ahead s e ((t.ino e).d.resize (off + src.length)) := by
    change Function.update t.disk.dino (t.tab.icache e).inum _ = _
    rw [hinum, hw.frame.dino]
    rfl
  have hintact := hw.intact (d := (t.ino e).d.resize (off + src.length)) h.others rfl hblocks hmax
  constructor
  · rw [← hdino] at hintact
    exact hintact
  · rw [Fresh, hdino, updated_ino]
    change (t.ino e).d.resize (off + src.length) = ahead s e ((t.ino e).d.resize (off + src.length)) (t.tab.icache e).inum
    rw [hinum, ahead, Function.update_self]
  · exact hw.frame.tab
  · intro i hi
    rw [hdino, ahead, Function.update_of_ne hi]
  · intro e' he
    exact (Function.update_of_ne he ..).trans (hw.frame.ino e' he)
  · rw [updated_ino]
    exact hw.frame.holder
  · rw [updated_ino]
    exact hw.frame.valid
  · rw [updated_ino, hmaxsize, Dinode.resize, hw.frame.head]
  · rw [updated_ino, Dinode.resize, hblocks]
    exact ht.free
  · exact hw.frame.input

theorem Looped.keep {t : State} (h : Intact sb file s.disk) (hfresh : Fresh s e) (hkeep : off + src.length ≤ (s.ino e).d.size)
    (ht : Looped sb e s file (blocks (s.ino e).d.size) off src s t) : Written sb e file off src s t := by
  have hw := ht.writing
  have hle := blocks_mono hkeep
  have hino : t.ino = s.ino := ht.same hle
  have hfree := ht.free
  rw [Nat.max_eq_left hle] at hw hfree
  have hdino : ahead s e (t.ino e).d = t.disk.dino := by
    rw [hino, ahead, hfresh, Function.update_eq_self, hw.frame.dino]
  have hsmall : (t.ino e).d.size ≤ MAXFILE * BSIZE := by
    rw [hino, hfresh]
    exact h.small _
  have hintact := hw.intact h.others rfl (by rw [hino]) hsmall
  rw [hdino] at hintact
  constructor
  · exact hintact
  · rw [Fresh, hino, hw.frame.dino, hw.frame.tab]
    exact hfresh
  · exact hw.frame.tab
  · intro i _
    rw [hw.frame.dino]
  · exact hw.frame.ino
  · exact hw.frame.holder
  · exact hw.frame.valid
  · rw [hino, Nat.max_eq_left hkeep]
  · rw [hino]
    exact hfree
  · exact hw.frame.input

theorem growTo_spec {stop : String → Prop} {t : State} (h : Intact sb file s.disk) (hfresh : Fresh s e)
    (hoff : off ≤ (s.ino e).d.size) (hmax : off + src.length ≤ MAXFILE * BSIZE)
    (ht : Looped sb e s file (blocks (s.ino e).d.size) off src s t) :
    Triple stop (fun u => u = t) (solo (sem sb) p (growTo e src.length (off + src.length))) fun _ =>
      Written sb e file off src s := by
  have hsize : (t.ino e).d.size = (s.ino e).d.size := by rw [ht.writing.frame.head]
  rw [growTo, solo_bind, solo_lift]
  apply Triple.runs (run_once rfl)
  rw [hsize]
  by_cases hgrow : 0 < src.length ∧ (s.ino e).d.size < off + src.length
  · rw [if_pos hgrow]
    rintro u rfl
    rw [run_update]
    exact ht.grow h hmax hgrow.2
  · rw [if_neg hgrow]
    apply Triple.ret
    rintro u rfl
    exact ht.keep h hfresh (by omega)

theorem writei_spec {roomy : Prop} (h : Intact sb file s.disk) (hfresh : Fresh s e) (htype : (s.ino e).d.type ≠ .dev)
    (hoff : ¬Refused (s.ino e).d off src.length)
    (hroom : roomy → cost (blocks (max (s.ino e).d.size (off + src.length))) ≤ s.disk.free sb + cost (blocks (s.ino e).d.size)) :
    Triple (fun _ => ¬roomy) (fun t => t = s) (solo (sem sb) p (writei sb e src off)) fun r t =>
      r = some src.length ∧ Written sb e file off src s t := by
  have hle : off ≤ (s.ino e).d.size := Nat.le_of_not_lt fun hlt => hoff (Or.inl (Or.inl hlt))
  have hmax : off + src.length ≤ MAXFILE * BSIZE := Nat.le_of_not_lt fun hlt => hoff (Or.inr hlt)
  rw [writei, solo_bind, solo_lift]
  apply Triple.runs (run_once rfl)
  rw [if_neg htype, if_neg fun hr => hoff (Or.inl hr), if_neg (Nat.not_lt.mpr hmax), solo_bind]
  rw [blocks_max] at hroom
  refine (writeLoop_spec src.length (Nat.le_refl _) (h.writing hfresh) (blocks_mono hle) hmax hroom).bind fun _ =>
    Triple.each fun t ht => ?_
  rw [solo_bind]
  refine (growTo_spec h hfresh hle hmax ht).bind fun _ => Triple.ret fun u hu => ⟨rfl, hu⟩

theorem run_writei_refused (htype : (s.ino e).d.type ≠ .dev) (hoff : Refused (s.ino e).d off src.length) :
    (solo (sem sb) p (writei sb e src off)).run s = .ok (none, s) := by
  rw [writei, solo_bind, solo_lift, run_bind_of_ok (run_once rfl), if_neg htype]
  by_cases hrange : (s.ino e).d.size < off ∨ (off + src.length) % 2 ^ 32 < off
  · rw [if_pos hrange]
    rfl
  · rw [if_neg hrange, if_pos (hoff.resolve_left hrange)]
    rfl

end Writei

section Readi

variable {sb : Super} {p : Pid} {e : Entry} {s : State} {file : Nat → Nat → UInt8} {off n : Nat}

theorem run_bmap {s₀ : State} {nb bn : Nat} {sl : Slot} (h : Writing sb e s₀ file nb s) (hbn : bn < nb)
    (hsl : slotOf bn = some sl) :
    (solo (sem sb) p (bmap sb e bn)).run s = .ok (refs s.disk.data (s.ino e).d sl, s) := by
  have hmax : max nb (bn + 1) = nb := Nat.max_eq_left hbn
  have hroom : True → cost (max nb (bn + 1)) ≤ s.disk.free sb + cost nb := by
    rw [hmax]
    exact fun _ => Nat.le_add_left ..
  have hspec := bmap_spec (p := p) h (Nat.le_of_lt hbn) (slotOf_lt hsl) hroom
  obtain ⟨x, t, hrun, hm⟩ := (hspec.stops fun _ hstop => hstop trivial).ends rfl
  obtain ⟨sl', hsl', rfl⟩ := hm.slot
  obtain rfl := hm.same hbn
  rw [hrun, Option.some.inj (hsl'.symm.trans hsl)]

theorem content_block (data : Nat → Block) {r : Slot → Nat} {bn o : Nat} {sl : Slot} (hsl : slotOf bn = some sl)
    (hne : r sl ≠ 0) (ho : o < BSIZE) : content data r (bn * BSIZE + o) = data (r sl) o := by
  have hdiv : (bn * BSIZE + o) / BSIZE = bn := by
    rw [Nat.mul_comm, Nat.mul_add_div (by decide), Nat.div_eq_of_lt ho, Nat.add_zero]
  have hmod : (bn * BSIZE + o) % BSIZE = o := by
    rw [Nat.mul_comm, Nat.mul_add_mod, Nat.mod_eq_of_lt ho]
  simp only [content, hdiv, hmod, hsl, if_neg hne]

theorem Intact.slice_block (h : Intact sb file s.disk) (hfresh : Fresh s e) {sl : Slot} {m : Nat}
    (hsl : slotOf (off / BSIZE) = some sl) (hlt : off < (s.ino e).d.size) (hm : off % BSIZE + m ≤ BSIZE) :
    Bytes.slice (s.disk.data (refs s.disk.data (s.ino e).d sl)) (off % BSIZE) m =
      Bytes.slice (file (s.tab.icache e).inum) off m := by
  have hdiv : off / BSIZE * BSIZE + off % BSIZE = off := Nat.div_add_mod' off BSIZE
  have hne : refs s.disk.data (s.ino e).d sl ≠ 0 := by
    apply ((h.writing hfresh).filled sl).mpr
    rw [index_slotOf hsl]
    exact lt_blocks (Nat.lt_of_le_of_lt (Nat.div_mul_le_self ..) hlt)
  have hholds := h.sound.holds (s.tab.icache e).inum
  rw [slots, ← hfresh] at hholds
  apply Bytes.slice_congr
  intro k hk
  rw [← hholds, ← content_block s.disk.data hsl hne (by omega), ← Nat.add_assoc, hdiv]

theorem run_readLoop (h : Intact sb file s.disk) (hfresh : Fresh s e) (fuel : Nat) (hfuel : n ≤ fuel)
    (hend : off + n ≤ (s.ino e).d.size) :
    (solo (sem sb) p (readLoop sb e fuel off n)).run s = .ok (Bytes.slice (file (s.tab.icache e).inum) off n, s) := by
  induction fuel generalizing off n with
  | zero =>
    obtain rfl : n = 0 := Nat.le_zero.mp hfuel
    rfl
  | succ fuel ih =>
    unfold readLoop
    by_cases hn : n = 0
    · subst hn
      rfl
    have hlt : off < (s.ino e).d.size := by omega
    have hlo : off / BSIZE * BSIZE ≤ off := Nat.div_mul_le_self off BSIZE
    have hmod : off % BSIZE < BSIZE := Nat.mod_lt off (by decide)
    have hbn : off / BSIZE < blocks (s.ino e).d.size := lt_blocks (Nat.lt_of_le_of_lt hlo hlt)
    have hsmall : (s.ino e).d.size ≤ MAXFILE * BSIZE := by
      rw [hfresh]
      exact h.small _
    obtain ⟨sl, hsl⟩ := slotOf_isSome (Nat.lt_of_lt_of_le hbn (blocks_le hsmall))
    have hm : 0 < min n (BSIZE - off % BSIZE) := by omega
    have hmle : min n (BSIZE - off % BSIZE) ≤ n := Nat.min_le_left ..
    have hmfit : off % BSIZE + min n (BSIZE - off % BSIZE) ≤ BSIZE := by omega
    rw [if_neg hn, solo_bind, run_bind_of_ok (run_bmap (h.writing hfresh) hbn hsl), solo_bind, solo_lift,
      run_bind_of_ok (run_once rfl), solo_bind]
    generalize min n (BSIZE - off % BSIZE) = m at hm hmle hmfit ⊢
    rw [run_bind_of_ok (ih (by omega) (by omega)), h.slice_block hfresh hsl hlt hmfit]
    obtain ⟨k, rfl⟩ := Nat.exists_eq_add_of_le hmle
    rw [Nat.add_sub_cancel_left, ← Bytes.slice_add]
    rfl

/-- The bytes that `readi` returns. -/
def readResult (file : Nat → UInt8) (size off n : Nat) : Option (List UInt8) :=
  if size < off ∨ (off + n) % 2 ^ 32 < off then none
  else some (Bytes.slice file off (if size < off + n then size - off else n))

theorem run_readi (h : Intact sb file s.disk) (hfresh : Fresh s e) (htype : (s.ino e).d.type ≠ .dev) :
    (solo (sem sb) p (readi sb e off n)).run s =
      .ok (readResult (file (s.tab.icache e).inum) (s.ino e).d.size off n, s) := by
  rw [readi, solo_bind, solo_lift, run_bind_of_ok (run_once rfl), if_neg htype]
  by_cases hrange : (s.ino e).d.size < off ∨ (off + n) % 2 ^ 32 < off
  · rw [readResult, if_pos hrange, if_pos hrange]
    rfl
  · have hend : off + (if (s.ino e).d.size < off + n then (s.ino e).d.size - off else n) ≤ (s.ino e).d.size := by
      split_ifs <;> omega
    rw [readResult, if_neg hrange, if_neg hrange, solo_bind, run_bind_of_ok (run_readLoop h hfresh _ (Nat.le_refl _) hend)]
    rfl

end Readi

end Chameleon.Fs
