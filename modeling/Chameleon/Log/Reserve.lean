import Chameleon.Log.Waiters

/-! The space that `begin_op` reserves against the limits that `log_write` tests. `begin_op` counts
`MAXOPBLOCKS` for each operation, and one block of the log area is its header. -/

namespace Chameleon.Log
open Conc Machine
variable {La : Area} {disk : Nat → Block} {w : World} {p : Pid} {s s' : State} {g g' : Ghost}

/-- `log_write` has panicked. -/
def TooBig (w : World) (p : Pid) : Prop := panicked (w.thr p) = some "too big a transaction"

instance (w : World) (p : Pid) : Decidable (TooBig w p) := inferInstanceAs (Decidable (_ = _))

/-- The blocks that the operation of a process has logged. -/
def Hist.used (h : Hist) (p : Pid) : Finset Nat :=
  ((h.cur.filter fun u => h.op p = some u.op).map Update.blockno).toFinset

/-- An operation calls `log_write` on at most `k` different blocks. -/
def Within (k : Nat) (p : Pid) {β : Type} : Act β → State → Prop
  | .append i, s => ((append p s i).hist.used p).card ≤ k
  | _, _ => True

instance (k : Nat) (p : Pid) (β : Type) (a : Act β) (s : State) : Decidable (Within k p a s) := by
  unfold Within
  split <;> infer_instance

/-- While operations run, the log has room for the blocks that each may still log. -/
def Spare (s : State) : Prop :=
  s.inOp.Nonempty →
    s.hist.logged.length + ∑ p ∈ s.inOp, (MAXOPBLOCKS - 1 - (s.hist.used p).card) + 1 < LOGSIZE

theorem Spare.congr (h : s'.hist = s.hist) (hs : Spare s) : Spare s' := by
  unfold Spare State.inOp at *
  rwa [h]

theorem spare_of_idle (h : ∀ p, s.hist.op p = none) : Spare s := by
  rintro ⟨p, hp⟩
  exact absurd (h p) (mem_inOp.mp hp)

/-- `begin_op` counts one block more for each operation than this needs, so that with a second
operation there is room for the header. -/
theorem spare_enterOp (hi : Inv La disk s g) (hfull : s.full = false) : Spare (enterOp p s) := by
  intro _
  have hcard : (enterOp p s).inOp.card ≤ s.outstanding + 1 := by
    rw [Waiters.inOp_enterOp, hi.ops]
    exact Finset.card_insert_le _ _
  have hsum : ∑ q ∈ (enterOp p s).inOp, (MAXOPBLOCKS - 1 - ((enterOp p s).hist.used q).card) ≤
      (enterOp p s).inOp.card * 9 := Finset.sum_le_card_nsmul _ _ _ fun q _ => Nat.sub_le _ _
  have hlogged : (enterOp p s).hist.logged = s.hist.logged := rfl
  have hcom : s.committing = false ∧ s.lh.length + (s.outstanding + 1) * 10 ≤ 30 := by
    simpa [State.full, LOGSIZE, MAXOPBLOCKS] using hfull
  rw [hlogged, show LOGSIZE = 30 from rfl]
  by_cases hout : s.outstanding = 0
  · have hcur : s.hist.cur = [] := by
      cases hup : s.up with
      | false => exact (hi.down hup).2.2
      | true =>
        refine hi.settled ?_ hout
        have hwho := hi.who
        rw [hcom.1, hup] at hwho
        exact Option.isNone_iff_eq_none.mp (by simpa using hwho)
    have hzero : s.hist.logged.length = 0 := by simp [Hist.logged, hcur]
    omega
  · have hop : ∃ q, s.hist.op q ≠ none := by
      rw [hi.ops] at hout
      obtain ⟨q, hq⟩ := Finset.card_ne_zero.mp hout
      exact ⟨q, (Finset.mem_filter.mp hq).2⟩
    obtain ⟨q, hq⟩ := hop
    rw [← hi.length_lh hq]
    omega

theorem used_leave {q : Pid} (hq : q ≠ p) : (leave p s).hist.used q = s.hist.used q := by
  simp [Hist.used, leave, Function.update_of_ne hq]

theorem spare_leave (hs : Spare s) : Spare (leave p s) := by
  intro hne
  have hsub : (leave p s).inOp ⊆ s.inOp := by
    rw [Waiters.inOp_leave]
    exact Finset.erase_subset _ _
  refine lt_of_le_of_lt ?_ (hs (hne.mono hsub))
  refine Nat.add_le_add_right (Nat.add_le_add_left ?_ _) 1
  have hsame : ∀ q ∈ (leave p s).inOp, MAXOPBLOCKS - 1 - ((leave p s).hist.used q).card =
      MAXOPBLOCKS - 1 - (s.hist.used q).card := by
    intro q hq
    rw [Waiters.inOp_leave, Finset.mem_erase] at hq
    rw [used_leave hq.1]
  exact (Finset.sum_congr rfl hsame).trans_le (Finset.sum_le_sum_of_subset hsub)

section Append
variable {i : Fin NBUF}

theorem used_append_of_ne (hi : Inv La disk s g) (hp : s.hist.op p ≠ none) {q : Pid} (hq : q ≠ p) :
    (append p s i).hist.used q = s.hist.used q := by
  obtain ⟨o, ho⟩ := Option.ne_none_iff_exists'.mp hp
  have hne : s.hist.op q ≠ some o := fun he => hq (hi.hist.inj he ho)
  simp [Hist.used, append, ho, hne]

theorem used_append_self (hp : s.hist.op p ≠ none) :
    (append p s i).hist.used p = insert (s.buf i).blockno (s.hist.used p) := by
  obtain ⟨o, ho⟩ := Option.ne_none_iff_exists'.mp hp
  ext b
  simp [Hist.used, append, ho]

theorem logged_append : (append p s i).hist.logged.length =
    (insert (s.buf i).blockno s.hist.logged.toFinset).card := by
  have hset : ∀ l : List Nat, l.dedup.length = l.toFinset.card := fun l => (List.card_toFinset l).symm
  rw [Hist.logged, hset]
  congr 1
  ext b
  simp [Hist.logged, append]

theorem used_subset : s.hist.used p ⊆ s.hist.logged.toFinset := by
  intro b hb
  simp only [Hist.used, Hist.logged, List.mem_toFinset, List.mem_map, List.mem_filter,
    List.mem_dedup] at hb ⊢
  obtain ⟨u, ⟨hu, -⟩, hb⟩ := hb
  exact ⟨u, hu, hb⟩

/-- A block that is new to its operation takes one from what the operation may still log. -/
theorem spare_append (hi : Inv La disk s g) (hp : p ∈ s.inOp)
    (hok : Within (MAXOPBLOCKS - 1) p (.append i) s) (hs : Spare s) : Spare (append p s i) := by
  intro _
  have hop := mem_inOp.mp hp
  have hin : (append p s i).inOp = s.inOp := rfl
  have hothers : ∑ q ∈ s.inOp.erase p, (MAXOPBLOCKS - 1 - ((append p s i).hist.used q).card) =
      ∑ q ∈ s.inOp.erase p, (MAXOPBLOCKS - 1 - (s.hist.used q).card) :=
    Finset.sum_congr rfl fun q hq => by
      rw [used_append_of_ne hi hop (Finset.mem_erase.mp hq).1]
  have hbefore := hs ⟨p, hp⟩
  have hlen : s.hist.logged.length = s.hist.logged.toFinset.card :=
    (List.toFinset_card_of_nodup (List.nodup_dedup _)).symm
  rw [← Finset.add_sum_erase _ _ hp, hlen] at hbefore
  rw [hin, ← Finset.add_sum_erase _ _ hp, hothers, logged_append]
  have hcap : ((append p s i).hist.used p).card ≤ MAXOPBLOCKS - 1 := hok
  rw [used_append_self hop] at hcap ⊢
  by_cases hb : (s.buf i).blockno ∈ s.hist.used p
  · rwa [Finset.insert_eq_of_mem hb, Finset.insert_eq_of_mem (used_subset hb)]
  · rw [Finset.card_insert_of_notMem hb] at hcap ⊢
    have hgrow := Finset.card_insert_le (s.buf i).blockno s.hist.logged.toFinset
    omega

end Append

/-- Only a commit writes a header with blocks in it, and then no operation runs. -/
theorem spare_transfer {i : Fin NBUF} (hi : Inv La disk (transfer La s i) g) (hs : Spare s) :
    Spare (transfer La s i) := by
  by_cases hd : (s.buf i).dirty = true
  · by_cases hhead : (s.buf i).blockno = La.start ∧ (s.buf i).data 0 ≠ 0
    · refine spare_of_idle (hi.idle fun hwho => hhead.2 ?_)
      have hempty : header ((transfer La s i).disk La.start) = [] := hi.quiet hwho
      rw [transfer_dirty hd, ← hhead.1] at hempty
      simpa [header_eq_nil] using hempty
    · refine hs.congr ?_
      rw [transfer_dirty hd]
      exact if_neg hhead
  · refine hs.congr ?_
    rw [transfer, if_neg hd]
    rfl

theorem Spare.sem {β : Type} {a : Act β} {r : Option β} (hs : Spare s) (hi : Inv La disk s g)
    (hi' : Inv La disk s' g') (hlogs : a.logs = true → p ∈ s.inOp)
    (hok : Within (MAXOPBLOCKS - 1) p a s) (h : Log.sem La p a s = some (r, s')) : Spare s' := by
  have hanswer : ∀ {b : β} {t : State}, answer b t = some (r, s') → s' = t :=
    fun ht => (Prod.mk.inj (Option.some.inj ht)).2.symm
  cases a with
  | append i =>
    obtain rfl := hanswer h
    exact spare_append hi (hlogs rfl) hok hs
  | transfer i =>
    obtain rfl := hanswer h
    exact spare_transfer hi' hs
  | beginOp =>
    simp only [Log.sem] at h
    split at h
    · cases h
    · split at h
      · obtain rfl := (Prod.mk.inj (Option.some.inj h)).2
        exact hs.congr rfl
      -- `begin_op` lets an operation in only while its blocks fit.
      · next hfull =>
        obtain rfl := hanswer h
        exact spare_enterOp hi (Bool.eq_false_iff.mpr hfull)
  | endOp =>
    simp only [Log.sem] at h
    split at h <;>
    · obtain rfl := hanswer h
      exact spare_leave hs
  | bget b =>
    simp only [Log.sem] at h
    split at h <;>
    · obtain rfl := hanswer h
      exact hs.congr rfl
  | acquiresleep i =>
    simp only [Log.sem] at h
    split at h
    · obtain rfl := hanswer h
      exact hs.congr rfl
    · cases h
  | _ =>
    obtain rfl := hanswer h
    exact hs.congr rfl

/-- The steps in which the log is short where `log_write` reads its length. -/
abbrev KeepsShort (La : Area) : World → Event → Prop := Acts fun p {_} a s => Short La p a s

theorem good_of_short (hsize : La.size = LOGSIZE)
    (h : Reach (step La) (Init La disk) (KeepsShort La) w) :
    Good (logic La disk True) Idle w :=
  good_of_reach (h.mono fun _ _ => Acts.mono fun _ _ a s hs =>
    ⟨roomy_of_logsize hsize.ge a s, fun _ => hs⟩)

theorem waiters_of_reach {ok : World → Event → Prop} (h : Reach (step La) (Init La disk) ok w) :
    Good (Waiters.logic La) Waiters.Idle w := by
  refine waiters_good (h.invariant (fun w hw => .start ⟨disk, hw.2⟩) fun w e w' ih _ hs => ?_)
  exact .next ih trivial hs

theorem spare_step (hsize : La.size = LOGSIZE) {w' : World} {e : Event}
    (h : Reach (step La) (Init La disk) (KeepsShort La) w)
    (h' : Reach (step La) (Init La disk) (KeepsShort La) w') (hspare : Spare w.st)
    (hok : Acts (fun p {_} a s => Within (MAXOPBLOCKS - 1) p a s) w e)
    (hs : step La w e = some w') : Spare w'.st := by
  obtain ⟨g, hi, -⟩ := good_of_short hsize h
  obtain ⟨g', hi', -⟩ := good_of_short hsize h'
  cases e with
  | run p =>
    obtain ⟨gw, hiw, hsafe⟩ := waiters_of_reach h
    change System.runStep _ p w = some w' at hs
    unfold System.runStep at hs
    split at hs
    · next β a k hthr =>
      obtain ⟨⟨r, t⟩, hsem, rfl⟩ := Option.map_eq_some_iff.mp hs
      simp only [Acts, hthr] at hok
      refine hspare.sem hi hi' (fun hl => inOp_of_inLogWrite hiw hsafe ?_) hok hsem
      rw [hthr]
      exact hl
    · cases hs
  | start p j =>
    change System.startStep _ p j w = some w' at hs
    unfold System.startStep at hs
    split at hs
    · split at hs
      · obtain rfl := Option.some.inj hs
        exact hspare
      · cases hs
    · cases hs
  | env e =>
    obtain rfl := Option.some.inj hs
    exact spare_of_idle fun _ => rfl

/-- Operations of at most nine blocks each keep the log short of its limits. -/
theorem short_of_within (hsize : La.size = LOGSIZE) (h : Reach (step La) (Init La disk)
      (Acts fun p {_} a s => Within (MAXOPBLOCKS - 1) p a s) w) :
    Reach (step La) (Init La disk) (KeepsShort La) w := by
  refine (h.relax (I := fun w => Spare w.st) (fun w hw => ?_) (fun w e hw hspare _ => ?_)
    fun w e w' hw hw' hspare hok hs => spare_step hsize hw hw' hspare hok hs).1
  · rw [hw.2]
    exact spare_of_idle fun _ => rfl
  · obtain ⟨gw, hiw, hsafe⟩ := waiters_of_reach hw
    cases e with
    | run p =>
      simp only [KeepsShort, Acts]
      split
      · next β a k hthr =>
        cases a with
        | lhN =>
          have hin : p ∈ w.st.inOp := inOp_of_inLogWrite hiw hsafe (by rw [hthr]; rfl)
          have hroom := hspare ⟨p, hin⟩
          simp only [Short]
          omega
        | _ => trivial
      · trivial
    | start p j => trivial
    | env e => trivial

/-- With the superblock of `mkfs`, in every run in which each operation calls `log_write` on at
most nine different blocks. -/
theorem log_write_not_tooBig (hsize : La.size = LOGSIZE) (h : Reach (step La) (Init La disk)
      (Acts fun p {_} a s => Within (MAXOPBLOCKS - 1) p a s) w) (p : Pid) : ¬ TooBig w p := by
  obtain ⟨g, -, hsafe⟩ := good_of_short hsize (short_of_within hsize h)
  intro hbig
  have hp := hsafe p
  cases hthr : w.thr p with
  | ret u => simp [TooBig, hthr, panicked] at hbig
  | act a k => simp [TooBig, hthr, panicked] at hbig
  | panic msg =>
    obtain rfl : msg = "too big a transaction" := by
      simpa [TooBig, hthr, panicked] using hbig
    rw [hthr] at hp
    rcases hp with hmsg | hnot
    · exact absurd hmsg (by decide)
    · exact hnot.1 trivial

section Runs

/-- Three operations of `k` blocks each in one group. The third takes `n` actions. -/
def threeOps (k n : Nat) : List Event :=
  acts boot 28 ++ [.start 1 (fill (List.range' 100 k) 7), .start 2 (fill (List.range' 200 k) 8),
    .start 3 (fill (List.range' 300 k) 9)] ++ acts 1 1 ++ acts 2 1 ++ acts 3 1 ++ acts 1 (15 * k) ++
    acts 2 (15 * k) ++ acts 3 n

theorem log_write_not_tooBig_nineEach :
    (runTo mkfsLog (threeOps 9 135)).st.lh.length = 27 ∧ ¬ TooBig (runTo mkfsLog (threeOps 9 135)) 3 := by
  have hrun : (exec (guarded (step mkfsLog)
      (Acts fun p {_} a s => Within (MAXOPBLOCKS - 1) p a s))
      (powerOn mkfsLog blank) (threeOps 9 135)).any (fun w => w.st.lh.length == 27) = true := by
    decide +kernel
  have hstart : Init mkfsLog blank (powerOn mkfsLog blank) := ⟨rfl, rfl⟩
  obtain ⟨hreach, hlen⟩ := reach_guarded hstart hrun
  exact ⟨beq_iff_eq.mp hlen, log_write_not_tooBig rfl hreach 3⟩

/-- Three operations of ten blocks each. -/
theorem log_write_tooBig_fullOps :
    ¬ ∀ w, Reach (step mkfsLog) (Init mkfsLog blank)
      (Acts fun p {_} a s => Within MAXOPBLOCKS p a s) w → ∀ p, ¬ TooBig w p := by
  intro h
  have hrun : (exec (guarded (step mkfsLog) (Acts fun p {_} a s => Within MAXOPBLOCKS p a s))
      (powerOn mkfsLog blank) (threeOps 10 145)).any (fun w => decide (TooBig w 3)) = true := by
    decide +kernel
  have hstart : Init mkfsLog blank (powerOn mkfsLog blank) := ⟨rfl, rfl⟩
  obtain ⟨hreach, hbig⟩ := reach_guarded hstart hrun
  exact h _ hreach 3 (of_decide_eq_true hbig)

end Runs

end Chameleon.Log
