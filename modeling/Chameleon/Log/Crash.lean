import Chameleon.Log.Operation

/-! Crash atomicity: whatever a crash interrupts, recovery leaves the home blocks as the committed
groups make them. -/

namespace Chameleon.Log
open Conc Machine
variable {La : Area} {disk : Nat → Block} {w w' : World}

/-- The machine crashes and `initlog` runs, up to further crashes while it does. -/
inductive Recovering (La : Area) (w : World) : World → Prop
  | crash : Recovering La w (w.crash La)
  | run {w₁ w₂ : World} (h : Recovering La w w₁) (hdown : w₁.st.up = false)
      (hs : step La w₁ (.run boot) = some w₂) : Recovering La w w₂
  | again {w₁ : World} (h : Recovering La w w₁) : Recovering La w (w₁.crash La)

/-- What the log promises in a state, about a crash there and about the operations. -/
structure CrashAtomic (La : Area) (disk : Nat → Block) (w : World) : Prop where
  /-- After a complete recovery the home blocks are those of the committed groups. -/
  recovered : ∀ w', Recovering La w w' → w'.st.up = true → ∀ b, La.Home b →
    w'.st.disk b = apply w.st.hist.groups.flatten disk b
  /-- No operation has updates in two groups, or both committed and uncommitted ones. -/
  whole : w.st.hist.groups.Pairwise fun G G' => ∀ u ∈ G, ∀ v ∈ G', u.op ≠ v.op
  apart : ∀ u ∈ w.st.hist.groups.flatten, ∀ v ∈ w.st.hist.cur, u.op ≠ v.op
  /-- Nothing of an outstanding operation is committed. -/
  outstanding : ∀ p, ∀ u ∈ w.st.hist.groups.flatten, w.st.hist.op p ≠ some u.op
  /-- Once the committing `end_op` has returned, all it was to commit is committed. -/
  returned : w.st.up = true → w.st.outstanding = 0 → w.st.committing = false → w.st.hist.cur = []
  /-- A committed group stays committed. -/
  kept : ∀ e w', step La w e = some w' → w.st.hist.groups <+: w'.st.hist.groups

/-- The steps in which every logged block has room in the log area. -/
abbrev Fits (La : Area) : World → Event → Prop := Acts fun p {_} a s => Roomy La p a s

theorem good_of_fits (h : Reach (step La) (Init La disk) (Fits La) w) :
    Good (logic La disk False) Idle w :=
  good_of_reach (h.mono fun _ _ => Acts.mono fun _ _ _ _ hr => ⟨hr, False.elim⟩)

section Steps

/-- An action commits at most the updates logged so far, and only `initlog` brings the system up. -/
theorem sem_groups {p : Pid} {β : Type} {a : Act β} {s s' : State} {r : Option β}
    (h : sem La p a s = some (r, s')) :
    (s'.hist.groups = s.hist.groups ∨ s'.hist.groups = s.hist.groups ++ [s.hist.cur]) ∧
      (s.up = false → s'.up = true → s'.committing = s.committing) := by
  have hsame : ∀ {t : State}, s' = t → t.hist.groups = s.hist.groups → t.up = s.up →
      (s'.hist.groups = s.hist.groups ∨ s'.hist.groups = s.hist.groups ++ [s.hist.cur]) ∧
        (s.up = false → s'.up = true → s'.committing = s.committing) := by
    rintro t rfl hg hu
    exact ⟨.inl hg, fun hd hu' => absurd (hu.symm.trans hu') (by simp [hd])⟩
  have hanswer : ∀ {b : β} {t : State}, answer b t = some (r, s') → s' = t := by
    intro b t ht
    exact (Prod.mk.inj (Option.some.inj ht)).2.symm
  cases a with
  | transfer i =>
    have hs' := hanswer h
    by_cases hd : (s.buf i).dirty = true
    · rw [transfer_dirty hd] at hs'
      subst hs'
      refine ⟨?_, fun hdown hu => absurd (hdown.symm.trans hu) (by simp)⟩
      simp only [Hist.written]
      split
      · exact .inr rfl
      · exact .inl rfl
    · rw [transfer, if_neg hd] at hs'
      exact hsame hs' rfl rfl
  | ready =>
    obtain rfl := hanswer h
    exact ⟨.inl rfl, fun _ _ => rfl⟩
  | bget b =>
    simp only [sem] at h
    split at h <;> exact hsame (hanswer h) rfl rfl
  | acquiresleep i =>
    simp only [sem] at h
    split at h
    · exact hsame (hanswer h) rfl rfl
    · simp at h
  | beginOp =>
    simp only [sem] at h
    split at h
    · simp at h
    · split at h
      · exact hsame (Prod.mk.inj (Option.some.inj h)).2.symm rfl rfl
      · exact hsame (hanswer h) rfl rfl
  | endOp =>
    simp only [sem] at h
    split at h <;> exact hsame (hanswer h) rfl rfl
  | _ => exact hsame (hanswer h) rfl rfl

/-- A thread's step, seen from the shared state. -/
theorem runStep_sem {p : Pid} (h : step La w (.run p) = some w') :
    ∃ (β : Type) (a : Act β) (r : Option β), sem La p a w.st = some (r, w'.st) := by
  change System.runStep _ p w = some w' at h
  unfold System.runStep at h
  split at h
  · rename_i β a k hthr
    obtain ⟨⟨r, s'⟩, hs, rfl⟩ := Option.map_eq_some_iff.mp h
    exact ⟨β, a, r, hs⟩
  · simp at h

theorem groups_step {e : Event} (h : step La w e = some w') :
    w'.st.hist.groups = w.st.hist.groups ∨
      w'.st.hist.groups = w.st.hist.groups ++ [w.st.hist.cur] := by
  cases e with
  | run p =>
    obtain ⟨β, a, r, hs⟩ := runStep_sem h
    exact (sem_groups hs).1
  | start p j =>
    change System.startStep _ p j w = some w' at h
    unfold System.startStep at h
    split at h
    · split at h
      · obtain rfl := Option.some.inj h
        exact .inl rfl
      · simp at h
    · simp at h
  | env e =>
    obtain rfl := Option.some.inj h
    exact .inl rfl

end Steps

theorem Recovering.reach (hr : Recovering La w w')
    (h : Reach (step La) (Init La disk) (Fits La) w) :
    Reach (step La) (Init La disk) (Fits La) w' := by
  induction hr with
  | crash => exact .next (e := .env ()) h trivial rfl
  | run _ hdown hs ih =>
    refine .next ih ?_ hs
    simp only [Fits, Acts]
    split
    · rename_i β a k _
      cases a <;> first | exact trivial | exact fun hu => absurd (hdown.symm.trans hu) (by simp)
    · trivial
  | again _ ih => exact .next (e := .env ()) ih trivial rfl

/-- Recovery commits nothing. -/
theorem Recovering.groups (hr : Recovering La w w')
    (h : Reach (step La) (Init La disk) (Fits La) w) :
    w'.st.hist.groups.flatten = w.st.hist.groups.flatten := by
  induction hr with
  | crash => rfl
  | @run w₁ w₂ hw₁ hdown hs ih =>
    obtain ⟨g, hi, -⟩ := good_of_fits (hw₁.reach h)
    rcases groups_step hs with hg | hg
    · rw [hg, ih]
    · rw [hg, (hi.down hdown).2.2, List.flatten_append, ih]
      simp
  | again _ ih => exact ih

theorem Recovering.home_eq (hr : Recovering La w w') (hup : w'.st.up = true)
    (h : Reach (step La) (Init La disk) (Fits La) w) {b : Nat} (hb : La.Home b) :
    w'.st.disk b = apply w.st.hist.groups.flatten disk b := by
  have hgroups := hr.groups h
  obtain ⟨g, hi, -⟩ := good_of_fits (hr.reach h)
  have hnot : w'.st.committing = false := by
    cases hr with
    | crash => rfl
    | @run w₁ _ hw₁ hdown hs =>
      obtain ⟨β, a, r, hsem⟩ := runStep_sem hs
      obtain ⟨g₁, hi₁, -⟩ := good_of_fits (hw₁.reach h)
      rw [(sem_groups hsem).2 hdown hup]
      exact (hi₁.down hdown).1
    | again _ => rfl
  have ho := hi.durable.open (hi.quiet (hi.who_of_up hup hnot))
  rw [← hgroups]
  exact ho.disk b hb

/-- In every run in which the logged blocks fit into the log area, at every point of it. -/
theorem log_crash_atomic (h : Reach (step La) (Init La disk) (Fits La) w) :
    CrashAtomic La disk w := by
  obtain ⟨g, hi, -⟩ := good_of_fits h
  refine ⟨fun w' hr hup b hb => hr.home_eq hup h hb, hi.hist.pair, hi.hist.sep,
    fun p u hu => hi.hist.gone u hu p, fun hup hout hnot => ?_, fun e w' hs => ?_⟩
  · exact hi.settled (hi.who_of_up hup hnot) hout
  · rcases groups_step hs with hg | hg
    · exact hg ▸ List.prefix_refl _
    · exact hg ▸ List.prefix_append _ _

theorem roomy_of_logsize (h : LOGSIZE ≤ La.size) {p : Pid} {β : Type} (a : Act β) (s : State) :
    Roomy La p a s := by
  cases a <;> first | exact trivial | exact fun _ => .inl h

/-- With a log area of `LOGSIZE` blocks, which is what `mkfs` makes, every step is one of these. -/
theorem fits_of_logsize (h : LOGSIZE ≤ La.size) (w : World) (e : Event) : Fits La w e :=
  Acts.of_forall (fun _ _ a s => roomy_of_logsize h a s) w e

theorem Recovering.exec {w₁ w₂ : World} (n : Nat) (h : Recovering La w w₁)
    (hdown : Meets (step La) (fun w _ => w.st.up = false) w₁ (List.replicate n (.run boot)))
    (he : Machine.exec (step La) w₁ (List.replicate n (.run boot)) = some w₂) :
    Recovering La w w₂ := by
  induction n generalizing w₁ with
  | zero =>
    obtain rfl := Option.some.inj he
    exact h
  | succ n ih =>
    obtain ⟨w₃, hs, hrest⟩ := Option.bind_eq_some_iff.mp he
    have htail := hdown.2
    simp only [hs, Option.elim_some] at htail
    exact ih (.run h hdown.1 hs) htail hrest

section Runs

def blank : Nat → Block := fun _ _ => 0

/-- `n` actions of a process. -/
def acts (p : Pid) (n : Nat) : List Event := List.replicate n (.run p)

/-- An operation that fills blocks with a value, one after the other. -/
def fill (bs : List Nat) (v : Nat) : Job :=
  .op (bs.flatMap fun b => [.bread b, .modify b fun _ _ => v, .logWrite b, .brelse b])

/-- The log area that `mkfs` lays out. -/
def mkfsLog : Area := ⟨2, LOGSIZE, by decide⟩

/-- Where a run ends that switches the machine on with a blank disk. -/
def runTo (La : Area) (es : List Event) : World :=
  (Machine.exec (step La) (powerOn La blank) es).getD (powerOn La blank)

theorem exec_runTo {es : List Event}
    (h : (Machine.exec (step La) (powerOn La blank) es).isSome = true) :
    Machine.exec (step La) (powerOn La blank) es = some (runTo La es) := by
  obtain ⟨w, hw⟩ := Option.isSome_iff_exists.mp h
  rw [runTo, hw, Option.getD_some]

/-- A run whose steps are checked as they are taken. -/
theorem reach_guarded {init : World → Prop} {ok : World → Event → Prop}
    [∀ w e, Decidable (ok w e)] {P : World → Bool} {es : List Event}
    (hinit : init (powerOn La blank))
    (h : (Machine.exec (guarded (step La) ok) (powerOn La blank) es).any P = true) :
    Reach (step La) init ok (runTo La es) ∧ P (runTo La es) = true := by
  obtain ⟨w, hw, hP⟩ := (Option.any_eq_true _ _).mp h
  obtain ⟨hmeets, hexec⟩ := exec_guarded hw
  rw [runTo, hexec, Option.getD_some]
  exact ⟨(Reach.start hinit).exec es hmeets hexec, hP⟩

theorem reach_runTo (La : Area) (es : List Event) :
    Reach (step La) (Init La blank) Any (runTo La es) := by
  have hstart : Reach (step La) (Init La blank) Any (powerOn La blank) := .start ⟨rfl, rfl⟩
  unfold runTo
  cases hrun : Machine.exec (step La) (powerOn La blank) es with
  | none => exact hstart
  | some w => exact hstart.exec es (.any _ es) hrun

/-- The crash, and then `n` actions of the boot process. -/
def recoverTo (La : Area) (w : World) (n : Nat) : World :=
  (Machine.exec (step La) (w.crash La) (List.replicate n (.run boot))).getD (w.crash La)

/-- `recoverTo` stays down up to its last action. -/
def downUntil (La : Area) (w : World) (n : Nat) : Prop :=
  Meets (step La) (fun w _ => w.st.up = false) (w.crash La) (List.replicate n (.run boot))

instance (w : World) (n : Nat) : Decidable (downUntil La w n) :=
  inferInstanceAs (Decidable (Meets _ _ _ _))

theorem recovering_recoverTo {n : Nat} (h : downUntil La w n) :
    Recovering La w (recoverTo La w n) := by
  unfold recoverTo
  cases hrun : Machine.exec (step La) (w.crash La) (List.replicate n (.run boot)) with
  | none => exact .crash
  | some w' => exact Recovering.crash.exec n h hrun

/-- One block is filled. The header that commits it is on disk, its home is not written. -/
def beforeInstall : World := runTo mkfsLog (acts boot 28 ++ [.start 1 (fill [100] 7)] ++ acts 1 52)

theorem log_crash_atomic_beforeInstall :
    CrashAtomic mkfsLog blank beforeInstall ∧ beforeInstall.st.disk 100 0 = 0 ∧
      ∃ w', Recovering mkfsLog beforeInstall w' ∧ w'.st.up = true ∧ w'.st.disk 100 0 = 7 := by
  have hrun : beforeInstall.st.disk 100 0 = 0 ∧ downUntil mkfsLog beforeInstall 53 ∧
      (recoverTo mkfsLog beforeInstall 53).st.up = true ∧
      (recoverTo mkfsLog beforeInstall 53).st.disk 100 0 = 7 := by decide +kernel
  obtain ⟨hdisk, hdown, hrec⟩ := hrun
  refine ⟨log_crash_atomic ((reach_runTo _ _).mono fun w e _ => ?_), hdisk,
    recoverTo mkfsLog beforeInstall 53, recovering_recoverTo hdown, hrec⟩
  exact fits_of_logsize (by decide) w e

/-- A log area with room for the ten blocks of one operation. -/
def shortLog : Area := ⟨2, 11, by decide⟩

/-- Two operations pass the test of `log_write` while nine blocks are logged, and both then log
one more. The commit has written the eleventh block past the end of the log area. -/
def overrun : World :=
  runTo shortLog (acts boot 28 ++
    [.start 1 (fill (List.range' 100 10) 7), .start 2 (fill [200] 9)] ++
    acts 1 147 ++ acts 2 12 ++ acts 1 5 ++ acts 2 243)

theorem log_crash_atomic_fails_overrun :
    ¬ ∀ w, Reach (step shortLog) (Init shortLog blank) Any w → CrashAtomic shortLog blank w := by
  intro h
  have hrun : downUntil shortLog overrun 28 ∧ (recoverTo shortLog overrun 28).st.up = true ∧
      overrun.st.hist.groups.length = 0 ∧ (recoverTo shortLog overrun 28).st.disk 13 0 = 9 := by
    decide +kernel
  obtain ⟨hdown, hup, hgroups, hblock⟩ := hrun
  have hhome := (h overrun (reach_runTo _ _)).recovered _ (recovering_recoverTo hdown) hup 13
    (by decide)
  rw [List.length_eq_zero_iff.mp hgroups] at hhome
  rw [hhome] at hblock
  exact absurd hblock (by decide)

end Runs

end Chameleon.Log
