import Mathlib.Data.Fintype.Basic
import Chameleon.Ipc.Fifo

/-! Whom the pipe's sleepers wait for. `pipewrite` wakes the readers at its end and before it
sleeps; when it finds the pipe full and gives up, it returns without a wakeup, also when it has
stored bytes in the same stretch. -/

namespace Chameleon.Ipc
open Machine

section Sleepers
variable {ι : Type} [DecidableEq ι] {s s' : State ι}

/-- No reader sleeps while there is data or no writer, no writer sleeps while there is room or no
reader. -/
def NoLostWakeup (s : State ι) : Prop :=
  (s.pipe.nread ≠ s.pipe.nwrite ∨ s.pipe.writeopen = false →
    ∀ q, (s.proc q).chan ≠ some .nread) ∧
  (s.pipe.nwrite ≠ s.pipe.nread + PIPESIZE ∨ s.pipe.readopen = false →
    ∀ q, (s.proc q).chan ≠ some .nwrite)

/-- A process that is to give up on a full pipe has at most a pipe's size of bytes to store, or
nobody sleeps on `&p->nread`. -/
def StoresWhole (s : State ι) (q : ι) (bs : List UInt8) : Prop :=
  (∃ q', (s.proc q').chan = some .nread) →
    s.pipe.readopen = false ∨ (s.proc q).killed = true → bs.length ≤ PIPESIZE.toNat

/-- The stretches of `pipewrite` that a run may have. -/
def WakesReaders (s : State ι) : Event ι → Prop
  | .pipewrite q addr => StoresWhole s q addr
  | .run q =>
    match (s.proc q).pc with
    | .pipewrite rest => StoresWhole s q rest
    | _ => True
  | _ => True

omit [DecidableEq ι] in
theorem wakeup_chan (proc : ι → Proc) (chan : Chan) (q : ι) :
    (wakeup proc chan q).chan = if (proc q).chan = some chan then none else (proc q).chan := by
  unfold wakeup
  split_ifs <;> rfl

omit [DecidableEq ι] in
/-- After `wakeup(chan)` nobody sleeps there. -/
theorem wakeup_chan_ne (proc : ι → Proc) (chan : Chan) (q : ι) :
    (wakeup proc chan q).chan ≠ some chan := by
  rw [wakeup_chan]
  split_ifs with h
  · simp
  · exact h

omit [DecidableEq ι] in
theorem wakeup_chan_of_ne (proc : ι → Proc) {chan c : Chan} (q : ι)
    (h : (proc q).chan ≠ some c) : (wakeup proc chan q).chan ≠ some c := by
  rw [wakeup_chan]
  split_ifs
  · simp
  · exact h

/-- A process that does not sleep on `c` afterwards keeps a channel without sleepers. -/
theorem update_chan_ne {proc : ι → Proc} {q : ι} {x : Proc} {c : Chan}
    (h : ∀ q', (proc q').chan ≠ some c) (hx : x.chan ≠ some c) (q' : ι) :
    (Function.update proc q x q').chan ≠ some c := by
  by_cases hq : q' = q
  · subst hq; rwa [Function.update_self]
  · rw [Function.update_of_ne hq]; exact h q'

/-- The same for a channel of which nothing is known but for the others. -/
theorem update_chan_none {proc : ι → Proc} {q : ι} {x : Proc} {c : Chan} (hx : x.chan = none)
    (h : ∀ q', (proc q').chan ≠ some c) (q' : ι) :
    (Function.update proc q x q').chan ≠ some c :=
  update_chan_ne h (by rw [hx]; simp) q'

theorem NoLostWakeup.readStretch {xs : List UInt8} {r : Nat} (h : NoLostWakeup s)
    (hrep : Rep s.pipe r xs) (q : ι) (n : Nat) : NoLostWakeup (readStretch s q n) := by
  rcases hpass : pipereadPass (s.proc q).killed s.pipe n with ⟨p, stop⟩
  simp only [Ipc.readStretch, hpass]
  rcases pipereadPass_spec hrep hpass with ⟨bs, rfl, hloop, -, -⟩ | ⟨rfl, hloop, rfl⟩
  · have hreaders : ∀ q', (s.proc q').chan ≠ some .nread := by
      apply h.1
      simpa [Pipe.empty, ← imp_iff_not_or] using hloop
    refine ⟨fun _ => update_chan_none rfl fun q' => wakeup_chan_of_ne _ _ (hreaders q'),
      fun _ => update_chan_none rfl (wakeup_chan_ne s.proc .nwrite)⟩
  · obtain ⟨hempty, hopen⟩ := Bool.and_eq_true_iff.mp hloop
    cases hk : (s.proc q).killed
    · refine ⟨fun hdata => ?_, fun hroom => update_chan_ne (h.2 hroom) (by simp)⟩
      rcases hdata with hdata | hdata
      · exact absurd (beq_iff_eq.mp hempty) hdata
      · exact absurd (hopen.symm.trans hdata) (by simp)
    · exact ⟨fun hdata => update_chan_none rfl (h.1 hdata),
        fun hroom => update_chan_none rfl (h.2 hroom)⟩

/-- The bytes that fit into the pipe are stored in one stretch. -/
theorem pipewriteLoop_done (killed : Bool) {p : Pipe} {r : Nat} {xs : List UInt8} (h : Rep p r xs)
    {bs rest : List UInt8} {p' : Pipe} {stop : WriteEnd} (hfits : xs.length + bs.length ≤ 512)
    (he : pipewriteLoop killed p bs = (p', rest, stop)) : stop = .done := by
  obtain ⟨put, hbs, hrep, -, -, hstop⟩ := pipewriteLoop_spec killed h he
  rcases hstop with ⟨hdone, -⟩ | ⟨hfull, hne, -⟩
  · exact hdone
  · have hlen := hrep.full_iff.mp hfull
    have hpos := List.length_pos_of_ne_nil hne
    rw [hbs, List.length_append] at hfits
    rw [List.length_append] at hlen
    omega

theorem NoLostWakeup.writeStretch {xs : List UInt8} {r : Nat} (h : NoLostWakeup s)
    (hrep : Rep s.pipe r xs) {q : ι} {bs : List UInt8} (hok : StoresWhole s q bs) :
    NoLostWakeup (writeStretch s q bs) := by
  rcases hloop : pipewriteLoop (s.proc q).killed s.pipe bs with ⟨p, rest, stop⟩
  obtain ⟨put, hbs, hrep', hro, hwo, hstop⟩ := pipewriteLoop_spec _ hrep hloop
  simp only [Ipc.writeStretch, hloop]
  -- a pipe that had room keeps its writers awake: they cannot have been asleep
  have hwriters : (p.nwrite ≠ p.nread + PIPESIZE ∨ p.readopen = false) →
      ∀ q', (s.proc q').chan ≠ some .nwrite := by
    intro hroom
    apply h.2
    rcases hroom with hroom | hclosed
    · refine .inl fun hfull => hroom ?_
      have hlen := hrep.full_iff.mp (beq_iff_eq.mpr hfull)
      have hlen' := hrep'.holds.fits
      rw [List.length_append, hlen] at hlen'
      exact beq_iff_eq.mp (hrep'.full_iff.mpr (by rw [List.length_append, hlen]; omega))
    · exact .inr (hro ▸ hclosed)
  cases stop with
  | done =>
    exact ⟨fun _ => update_chan_none rfl (wakeup_chan_ne s.proc .nread),
      fun hroom => update_chan_none rfl fun q' => wakeup_chan_of_ne _ _ (hwriters hroom q')⟩
  | asleep =>
    obtain ⟨hfull, -, hasleep⟩ := hstop.resolve_left (by simp)
    have hopen : s.pipe.readopen = true := by
      by_contra hclosed
      simp [Bool.not_eq_true _ |>.mp hclosed] at hasleep
    refine ⟨fun _ => update_chan_ne (wakeup_chan_ne s.proc .nread) (by simp), fun hroom => ?_⟩
    rcases hroom with hroom | hclosed
    · exact absurd (beq_iff_eq.mp hfull) hroom
    · rw [hro, hopen] at hclosed; cases hclosed
  | failed =>
    obtain ⟨hfull, hne, hfailed⟩ := hstop.resolve_left (by simp)
    have hgive : s.pipe.readopen = false ∨ (s.proc q).killed = true := by
      by_contra hno
      obtain ⟨hopen, hk⟩ := not_or.mp hno
      simp [Bool.not_eq_false _ |>.mp hopen, Bool.not_eq_true _ |>.mp hk] at hfailed
    refine ⟨fun _ => update_chan_none rfl fun q' hq' => ?_,
      fun hroom => update_chan_none rfl (hwriters hroom)⟩
    -- a sleeping reader means an empty pipe, from which so few bytes are stored whole
    have hempty : s.pipe.nread = s.pipe.nwrite := by
      by_contra hdata
      exact h.1 (.inl hdata) q' hq'
    have hnil := hrep.empty_iff.mp (beq_iff_eq.mpr hempty)
    have hfits := hok ⟨q', hq'⟩ hgive
    have hfits' : xs.length + bs.length ≤ 512 := by
      rw [hnil, List.length_nil, Nat.zero_add]
      exact hfits
    have hdone := pipewriteLoop_done _ hrep hfits' hloop
    cases hdone

theorem NoLostWakeup.step {e : Event ι} (h : NoLostWakeup s) (hf : Fifo s) (hok : WakesReaders s e)
    (hs : step s e = some s') : NoLostWakeup s' := by
  obtain ⟨xs, hrep, -⟩ := hf.rep
  cases Move.of_step hs with
  | call q addr _ => exact NoLostWakeup.writeStretch (s := { s with hist := _ }) h hrep hok
  | write q rest _ hpc =>
    simp only [WakesReaders, hpc] at hok
    exact h.writeStretch hrep hok
  | piperead q n _ => exact h.readStretch hrep q n
  | read q n _ _ => exact h.readStretch hrep q n
  | kill q =>
    exact ⟨fun hdata => update_chan_none rfl (h.1 hdata), fun hroom => update_chan_none rfl (h.2 hroom)⟩
  | close writable =>
    cases writable
    · exact ⟨fun hdata q => wakeup_chan_of_ne _ _ (h.1 hdata q), fun _ => wakeup_chan_ne s.proc .nwrite⟩
    · exact ⟨fun _ => wakeup_chan_ne s.proc .nread, fun hroom q => wakeup_chan_of_ne _ _ (h.2 hroom q)⟩

/-- In a run in which no process gives up on a full pipe after storing bytes under the eyes of a
sleeping reader, no wakeup is lost. -/
theorem pipe_wakeups_kept (h : Reach step Init WakesReaders s) : NoLostWakeup s := by
  refine (h.invariant (I := fun s => Fifo s ∧ NoLostWakeup s) ?_ ?_).2
  · intro s hs
    have hstart : Reach step Init Any s := .start hs
    exact ⟨fifo_of_reach hstart, fun _ q => by rw [(hs.2.2.2.2.1 q).2]; simp,
      fun _ q => by rw [(hs.2.2.2.2.1 q).2]; simp⟩
  · exact fun _ _ _ hi hok hs => ⟨hi.1.step hs, hi.2.step hi.1 hok hs⟩

instance [Fintype ι] (s : State ι) (q : ι) (bs : List UInt8) : Decidable (StoresWhole s q bs) :=
  inferInstanceAs (Decidable (_ → _ → _))

instance [Fintype ι] (s : State ι) : DecidablePred (WakesReaders s)
  | .pipewrite q addr => inferInstanceAs (Decidable (StoresWhole s q addr))
  | .run q =>
    match h : (s.proc q).pc with
    | .pipewrite rest => decidable_of_iff (StoresWhole s q rest) (by simp only [WakesReaders, h])
    | .user => .isTrue (by simp only [WakesReaders, h])
    | .piperead _ => .isTrue (by simp only [WakesReaders, h])
  | .piperead .. | .kill .. | .pipeclose .. => inferInstanceAs (Decidable True)

end Sleepers

/-- A reader sleeps; a writer is killed and then stores few bytes. -/
def killedWriter : List (Event (Fin 3)) := [.piperead 2 3, .kill 0, .pipewrite 0 [7, 8]]

theorem pipe_wakeups_kept_killedWriter :
    ∃ s, exec step fresh killedWriter = some s ∧ (s.proc 0).killed = true ∧ NoLostWakeup s := by
  have hrun : (exec step fresh killedWriter).any (fun s => (s.proc 0).killed) = true := by
    decide +kernel
  obtain ⟨s, hs, hk⟩ := (Option.any_eq_true _ _).mp hrun
  refine ⟨s, hs, hk, pipe_wakeups_kept ?_⟩
  exact (Reach.start init_fresh).exec killedWriter (by decide +kernel) hs

/-- The killed writer has one byte more than the pipe holds: it fills the pipe and returns, and
the reader sleeps on. -/
theorem pipe_wakeup_lost : ¬ ∀ s : State (Fin 3), Reach step Init Any s → NoLostWakeup s := by
  intro h
  have hrun : (exec step fresh [.piperead 2 3, .kill 0, .pipewrite 0 (List.replicate 513 7)]).any
      (fun s => decide (s.pipe.nread ≠ s.pipe.nwrite ∧ (s.proc 2).chan = some .nread)) = true := by
    decide +kernel
  obtain ⟨s, hs, hlost⟩ := (Option.any_eq_true _ _).mp hrun
  obtain ⟨hdata, hasleep⟩ := of_decide_eq_true hlost
  have hreach : Reach step Init Any s := (Reach.start init_fresh).exec _ (.any _ _) hs
  exact (h s hreach).1 (.inl hdata) 2 hasleep

end Chameleon.Ipc
