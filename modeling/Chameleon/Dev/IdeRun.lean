import Chameleon.Dev.IdeSteps

/-! Runs of the disk driver: the queue is faithful, and errors of the device lead to wrong buffers. -/

namespace Chameleon.Ide
open Machine

section Run

variable {P B D : Type} [DecidableEq P] [DecidableEq B] {s s' : State P B D} {q : List B}
  {havedisk1 : Bool}

theorem Inv.proc {p : P} (h : Inv s q) (hs : s.proc p = some s') : ∃ q', Inv s' q' := by
  unfold State.proc at hs
  split at hs
  · cases hs
  · rename_i b hp
    obtain ⟨hlock, hs⟩ := Option.ite_none_right_eq_some.mp hs
    obtain rfl := Option.some.inj hs
    exact ⟨q, h.acquire hp hlock⟩
  · rename_i b hp
    obtain rfl := Option.some.inj hs
    exact ⟨q, h.clear hp⟩
  · rename_i b pp hp
    split at hs
    · rename_i c hc
      obtain rfl := Option.some.inj hs
      exact ⟨q, h.walk hp hc⟩
    · rename_i hend
      obtain rfl := Option.some.inj hs
      obtain ⟨i, n, hlink, hlinked⟩ := h.link hp hend
      rw [hlink]
      exact ⟨q ++ [b], h.arrive hp hlinked⟩
  · rename_i b hp
    split_ifs at hs with hb
    · exact ⟨q, h.start_head hp hb hs⟩
    · obtain rfl := Option.some.inj hs
      exact ⟨q, h.start_later hp hb⟩
  · rename_i b hp
    split_ifs at hs with hb
    · obtain rfl := Option.some.inj hs
      exact ⟨q, h.test_synced hp hb⟩
    · obtain rfl := Option.some.inj hs
      exact ⟨q, h.test_sleep hp⟩
  · cases hs
  · rename_i b hp
    obtain ⟨hlock, hs⟩ := Option.ite_none_right_eq_some.mp hs
    obtain rfl := Option.some.inj hs
    exact ⟨q, h.relock hp hlock⟩
  · rename_i b hp
    obtain rfl := Option.some.inj hs
    exact ⟨q, h.release hp⟩

omit [DecidableEq P] in
theorem Inv.handler (h : Inv s q) (hs : s.handler = some s') : ∃ q', Inv s' q' := by
  unfold State.handler at hs
  split at hs
  · cases hs
  · rename_i hh
    obtain ⟨hlock, hs⟩ := Option.ite_none_right_eq_some.mp hs
    obtain rfl := Option.some.inj hs
    exact ⟨q, h.handler_acquire hh hlock⟩
  · rename_i hh
    obtain ⟨b, l, hb, hinv⟩ := h.handler_pop hh
    rw [hb] at hs
    obtain rfl := Option.some.inj hs
    exact ⟨l, hinv⟩
  · rename_i b hh
    split_ifs at hs with hskip
    · obtain rfl := Option.some.inj hs
      rw [Bool.or_eq_true] at hskip
      exact ⟨q, h.handler_skip hh hskip⟩
    · obtain rfl := Option.some.inj hs
      rw [Bool.not_eq_true, Bool.or_eq_false_iff] at hskip
      exact ⟨q, h.handler_load hh hskip.1 hskip.2⟩
  · rename_i b moved hh
    obtain rfl := Option.some.inj hs
    exact ⟨q, h.handler_mark hh⟩
  · rename_i b hh
    obtain rfl := Option.some.inj hs
    exact ⟨q, h.handler_wake hh⟩
  · rename_i hh
    split at hs
    · rename_i hb
      obtain rfl := Option.some.inj hs
      exact ⟨q, h.handler_next_empty hh hb⟩
    · rename_i c hc
      exact ⟨q, h.handler_next hh hc hs⟩
  · rename_i hh
    obtain rfl := Option.some.inj hs
    exact ⟨q, h.handler_release hh⟩

omit [DecidableEq P] in
theorem Inv.complete {err : Bool} (h : Inv s q) (hs : s.complete err = some s') : Inv s' q := by
  unfold State.complete at hs
  split at hs
  · cases hs
  · rename_i c hc
    split_ifs at hs with herr hwrite
    · obtain rfl := Option.some.inj hs
      subst herr
      exact h.complete_err (by rw [hc]; rfl)
    · obtain rfl := Option.some.inj hs
      rw [Bool.not_eq_true] at herr
      subst herr
      exact h.complete_write hc hwrite
    · obtain rfl := Option.some.inj hs
      rw [Bool.not_eq_true] at herr hwrite
      subst herr
      exact h.complete_read hc hwrite

theorem Inv.step {e : Event P B D} (h : Inv s q) (hs : step havedisk1 s e = some s') :
    ∃ q', Inv s' q' := by
  cases e with
  | lockbuf p b =>
    obtain ⟨hb, hs⟩ := Option.ite_none_right_eq_some.mp hs
    obtain rfl := Option.some.inj hs
    exact ⟨q, h.lockbuf hb⟩
  | unlockbuf p b =>
    obtain ⟨hb, hs⟩ := Option.ite_none_right_eq_some.mp hs
    obtain rfl := Option.some.inj hs
    exact ⟨q, h.unlockbuf hb.2⟩
  | touch b x =>
    obtain ⟨hb, hs⟩ := Option.ite_none_right_eq_some.mp hs
    obtain rfl := Option.some.inj hs
    exact ⟨q, h.touch hb x⟩
  | call p b =>
    obtain ⟨⟨hp, hb, hsynced, -⟩, hs⟩ := Option.ite_none_right_eq_some.mp hs
    obtain rfl := Option.some.inj hs
    exact ⟨q, h.call hp hb (Bool.not_eq_true _ ▸ hsynced)⟩
  | proc p => exact h.proc hs
  | kill p =>
    change s.kill p = some s' at hs
    unfold State.kill at hs
    split at hs
    · rename_i b hp
      obtain rfl := Option.some.inj hs
      exact ⟨q, h.kill hp⟩
    · cases hs
  | irq =>
    change s.irq = some s' at hs
    unfold State.irq at hs
    split at hs
    · rename_i hh
      obtain ⟨hintr, hs⟩ := Option.ite_none_right_eq_some.mp hs
      obtain rfl := Option.some.inj hs
      exact ⟨q, h.irq hintr hh⟩
    · cases hs
  | handler => exact h.handler hs
  | complete err => exact ⟨q, h.complete hs⟩

omit [DecidableEq P] in
theorem Init.inv (h : Init s) : Inv s [] := by
  have hpc : ∀ p, s.pc p = .out := fun p => congrFun h.pc p
  have hpending : s.pending [] = [] := s.pending_eq h.hpc []
  have hdone : s.hist.done = [] := by rw [h.hist]
  have hcompleted : s.completed = [] := by rw [State.completed, hdone]; rfl
  refine ⟨⟨?_, ?_, ?_, h.idequeue, ?_, ?_, ?_, ?_, ?_, ?_, ?_, ?_, ?_, fun _ => h.err, ?_, ?_⟩, ?_⟩
  · intro p
    simp [hpc p, h.lock, Pc.locked]
  · simp [h.hpc, h.lock, Hpc.locked]
  · intro p b
    simp [hpc p, Pc.buf]
  · simp [hpending]
  · simp [hpending]
  · simp [hpending]
  · intro p b
    simp [hpc p, Pc.asking]
  · intro p b pp
    simp [hpc p]
  · intro p b
    simp [hpc p, Pc.queued]
  · intro p b
    simp [hpc p]
  · rw [hcompleted, hpending, h.hist]
    rfl
  · simp [hdone]
  · intro _ r hr
    rw [h.hist, Option.some.injEq] at hr
    rw [hpending, ← hr, Sync.run_nil]
  · intro _ _
    rw [h.hist]
    rfl
  · refine .quiet ⟨h.cmd, h.intr⟩ (.inl h.hpc) rfl ?_
    rw [hcompleted, h.hist]

theorem reach_inv (h : Reach (step havedisk1) Init Any s) : ∃ q, Inv s q :=
  h.invariant (I := fun s => ∃ q, Inv s q) (fun _ hs => ⟨[], hs.inv⟩)
    fun _ _ _ ⟨_, hinv⟩ _ hs => hinv.step hs

omit [DecidableEq P] [DecidableEq B] in
theorem Stage.started (h : Stage s q) : s.hist.started = s.completed ∨
    ∃ b l, s.hist.started = s.completed ++ [b] ∧ s.pending q = b :: l := by
  cases h with
  | quiet _ _ _ hs => exact .inl hs
  | fresh _ _ _ _ _ _ hs => exact .inl hs
  | running b l _ _ hh hq _ hs =>
    refine .inr ⟨b, l, hs, ?_⟩
    rcases hh with hh | hh <;> rw [s.pending_eq hh, hq] <;> rfl
  | raised b l _ _ hh hq _ hs =>
    refine .inr ⟨b, l, hs, ?_⟩
    rcases hh with hh | hh <;> rw [s.pending_eq hh, hq] <;> rfl
  | handling b l _ hh hq _ hs =>
    refine .inr ⟨b, l, hs, ?_⟩
    rcases hh with hh | hh <;> rw [s.pending_eq hh, hq] <;> rfl
  | reading b _ hh hs => exact .inr ⟨b, q, hs, s.pending_eq hh q⟩
  | marking b _ _ hh hs => exact .inr ⟨b, q, hs, s.pending_eq hh q⟩
  | waking _ _ hs => exact .inl hs

omit [DecidableEq P] in
/-- Outside of the critical sections, the head of the queue is the command that has been started and
not completed. -/
theorem Inv.head_started (h : Inv s q) (hlock : s.lock = none) :
    s.hist.started = s.completed ++ s.idequeue.toList := by
  have hhead := h.linked.head_eq
  have hhpc : s.hpc.locked = false := by
    rw [← Bool.not_eq_true, h.lockIntr, hlock]
    simp
  cases h.stage with
  | quiet _ _ hq hs =>
    rw [hhead, hq, hs]
    exact (List.append_nil _).symm
  | fresh p b hp =>
    have hlocked := (h.lockProc p).mp (by rw [hp]; rfl)
    simp [hlock] at hlocked
  | running b l _ _ _ hq _ hs =>
    rw [hhead, hq, hs]
    rfl
  | raised b l _ _ _ hq _ hs =>
    rw [hhead, hq, hs]
    rfl
  | handling b l _ _ hq _ hs =>
    rw [hhead, hq, hs]
    rfl
  | reading b _ hh => simp [hh, Hpc.locked] at hhpc
  | marking b _ _ hh => simp [hh, Hpc.locked] at hhpc
  | waking _ hh => rcases hh with ⟨_, hh⟩ | hh <;> simp [hh, Hpc.locked] at hhpc

end Run

section Sample

/-- A drive full of ones, a buffer to be read from its block 5 and one to be written to its block 6. -/
def twoBuffers : Bool → Buf Nat
  | false => ⟨false, false, 1, 5, 0⟩
  | true => ⟨true, true, 1, 6, 2⟩

def quiet : State Bool Bool Nat where
  buf := twoBuffers
  qnext := fun _ => none
  idequeue := none
  lock := none
  holder := fun _ => none
  pc := fun _ => .out
  hpc := .idle
  dev := ⟨fun _ _ => 1, none, 0, false, false⟩
  hist := ⟨[], [], [], false, false, some ⟨fun _ => 1, twoBuffers⟩⟩

theorem quiet_init : Init quiet := ⟨rfl, rfl, rfl, rfl, rfl, rfl, rfl, rfl⟩

/-- Both processes queue a request before the device completes the first, up to the return from `iderw`. -/
def twoRequests (err : Bool) : List (Event Bool Bool Nat) :=
  [.lockbuf false false, .call false false] ++ List.replicate 5 (.proc false) ++ [.lockbuf true true, .call true true] ++
    List.replicate 6 (.proc true) ++ [.complete err, .irq] ++ List.replicate 7 .handler ++ List.replicate 2 (.proc false)

theorem reach_twoRequests {err : Bool} {s : State Bool Bool Nat}
    (h : exec (step true) quiet (twoRequests err) = some s) : Reach (step true) Init Any s :=
  (Reach.start quiet_init).exec (twoRequests err) (Meets.any _ _) h

theorem twoRequests_true : ∃ s, exec (step true) quiet (twoRequests true) = some s ∧
    s.pc false = .release false ∧ s.buf false = ⟨true, false, 1, 5, 0⟩ ∧ s.dev.disk 1 5 = 1 := by
  refine ⟨_, rfl, ?_⟩
  decide

theorem twoRequests_false : ∃ s, exec (step true) quiet (twoRequests false) = some s ∧
    s.hist.reported = false ∧ s.hist.done.all (fun o => !o.err) = true ∧ s.pc false = .release false ∧
    s.hist.started = [false, true] := by
  refine ⟨_, rfl, ?_⟩
  decide

end Sample

section Results

variable {P B D : Type} [DecidableEq P] [DecidableEq B] {s : State P B D} {havedisk1 : Bool}

/-- What the request queue `q` promises. -/
structure Faithful (s : State P B D) (q : List B) : Prop where
  linked : Linked s.qnext s.idequeue q
  /-- Outside of the critical sections, the head is the command started and not completed. -/
  head : s.lock = none → s.hist.started = s.completed ++ s.idequeue.toList
  /-- What the device works on is the request at the head. -/
  command : ∀ c, s.dev.cmd = some c → ∃ b, s.idequeue = some b ∧ c = (s.buf b).command
  /-- Requests are started and completed once, in the order of their arrival. -/
  started : s.completed <+: s.hist.started ∧ s.hist.started <+: s.hist.arrived
  arrived : s.hist.arrived = s.completed ++ s.pending q
  returned : ∀ p b, s.pc p = .release b → (s.buf b).synced = true
  /-- When no request is left, the disk and the buffers are those of `memide.c`. -/
  memide : s.hist.foreign = false → ∃ r, s.hist.sync = some r ∧
    (s.pending q = [] → s.dev.disk 1 = r.disk ∧ s.buf = r.buf)

/-- As long as the device reports no error, the queue is faithful. -/
theorem ide_queue_faithful (h : Reach (step havedisk1) Init Any s) (hclean : s.hist.reported = false) :
    ∃ q, Faithful s q := by
  obtain ⟨q, hinv⟩ := reach_inv h
  refine ⟨q, hinv.linked, hinv.head_started, fun c hc => ?_, ⟨?_, ?_⟩, hinv.arrived, hinv.returned,
    fun hforeign => ?_⟩
  · obtain ⟨b, l, hcmd, -, -, rfl, -⟩ := hinv.stage.command hc
    exact ⟨b, hinv.linked.1, hcmd⟩
  · rcases hinv.stage.started with hs | ⟨b, l, hs, -⟩
    · exact ⟨[], by rw [hs, List.append_nil]⟩
    · rw [hs]
      exact List.prefix_append ..
  · rw [hinv.arrived]
    rcases hinv.stage.started with hs | ⟨b, l, hs, hpending⟩
    · rw [hs]
      exact List.prefix_append ..
    · rw [hs, hpending]
      exact ⟨l, List.append_assoc ..⟩
  · obtain ⟨r, hr⟩ := Option.isSome_iff_exists.mp (hinv.answers hclean hforeign)
    refine ⟨r, hr, fun hpending => ?_⟩
    have hrun := hinv.agrees hclean r hr
    rw [hpending, Sync.run_nil, Option.some.injEq] at hrun
    rw [← hrun]
    exact ⟨rfl, rfl⟩

/-- The first request has returned, and the second is at the device. -/
theorem ide_queue_faithful_twoRequests : ∃ s : State Bool Bool Nat, Reach (step true) Init Any s ∧
    s.pc false = .release false ∧ s.hist.started = [false, true] ∧ ∃ q, Faithful s q := by
  obtain ⟨s, hs, hclean, -, hpc, hstarted⟩ := twoRequests_false
  exact ⟨s, reach_twoRequests hs, hpc, hstarted, ide_queue_faithful (reach_twoRequests hs) hclean⟩

/-- No buffer is marked valid that a request has not filled, none clean that it has not written, and a
caller finds its buffer as its request left it. -/
structure NoneWrong (s : State P B D) : Prop where
  right : ∀ o ∈ s.hist.done, o.Right
  returned : ∀ p b, s.pc p = .release b → s.Finished b

/-- Exactly the errors that the device reports lead to wrong buffers. -/
theorem iderw_errors_iff (h : Reach (step havedisk1) Init Any s) :
    NoneWrong s ↔ ∀ o ∈ s.hist.done, o.err = false := by
  obtain ⟨q, hinv⟩ := reach_inv h
  refine ⟨fun hright o ho => (hinv.right o ho).mp (hright.right o ho), fun herr => ?_⟩
  refine ⟨fun o ho => (hinv.right o ho).mpr (herr o ho), fun p b hp => ?_⟩
  refine (hinv.finished p b (.inr hp)).resolve_left fun hpending => ?_
  have hsynced := hinv.returned p b hp
  rw [hinv.unsynced b hpending] at hsynced
  cases hsynced

theorem iderw_errors_iff_twoRequests : ∃ s : State Bool Bool Nat, Reach (step true) Init Any s ∧
    s.pc false = .release false ∧ s.hist.started = [false, true] ∧ NoneWrong s := by
  obtain ⟨s, hs, -, herr, hpc, hstarted⟩ := twoRequests_false
  have hdone : ∀ o ∈ s.hist.done, o.err = false := by
    intro o ho
    simpa using List.all_eq_true.mp herr o ho
  exact ⟨s, reach_twoRequests hs, hpc, hstarted, (iderw_errors_iff (reach_twoRequests hs)).mpr hdone⟩

/-- A read that fails returns a buffer that is marked valid and holds what it held before, not the
block. -/
theorem iderw_failed_read_valid : ∃ s : State Bool Bool Nat,
    Reach (step true) Init Any s ∧ s.pc false = .release false ∧ (s.buf false).valid = true ∧
      (s.buf false).data ≠ s.dev.disk (s.buf false).dev (s.buf false).blockno := by
  obtain ⟨s, hs, hpc, hbuf, hdisk⟩ := twoRequests_true
  refine ⟨s, reach_twoRequests hs, hpc, ?_, ?_⟩
  · rw [hbuf]
  · rw [hbuf, hdisk]
    decide

end Results

end Chameleon.Ide
