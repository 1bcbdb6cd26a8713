import Chameleon.Dev.Ide
import Chameleon.Lib.Chain
import Mathlib.Data.List.Nodup

/-! The request queue of the disk driver. The invariant ties the queue, the place of the interrupt
handler and the command of the device together: at any time one stage of the life of the request at
the head of the queue explains all three. -/

namespace Chameleon.Ide
open Machine

section Places

variable {B D : Type}

/-- The buffer of a process whose request has been queued and that has not seen it completed. -/
def Pc.queued : Pc B → Option B
  | .start b => some b
  | .test b => some b
  | .asleep b => some b
  | .relock b => some b
  | _ => none

/-- The buffer of a process that has not queued its request. -/
def Pc.asking : Pc B → Option B
  | .acquire b => some b
  | .clear b => some b
  | .walk b _ => some b
  | _ => none

/-- The process holds `idelock`. -/
def Pc.locked : Pc B → Bool
  | .clear _ => true
  | .walk _ _ => true
  | .start _ => true
  | .test _ => true
  | .release _ => true
  | _ => false

/-- The handler holds `idelock`. -/
def Hpc.locked : Hpc B D → Bool
  | .idle => false
  | .acquire => false
  | _ => true

/-- The request that the handler has taken off the queue and not completed. -/
def Hpc.taken : Hpc B D → List B
  | .read b => [b]
  | .mark b _ => [b]
  | _ => []

theorem Pc.buf_of_queued {x : Pc B} {b : B} (h : x.queued = some b) : x.buf = some b := by
  cases x <;> first | exact h | cases h

theorem Pc.buf_of_asking {x : Pc B} {b : B} (h : x.asking = some b) : x.buf = some b := by
  cases x <;> first | exact h | cases h

theorem Pc.queued_of_asking {x : Pc B} {b : B} (h : x.asking = some b) : x.queued = none := by
  cases x <;> first | rfl | cases h

end Places

section Device

variable {D : Type}

/-- No command is under way and no interrupt waits. -/
def Device.Rests (d : Device D) : Prop := d.cmd = none ∧ d.intr = false

/-- The block that a buffer is for. -/
def Device.block (d : Device D) (x : Buf D) : D := d.disk (x.dev % 2) x.blockno

/-- The command for a buffer has ended: without an error, a write has reached the disk and the data
of a read wait at the port. -/
structure Ready (d : Device D) (x : Buf D) : Prop where
  range : x.blockno < FSSIZE
  write : d.err = false → x.dirty = true → d.block x = x.data
  read : d.err = false → x.dirty = false → d.port = d.block x

/-- Without an error, the data of a read have been transferred. -/
def Moved (d : Device D) (x : Buf D) (moved : Option D) : Prop :=
  d.err = false → x.dirty = false → moved = some x.data ∧ x.data = d.block x

end Device

section Inv

variable {P B D : Type} [DecidableEq P] [DecidableEq B]

/-- The requests that are not completed, when the queue is `q`. -/
def State.pending (s : State P B D) (q : List B) : List B := s.hpc.taken ++ q

/-- The requests that are completed. -/
def State.completed (s : State P B D) : List B := s.hist.done.map Outcome.b

/-- What the last request for a buffer left. -/
def State.latest (s : State P B D) (b : B) : Option (Outcome B D) :=
  (s.hist.done.filter fun o => o.b = b).getLast?

/-- The buffer is as its last request left it. -/
def State.Finished (s : State P B D) (b : B) : Prop := ∃ o, s.latest b = some o ∧ o.after = s.buf b

/-- What the device and the handler are doing for the queue `q`. -/
inductive Stage (s : State P B D) (q : List B) : Prop
  | quiet (hdev : s.dev.Rests) (hhandler : s.hpc = .idle ∨ s.hpc = .release) (hq : q = [])
      (hstarted : s.hist.started = s.completed)
  /-- The process `p` is about to start its request. -/
  | fresh (p : P) (b : B) (hp : s.pc p = .start b) (hdev : s.dev.Rests) (hhandler : s.hpc = .idle)
      (hq : q = [b]) (hstarted : s.hist.started = s.completed)
  | running (b : B) (l : List B) (hcmd : s.dev.cmd = some (s.buf b).command)
      (hintr : s.dev.intr = false) (hhandler : s.hpc = .idle ∨ s.hpc = .release) (hq : q = b :: l)
      (hstart : ∀ p, s.pc p ≠ .start b) (hstarted : s.hist.started = s.completed ++ [b])
      (hrange : (s.buf b).blockno < FSSIZE)
  | raised (b : B) (l : List B) (hcmd : s.dev.cmd = none) (hintr : s.dev.intr = true)
      (hhandler : s.hpc = .idle ∨ s.hpc = .release) (hq : q = b :: l)
      (hstart : ∀ p, s.pc p ≠ .start b) (hstarted : s.hist.started = s.completed ++ [b])
      (hready : Ready s.dev (s.buf b))
  | handling (b : B) (l : List B) (hdev : s.dev.Rests) (hhandler : s.hpc = .acquire ∨ s.hpc = .pop)
      (hq : q = b :: l) (hstart : ∀ p, s.pc p ≠ .start b)
      (hstarted : s.hist.started = s.completed ++ [b]) (hready : Ready s.dev (s.buf b))
  | reading (b : B) (hdev : s.dev.Rests) (hhandler : s.hpc = .read b)
      (hstarted : s.hist.started = s.completed ++ [b]) (hready : Ready s.dev (s.buf b))
  | marking (b : B) (moved : Option D) (hdev : s.dev.Rests) (hhandler : s.hpc = .mark b moved)
      (hstarted : s.hist.started = s.completed ++ [b]) (hready : Ready s.dev (s.buf b))
      (hmoved : Moved s.dev (s.buf b) moved)
  | waking (hdev : s.dev.Rests) (hhandler : (∃ b, s.hpc = .wake b) ∨ s.hpc = .next)
      (hstarted : s.hist.started = s.completed)

/-- A completed request as its caller should find it. -/
structure Outcome.Right (o : Outcome B D) : Prop where
  read : o.write = false → o.after.valid = true →
    o.moved = some o.after.data ∧ o.after.data = o.block
  failedRead : o.err = true → o.write = false → o.after.valid = false
  failedWrite : o.err = true → o.write = true → o.after.dirty = true

/-- What holds of the queue `q`, whatever the stage. -/
structure Queue (s : State P B D) (q : List B) : Prop where
  lockProc : ∀ p, (s.pc p).locked = true ↔ s.lock = some (.proc p)
  lockIntr : s.hpc.locked = true ↔ s.lock = some .intr
  own : ∀ p b, (s.pc p).buf = some b → s.holder b = some p
  linked : Linked s.qnext s.idequeue q
  nodup : (s.pending q).Nodup
  waiting : ∀ b ∈ s.pending q, ∃ p, (s.pc p).queued = some b
  unsynced : ∀ b ∈ s.pending q, (s.buf b).synced = false
  asking : ∀ p b, (s.pc p).asking = some b → (s.buf b).synced = false
  walking : ∀ p b pp, s.pc p = .walk b pp → s.qnext b = none ∧ ∀ c ∈ pp, c ∈ q
  finished : ∀ p b, (s.pc p).queued = some b ∨ s.pc p = .release b →
    b ∈ s.pending q ∨ s.Finished b
  returned : ∀ p b, s.pc p = .release b → (s.buf b).synced = true
  arrived : s.hist.arrived = s.completed ++ s.pending q
  right : ∀ o ∈ s.hist.done, o.Right ↔ o.err = false
  clean : s.hist.reported = false → s.dev.err = false
  agrees : s.hist.reported = false → ∀ r, s.hist.sync = some r →
    Sync.run ⟨s.dev.disk 1, s.buf⟩ (s.pending q) = some r
  answers : s.hist.reported = false → s.hist.foreign = false → s.hist.sync.isSome = true

/-- The invariant of the driver. -/
structure Inv (s : State P B D) (q : List B) : Prop extends Queue s q where
  stage : Stage s q

end Inv

section Memide

variable {B D : Type} [DecidableEq B] {r r' : Sync B D} {b c : B} {x : Buf D} {l : List B}

@[simp]
theorem Sync.run_nil (r : Sync B D) : r.run [] = some r := rfl

@[simp]
theorem Sync.run_cons (r : Sync B D) (b : B) (l : List B) :
    r.run (b :: l) = (r.iderw b).bind fun r' => r'.run l := rfl

theorem Sync.run_concat (r : Sync B D) (l : List B) (b : B) :
    r.run (l ++ [b]) = (r.run l).bind fun r' => r'.iderw b := by
  induction l generalizing r with
  | nil =>
    change (r.iderw b).bind some = r.iderw b
    exact Option.bind_fun_some (r.iderw b)
  | cons c l ih =>
    rw [List.cons_append, run_cons, run_cons, Option.bind_assoc]
    exact Option.bind_congr fun r' _ => ih r'

theorem Sync.touch_of_ne (r : Sync B D) (h : c ≠ b) (x : Buf D) :
    (r.touch b x).buf c = r.buf c := by
  simp only [touch, Function.update_of_ne h]

/-- Another buffer does not matter to a request. -/
theorem Sync.iderw_touch (r : Sync B D) (h : c ≠ b) (x : Buf D) :
    (r.touch b x).iderw c = (r.iderw c).map fun r => r.touch b x := by
  unfold iderw
  rw [touch_of_ne r h]
  split_ifs
  · rfl
  · rfl
  · rfl
  · simp only [touch, Option.map_some, Function.update_comm h]
  · simp only [touch, Option.map_some, Function.update_comm h]

theorem Sync.run_touch (r : Sync B D) (h : b ∉ l) (x : Buf D) :
    (r.touch b x).run l = (r.run l).map fun r => r.touch b x := by
  induction l generalizing r with
  | nil => rfl
  | cons c l ih =>
    rw [List.mem_cons, not_or] at h
    rw [run_cons, run_cons, iderw_touch r (Ne.symm h.1), Option.bind_map, Option.map_bind]
    exact Option.bind_congr fun r' _ => ih r' h.2

theorem Sync.run_of_not_mem (h : r.run l = some r') (hb : b ∉ l) : r'.buf b = r.buf b := by
  induction l generalizing r with
  | nil => rw [Option.some.inj h]
  | cons c l ih =>
    rw [List.mem_cons, not_or] at hb
    obtain ⟨r₁, hr₁, hrest⟩ := Option.bind_eq_some_iff.mp h
    have hsame : r₁.buf b = r.buf b := by
      unfold iderw at hr₁
      split_ifs at hr₁
      · rw [← Option.some.inj hr₁]
        exact Function.update_of_ne hb.1 ..
      · rw [← Option.some.inj hr₁]
        exact Function.update_of_ne hb.1 ..
    exact (ih hrest hb.2).trans hsame

theorem Sync.iderw_isSome (hsynced : (r.buf b).synced = false) (hdev : (r.buf b).dev = 1)
    (hrange : (r.buf b).blockno < FSSIZE) : (r.iderw b).isSome = true := by
  unfold iderw
  rw [if_neg (by simp [hsynced]), if_neg (not_not.mpr hdev), if_neg (Nat.not_le.mpr hrange)]
  split_ifs <;> rfl

/-- What `memide.c` checks. -/
theorem Sync.iderw_dev (h : r.iderw b = some r') : (r.buf b).dev = 1 := by
  unfold iderw at h
  split_ifs at h with _ hdev
  all_goals exact not_not.mp hdev

/-- A request whose transfer has been made only sets the flags. -/
theorem Sync.iderw_moved (h : r.iderw b = some r')
    (hmoved : r.disk (r.buf b).blockno = (r.buf b).data) : r' = r.touch b (r.buf b).mark := by
  unfold iderw at h
  split_ifs at h
  · rw [← hmoved, Function.update_eq_self] at h
    exact (Option.some.inj h).symm
  · rw [hmoved] at h
    exact (Option.some.inj h).symm

/-- The data of a read may be in the buffer already. -/
theorem Sync.iderw_load (hdirty : (r.buf b).dirty = false) :
    (r.touch b { r.buf b with data := r.disk (r.buf b).blockno }).iderw b = r.iderw b := by
  simp only [iderw, touch, Function.update_self, Function.update_idem, Buf.synced, Buf.mark, hdirty,
    Bool.false_eq_true, if_false]

/-- The data of a write may be on the disk already. -/
theorem Sync.iderw_store (hdirty : (r.buf b).dirty = true) :
    Sync.iderw { r with disk := Function.update r.disk (r.buf b).blockno (r.buf b).data } b =
      r.iderw b := by
  simp only [iderw, Function.update_idem, hdirty, if_true]

end Memide

section Goto

variable {P B D : Type} [DecidableEq P] (s : State P B D) {p p' : P}

theorem State.goto_self (p : P) (x : Pc B) : (s.goto p x).pc p = x := by
  simp only [goto, Function.update_self]

theorem State.goto_of_ne (h : p' ≠ p) (x : Pc B) : (s.goto p x).pc p' = s.pc p' := by
  simp only [goto, Function.update_of_ne h]

/-- What is true of every process stays so when it is true of the one that moves. -/
theorem State.forall_goto {p : P} {x : Pc B} (Q : P → Pc B → Prop) (hx : Q p x)
    (h : ∀ p', p' ≠ p → Q p' (s.pc p')) (p' : P) : Q p' ((s.goto p x).pc p') :=
  (Function.forall_update_iff s.pc Q).mpr ⟨hx, h⟩ p'

end Goto

section Stage

variable {P B D : Type} {s s' : State P B D} {q : List B}

theorem State.mem_pending_taken {b : B} (h : b ∈ s.hpc.taken) : b ∈ s.pending q :=
  List.mem_append_left q h

theorem State.mem_pending_head {b : B} {l : List B} (h : q = b :: l) : b ∈ s.pending q :=
  List.mem_append_right _ (h ▸ List.mem_cons_self)

/-- The stage does not depend on links and locks, nor on the buffers without a request. -/
theorem Stage.congr (h : Stage s q) (hbuf : ∀ b ∈ s.pending q, s'.buf b = s.buf b)
    (hpc : s'.pc = s.pc) (hhpc : s'.hpc = s.hpc) (hdev : s'.dev = s.dev)
    (hstarted : s'.hist.started = s.hist.started) (hdone : s'.hist.done = s.hist.done) :
    Stage s' q := by
  rcases s with ⟨buf, _, _, _, _, pc, hpc, dev, _, started, done, _, _, _⟩
  rcases s' with ⟨buf', _, _, _, _, pc', hpc', dev', _, started', done', _, _, _⟩
  subst hpc hhpc hdev hstarted hdone
  cases h with
  | quiet hdev hh hq hs => exact .quiet hdev hh hq hs
  | fresh p b hp hdev hh hq hs => exact .fresh p b hp hdev hh hq hs
  | running b l hcmd hintr hh hq hst hs hr =>
    rw [← hbuf b (State.mem_pending_head hq)] at hcmd hr
    exact .running b l hcmd hintr hh hq hst hs hr
  | raised b l hcmd hintr hh hq hst hs hr =>
    rw [← hbuf b (State.mem_pending_head hq)] at hr
    exact .raised b l hcmd hintr hh hq hst hs hr
  | handling b l hdev hh hq hst hs hr =>
    rw [← hbuf b (State.mem_pending_head hq)] at hr
    exact .handling b l hdev hh hq hst hs hr
  | reading b hdev hh hs hr =>
    obtain rfl : hpc' = .read b := hh
    rw [← hbuf b (State.mem_pending_taken (List.mem_singleton_self b))] at hr
    exact .reading b hdev rfl hs hr
  | marking b moved hdev hh hs hr hm =>
    obtain rfl : hpc' = .mark b moved := hh
    rw [← hbuf b (State.mem_pending_taken (List.mem_singleton_self b))] at hr hm
    exact .marking b moved hdev rfl hs hr hm
  | waking hdev hh hs => exact .waking hdev hh hs

/-- A process that moves on without queueing a request does not change the stage, unless it was the
one to start the request. -/
theorem Stage.goto [DecidableEq P] {p : P} (h : Stage s q) {x : Pc B} (hstart : ∀ b, x ≠ .start b)
    (hleave : ∀ b, s.pc p = .start b → q ≠ [b]) : Stage (s.goto p x) q := by
  have hnone : ∀ b, (∀ p', s.pc p' ≠ .start b) → ∀ p', (s.goto p x).pc p' ≠ .start b := fun b hb =>
    s.forall_goto (fun _ y => y ≠ .start b) (hstart b) fun p' _ => hb p'
  cases h with
  | quiet hdev hh hq hs => exact .quiet hdev hh hq hs
  | fresh p' b hp hdev hh hq hs =>
    have hne : p' ≠ p := fun heq => hleave b (heq ▸ hp) hq
    exact .fresh p' b ((s.goto_of_ne hne x).trans hp) hdev hh hq hs
  | running b l hcmd hintr hh hq hst hs hr => exact .running b l hcmd hintr hh hq (hnone b hst) hs hr
  | raised b l hcmd hintr hh hq hst hs hr => exact .raised b l hcmd hintr hh hq (hnone b hst) hs hr
  | handling b l hdev hh hq hst hs hr => exact .handling b l hdev hh hq (hnone b hst) hs hr
  | reading b hdev hh hs hr => exact .reading b hdev hh hs hr
  | marking b moved hdev hh hs hr hm => exact .marking b moved hdev hh hs hr hm
  | waking hdev hh hs => exact .waking hdev hh hs

end Stage

section Inv

variable {P B D : Type} [DecidableEq B] {s : State P B D} {q : List B} {p p' : P} {b : B}

namespace Queue

/-- One process at most has the lock. -/
theorem alone (h : Queue s q) (hlock : s.lock = some (.proc p)) (hlocked : (s.pc p').locked = true) :
    p' = p := by
  have hlock' := (h.lockProc p').mp hlocked
  rw [hlock] at hlock'
  exact (Owner.proc.inj (Option.some.inj hlock')).symm

/-- A buffer that a process has not queued is not in the queue. -/
theorem not_pending (h : Queue s q) (hbuf : (s.pc p).buf = some b)
    (hqueued : (s.pc p).queued ≠ some b) : b ∉ s.pending q := by
  intro hb
  obtain ⟨p', hp'⟩ := h.waiting b hb
  have hown' := h.own p' b (Pc.buf_of_queued hp')
  rw [h.own p b hbuf, Option.some.injEq] at hown'
  exact hqueued (hown' ▸ hp')

end Queue

variable [DecidableEq P]

/-- What a process must respect that moves to `x` and leaves the lock as `l`. -/
structure Moves (s : State P B D) (q : List B) (p : P) (x : Pc B) (l : Option (Owner P)) : Prop where
  lock : s.lock = l ∨ s.lock = none ∧ l = some (.proc p) ∨ s.lock = some (.proc p) ∧ l = none
  locked : x.locked = true ↔ l = some (.proc p)
  own : ∀ b, x.buf = some b → s.holder b = some p
  waiting : ∀ b ∈ s.pending q, (s.pc p).queued = some b → x.queued = some b
  asking : ∀ b, x.asking = some b → (s.buf b).synced = false
  walking : ∀ b pp, x = .walk b pp → s.qnext b = none ∧ ∀ c ∈ pp, c ∈ q
  finished : ∀ b, x.queued = some b ∨ x = .release b → (s.pc p).queued = some b
  returned : ∀ b, x = .release b → (s.buf b).synced = true

theorem Queue.move {x : Pc B} {l : Option (Owner P)} (h : Queue s q) (hx : Moves s q p x l) :
    Queue { s.goto p x with lock := l } q := by
  refine { h with
    lockProc := ?_, lockIntr := ?_, own := ?_, waiting := ?_, asking := ?_, walking := ?_,
    finished := ?_, returned := ?_ }
  · refine s.forall_goto (fun p' y => y.locked = true ↔ l = some (.proc p')) hx.locked
      fun p' hne => (h.lockProc p').trans ?_
    rcases hx.lock with rfl | ⟨hs, rfl⟩ | ⟨hs, rfl⟩
    · rfl
    · simp [hs, Ne.symm hne]
    · simp [hs, Ne.symm hne]
  · refine h.lockIntr.trans ?_
    rcases hx.lock with rfl | ⟨hs, rfl⟩ | ⟨hs, rfl⟩
    · rfl
    · simp [hs]
    · simp [hs]
  · exact s.forall_goto (fun p' y => ∀ b, y.buf = some b → s.holder b = some p') hx.own
      fun p' _ => h.own p'
  · intro b hb
    obtain ⟨p', hp'⟩ := h.waiting b hb
    by_cases heq : p' = p
    · subst p'
      exact ⟨p, (congrArg Pc.queued (s.goto_self p x)).trans (hx.waiting b hb hp')⟩
    · exact ⟨p', (congrArg Pc.queued (s.goto_of_ne heq x)).trans hp'⟩
  · exact s.forall_goto (fun _ y => ∀ b, y.asking = some b → (s.buf b).synced = false) hx.asking
      fun p' _ => h.asking p'
  · exact s.forall_goto (fun _ y => ∀ b pp, y = .walk b pp → s.qnext b = none ∧ ∀ c ∈ pp, c ∈ q)
      hx.walking fun p' _ => h.walking p'
  · exact s.forall_goto (fun _ y => ∀ b, y.queued = some b ∨ y = .release b →
      b ∈ s.pending q ∨ s.Finished b) (fun b hb => h.finished p b (.inl (hx.finished b hb)))
      fun p' _ => h.finished p'
  · exact s.forall_goto (fun _ y => ∀ b, y = .release b → (s.buf b).synced = true) hx.returned
      fun p' _ => h.returned p'

/-- A process moves on, taking or releasing the lock, without queueing or starting a request. -/
theorem Inv.move {x : Pc B} {l : Option (Owner P)} (h : Inv s q) (hx : Moves s q p x l)
    (hstart : ∀ b, x ≠ .start b) (hleave : ∀ b, s.pc p = .start b → q ≠ [b]) :
    Inv { s.goto p x with lock := l } q :=
  ⟨h.toQueue.move hx, (h.stage.goto hstart hleave).congr (fun _ _ => rfl) rfl rfl rfl rfl rfl⟩

/-- What the handler must respect that moves to `x`, leaves the lock as `l` and the queue as `q'`. -/
structure Handles (s : State P B D) (q : List B) (x : Hpc B D) (l : Option (Owner P))
    (i : Option B) (q' : List B) : Prop where
  lock : s.lock = l ∨ s.lock = none ∧ l = some .intr ∨ s.lock = some .intr ∧ l = none
  locked : x.locked = true ↔ l = some .intr
  pending : x.taken ++ q' = s.pending q
  linked : Linked s.qnext i q'
  queue : q' = q ∨ s.lock = some .intr

omit [DecidableEq P] in
theorem Queue.handle {x : Hpc B D} {l : Option (Owner P)} {i : Option B} {q' : List B}
    (h : Queue s q) (hx : Handles s q x l i q') :
    Queue { s with hpc := x, lock := l, idequeue := i } q' := by
  have hpending : State.pending { s with hpc := x, lock := l, idequeue := i } q' = s.pending q :=
    hx.pending
  refine { h with
    lockProc := fun p => (h.lockProc p).trans ?_, lockIntr := hx.locked, linked := hx.linked,
    nodup := hpending ▸ h.nodup, waiting := hpending ▸ h.waiting,
    unsynced := hpending ▸ h.unsynced, walking := fun p b pp hp => ?_,
    finished := hpending ▸ h.finished, arrived := hpending ▸ h.arrived,
    agrees := hpending ▸ h.agrees }
  · rcases hx.lock with rfl | ⟨hs, rfl⟩ | ⟨hs, rfl⟩
    · rfl
    · simp [hs]
    · simp [hs]
  · rcases hx.queue with rfl | hintr
    · exact h.walking p b pp hp
    · have hproc := (h.lockProc p).mp (by rw [hp]; rfl)
      rw [hintr] at hproc
      cases hproc

end Inv

end Chameleon.Ide
