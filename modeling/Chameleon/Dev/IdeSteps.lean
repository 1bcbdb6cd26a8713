import Chameleon.Dev.IdeQueue

/-! What each step of the disk driver keeps: those of a process in `iderw`, of the interrupt handler and
of the device, and what is done to buffers between calls. -/

namespace Chameleon.Ide

theorem State.idestart_some {P B D : Type} {s s' : State P B D} {b : B}
    (h : s.idestart b = some s') :
    (s.buf b).blockno < FSSIZE ∧
      s' = { s with
        dev := { s.dev with cmd := some (s.buf b).command }
        hist := { s.hist with started := s.hist.started ++ [b] } } := by
  unfold idestart at h
  split_ifs at h with hrange hcmd
  exact ⟨not_le.mp hrange, (Option.some.inj h).symm⟩

section Process

variable {P B D : Type} [DecidableEq B] {s s' : State P B D} {q : List B} {p : P} {b : B}

/-- The end of the queue has been found. -/
theorem Inv.link {pp : Option B} (h : Inv s q) (hp : s.pc p = .walk b pp)
    (hend : s.deref pp = none) : ∃ i n,
      s.link b pp = { s with idequeue := i, qnext := n } ∧ Linked n i (q ++ [b]) := by
  obtain ⟨hnone, hpp⟩ := h.walking p b pp hp
  cases pp with
  | none =>
    have hhead := h.linked.head_eq
    rw [show s.idequeue = none from hend] at hhead
    rw [List.head?_eq_none_iff.mp hhead.symm]
    exact ⟨some b, s.qnext, rfl, rfl, hnone⟩
  | some c =>
    have hfree : b ∉ s.pending q := h.not_pending (by rw [hp]; rfl) (by simp [hp, Pc.queued])
    have hnodup := (List.nodup_append.mp h.nodup).2.1
    obtain ⟨l, rfl⟩ := h.linked.last (hpp c rfl) hend
    refine ⟨s.idequeue, _, rfl, h.linked.concat hnodup (fun hb => ?_) hnone⟩
    exact hfree (List.mem_append_right _ hb)

/-- The request of a process at the test for an empty queue. -/
theorem Queue.start (h : Queue s q) (hp : s.pc p = .start b) : Moves s q p (.test b) s.lock := by
  have hold := h.own p b (by rw [hp]; rfl)
  have hlock := (h.lockProc p).mp (by rw [hp]; rfl)
  constructor <;> simp [hp, Pc.locked, Pc.buf, Pc.queued, Pc.asking, hold, hlock]

variable [DecidableEq P]

theorem Inv.call (h : Inv s q) (hp : s.pc p = .out) (hold : s.holder b = some p)
    (hb : (s.buf b).synced = false) : Inv (s.goto p (.acquire b)) q := by
  have hlock : s.lock ≠ some (.proc p) := mt (h.lockProc p).mpr (by simp [hp, Pc.locked])
  have hx : Moves s q p (.acquire b) s.lock := by
    constructor <;> simp [hp, Pc.locked, Pc.buf, Pc.queued, Pc.asking, hold, hlock, hb]
  exact h.move hx (by simp) (by simp [hp])

theorem Inv.acquire (h : Inv s q) (hp : s.pc p = .acquire b) (hlock : s.lock = none) :
    Inv { s.goto p (.clear b) with lock := some (.proc p) } q := by
  have hold := h.own p b (by rw [hp]; rfl)
  have hb := h.asking p b (by rw [hp]; rfl)
  have hx : Moves s q p (.clear b) (some (.proc p)) := by
    constructor <;> simp [hp, Pc.locked, Pc.buf, Pc.queued, Pc.asking, hold, hlock, hb]
  exact h.move hx (by simp) (by simp [hp])

omit [DecidableEq P] in
/-- A buffer that is not queued gets a null pointer. -/
theorem Inv.setNext (h : Inv s q) (hb : b ∉ s.pending q) :
    Inv { s with qnext := Function.update s.qnext b none } q := by
  refine { h with linked := ?_, walking := ?_, stage := h.stage.congr (fun _ _ => rfl) rfl rfl rfl rfl rfl }
  · refine h.linked.congr fun c hc => ?_
    have hne : c ≠ b := fun heq => hb (List.mem_append_right _ (heq ▸ hc))
    exact Function.update_of_ne hne ..
  · intro p' c pp hwalk
    obtain ⟨hnone, hpp⟩ := h.walking p' c pp hwalk
    refine ⟨?_, hpp⟩
    by_cases heq : c = b
    · subst c
      exact Function.update_self ..
    · exact (Function.update_of_ne heq ..).trans hnone

theorem Inv.clear (h : Inv s q) (hp : s.pc p = .clear b) :
    Inv { s.goto p (.walk b none) with qnext := Function.update s.qnext b none } q := by
  have hold := h.own p b (by rw [hp]; rfl)
  have hb := h.asking p b (by rw [hp]; rfl)
  have hlock := (h.lockProc p).mp (by rw [hp]; rfl)
  have hfree : b ∉ s.pending q := h.not_pending (by rw [hp]; rfl) (by simp [hp, Pc.queued])
  have hx : Moves { s with qnext := Function.update s.qnext b none } q p (.walk b none) s.lock := by
    constructor <;> simp [hp, Pc.locked, Pc.buf, Pc.queued, Pc.asking, hold, hlock, hb]
  exact (h.setNext hfree).move hx (by simp) (by simp [hp])

theorem Inv.walk {pp : Option B} {c : B} (h : Inv s q) (hp : s.pc p = .walk b pp)
    (hc : s.deref pp = some c) : Inv (s.goto p (.walk b (some c))) q := by
  have hold := h.own p b (by rw [hp]; rfl)
  have hb := h.asking p b (by rw [hp]; rfl)
  have hlock := (h.lockProc p).mp (by rw [hp]; rfl)
  obtain ⟨hnone, hpp⟩ := h.walking p b pp hp
  have hmem : c ∈ q := by
    cases pp with
    | none => exact List.mem_of_head? (h.linked.head_eq ▸ hc)
    | some c' => exact h.linked.next_mem (hpp c' rfl) hc
  have hx : Moves s q p (.walk b (some c)) s.lock := by
    constructor <;> simp [hp, Pc.locked, Pc.buf, Pc.queued, Pc.asking, hold, hlock, hb, hnone, hmem]
  exact h.move hx (by simp) (by simp [hp])

theorem Inv.test_synced (h : Inv s q) (hp : s.pc p = .test b) (hb : (s.buf b).synced = true) :
    Inv (s.goto p (.release b)) q := by
  have hold := h.own p b (by rw [hp]; rfl)
  have hlock := (h.lockProc p).mp (by rw [hp]; rfl)
  have hnot : b ∉ s.pending q := fun hmem => by simp [h.unsynced b hmem] at hb
  have hx : Moves s q p (.release b) s.lock := by
    constructor <;> simp [hp, Pc.locked, Pc.buf, Pc.queued, Pc.asking, hold, hlock, hb]
    exact fun c hc heq => hnot (heq ▸ hc)
  exact h.move hx (by simp) (by simp [hp])

theorem Inv.test_sleep (h : Inv s q) (hp : s.pc p = .test b) :
    Inv { s.goto p (.asleep b) with lock := none } q := by
  have hold := h.own p b (by rw [hp]; rfl)
  have hlock := (h.lockProc p).mp (by rw [hp]; rfl)
  have hx : Moves s q p (.asleep b) none := by
    constructor <;> simp [hp, Pc.locked, Pc.buf, Pc.queued, Pc.asking, hold, hlock]
  exact h.move hx (by simp) (by simp [hp])

theorem Inv.kill (h : Inv s q) (hp : s.pc p = .asleep b) : Inv (s.goto p (.relock b)) q := by
  have hold := h.own p b (by rw [hp]; rfl)
  have hlock : s.lock ≠ some (.proc p) := mt (h.lockProc p).mpr (by simp [hp, Pc.locked])
  have hx : Moves s q p (.relock b) s.lock := by
    constructor <;> simp [hp, Pc.locked, Pc.buf, Pc.queued, Pc.asking, hold, hlock]
  exact h.move hx (by simp) (by simp [hp])

theorem Inv.relock (h : Inv s q) (hp : s.pc p = .relock b) (hlock : s.lock = none) :
    Inv { s.goto p (.test b) with lock := some (.proc p) } q := by
  have hold := h.own p b (by rw [hp]; rfl)
  have hx : Moves s q p (.test b) (some (.proc p)) := by
    constructor <;> simp [hp, Pc.locked, Pc.buf, Pc.queued, Pc.asking, hold, hlock]
  exact h.move hx (by simp) (by simp [hp])

theorem Inv.release (h : Inv s q) (hp : s.pc p = .release b) :
    Inv { s.goto p .out with lock := none } q := by
  have hlock := (h.lockProc p).mp (by rw [hp]; rfl)
  have hx : Moves s q p .out none := by
    constructor <;> simp [hp, Pc.locked, Pc.buf, Pc.queued, Pc.asking, hlock]
  exact h.move hx (by simp) (by simp [hp])

theorem Inv.start_later (h : Inv s q) (hp : s.pc p = .start b) (hb : s.idequeue ≠ some b) :
    Inv (s.goto p (.test b)) q := by
  refine h.move (h.toQueue.start hp) (by simp) fun c hc hq => ?_
  rw [hp, Pc.start.injEq] at hc
  subst hc hq
  exact hb h.linked.1

/-- A process that finds its own request at the head of the queue is the one to start it. -/
theorem Inv.start_head (h : Inv s q) (hp : s.pc p = .start b) (hb : s.idequeue = some b)
    (hs : (s.goto p (.test b)).idestart b = some s') : Inv s' q := by
  have hlock := (h.lockProc p).mp (by rw [hp]; rfl)
  have hfree : s.hpc.locked = false := by
    rw [← Bool.not_eq_true, h.lockIntr, hlock]
    simp
  have hhead := h.linked.head_eq
  rw [hb] at hhead
  obtain ⟨hrange, rfl⟩ := State.idestart_some hs
  have hqueue := h.toQueue.move (h.toQueue.start hp)
  cases h.stage with
  | quiet _ _ hq => simp [hq] at hhead
  | fresh p' b' hp' hdev hh hq hstarted =>
    obtain rfl : p' = p := h.alone hlock (by rw [hp']; rfl)
    obtain rfl : b = b' := Pc.start.inj (hp.symm.trans hp')
    have hstart : ∀ p'', (s.goto p' (.test b)).pc p'' ≠ .start b :=
      s.forall_goto (fun _ y => y ≠ .start b) (by simp) fun p'' hne heq =>
        hne (h.alone hlock (by rw [heq]; rfl))
    refine ⟨{ hqueue with }, .running b [] rfl hdev.2 (.inl hh) hq hstart ?_ hrange⟩
    exact congrArg (· ++ [b]) hstarted
  | running b' l _ _ _ hq hst => exact absurd hp (by simp_all)
  | raised b' l _ _ _ hq hst => exact absurd hp (by simp_all)
  | handling b' l _ _ hq hst => exact absurd hp (by simp_all)
  | reading b' _ hh => simp [hh, Hpc.locked] at hfree
  | marking b' _ _ hh => simp [hh, Hpc.locked] at hfree
  | waking _ hh => rcases hh with ⟨_, hh⟩ | hh <;> simp [hh, Hpc.locked] at hfree

/-- The request of a process joins the queue. -/
theorem Queue.arrive {i : Option B} {n : B → Option B} {pp : Option B} (h : Queue s q)
    (hp : s.pc p = .walk b pp) (hlinked : Linked n i (q ++ [b])) :
    Queue (({ s with idequeue := i, qnext := n }.arrive b).goto p (.start b)) (q ++ [b]) := by
  have hlock := (h.lockProc p).mp (by rw [hp]; rfl)
  have hfree : b ∉ s.pending q := h.not_pending (by rw [hp]; rfl) (by simp [hp, Pc.queued])
  -- The new request is behind all others, the one that the handler has taken off included.
  have hpending : s.hpc.taken ++ (q ++ [b]) = s.pending q ++ [b] := (List.append_assoc ..).symm
  refine { h with
    lockProc := ?_, own := ?_, linked := hlinked, nodup := ?_, waiting := ?_, unsynced := ?_,
    asking := ?_, walking := ?_, finished := ?_, returned := ?_, arrived := ?_, agrees := ?_,
    answers := ?_ }
  · exact s.forall_goto (fun p' y => y.locked = true ↔ s.lock = some (.proc p'))
      (by simp [Pc.locked, hlock]) fun p' _ => h.lockProc p'
  · refine s.forall_goto (fun p' y => ∀ c, y.buf = some c → s.holder c = some p') (fun c hc => ?_)
      fun p' _ => h.own p'
    exact h.own p c (by rw [hp]; exact hc)
  · change (s.hpc.taken ++ (q ++ [b])).Nodup
    rw [hpending]
    simpa only [List.concat_eq_append] using List.Nodup.concat hfree h.nodup
  · change ∀ c ∈ s.hpc.taken ++ (q ++ [b]), ∃ p', ((s.goto p (.start b)).pc p').queued = some c
    rw [hpending]
    intro c hc
    rcases List.mem_append.mp hc with hc | hc
    · obtain ⟨p', hp'⟩ := h.waiting c hc
      have hne : p' ≠ p := by
        rintro rfl
        simp [hp, Pc.queued] at hp'
      exact ⟨p', (congrArg Pc.queued (s.goto_of_ne hne _)).trans hp'⟩
    · obtain rfl := List.mem_singleton.mp hc
      exact ⟨p, congrArg Pc.queued (s.goto_self p _)⟩
  · change ∀ c ∈ s.hpc.taken ++ (q ++ [b]), (s.buf c).synced = false
    rw [hpending]
    intro c hc
    rcases List.mem_append.mp hc with hc | hc
    · exact h.unsynced c hc
    · obtain rfl := List.mem_singleton.mp hc
      exact h.asking p c (by rw [hp]; rfl)
  · exact s.forall_goto (fun _ y => ∀ c, y.asking = some c → (s.buf c).synced = false)
      (by simp [Pc.asking]) fun p' _ => h.asking p'
  · refine s.forall_goto (fun _ y => ∀ c pp, y = .walk c pp → n c = none ∧ ∀ c ∈ pp, c ∈ q ++ [b])
      (by simp) fun p' hne c pp' hp' => ?_
    exact absurd (h.alone hlock (by rw [hp']; rfl)) hne
  · refine s.forall_goto (fun _ y => ∀ c, y.queued = some c ∨ y = .release c →
      c ∈ s.hpc.taken ++ (q ++ [b]) ∨ s.Finished c) (fun c hc => .inl ?_) fun p' _ c hc => ?_
    · rw [hpending]
      simp only [Pc.queued, Option.some.injEq, reduceCtorEq, or_false] at hc
      exact hc ▸ List.mem_append_right _ (List.mem_singleton_self b)
    · rw [hpending]
      exact (h.finished p' c hc).imp_left (List.mem_append_left [b])
  · exact s.forall_goto (fun _ y => ∀ c, y = .release c → (s.buf c).synced = true) (by simp)
      fun p' _ => h.returned p'
  · change s.hist.arrived ++ [b] = s.completed ++ (s.hpc.taken ++ (q ++ [b]))
    rw [hpending, h.arrived, List.append_assoc]
  · change s.hist.reported = false → ∀ r, (s.hist.sync.bind fun r => r.iderw b) = some r →
      Sync.run ⟨s.dev.disk 1, s.buf⟩ (s.hpc.taken ++ (q ++ [b])) = some r
    intro hreported r hr
    obtain ⟨r₀, hr₀, hb⟩ := Option.bind_eq_some_iff.mp hr
    rw [hpending, Sync.run_concat, h.agrees hreported r₀ hr₀]
    exact hb
  · change s.hist.reported = false →
      (s.hist.foreign || (s.buf b).dev ≠ 1 || FSSIZE ≤ (s.buf b).blockno) = false →
      (s.hist.sync.bind fun r => r.iderw b).isSome = true
    intro hreported hforeign
    simp only [Bool.or_eq_false_iff, decide_eq_false_iff_not, not_not, not_le] at hforeign
    obtain ⟨r, hr⟩ := Option.isSome_iff_exists.mp (h.answers hreported hforeign.1.1)
    -- No request before this one is for `b`, so they leave its buffer alone.
    have hsame : r.buf b = s.buf b := Sync.run_of_not_mem (h.agrees hreported r hr) hfree
    rw [hr, Option.bind_some]
    refine Sync.iderw_isSome ?_ ?_ ?_
    · rw [hsame]
      exact h.asking p b (by rw [hp]; rfl)
    · rw [hsame]
      exact hforeign.1.2
    · rw [hsame]
      exact hforeign.2

theorem Inv.arrive {i : Option B} {n : B → Option B} {pp : Option B} (h : Inv s q)
    (hp : s.pc p = .walk b pp) (hlinked : Linked n i (q ++ [b])) :
    Inv (({ s with idequeue := i, qnext := n }.arrive b).goto p (.start b)) (q ++ [b]) := by
  have hlock := (h.lockProc p).mp (by rw [hp]; rfl)
  have hfree : b ∉ s.pending q := h.not_pending (by rw [hp]; rfl) (by simp [hp, Pc.queued])
  have hhpc : s.hpc.locked = false := by
    rw [← Bool.not_eq_true, h.lockIntr, hlock]
    simp
  -- the head of the queue is not the new request, unless the queue was empty
  have hnone : ∀ c l, q = c :: l → (∀ p', s.pc p' ≠ .start c) →
      ∀ p', (s.goto p (.start b)).pc p' ≠ .start c := by
    refine fun c l hq hc => s.forall_goto (fun _ y => y ≠ .start c) ?_ fun p' _ => hc p'
    exact fun heq => hfree (Pc.start.inj heq ▸ State.mem_pending_head hq)
  refine ⟨h.toQueue.arrive hp hlinked, ?_⟩
  cases h.stage with
  | quiet hdev hh hq hs =>
    have hidle : s.hpc = .idle := hh.resolve_right fun hh => by simp [hh, Hpc.locked] at hhpc
    exact .fresh p b (s.goto_self p _) hdev hidle (by rw [hq]; rfl) hs
  | fresh p' b' hp' =>
    obtain rfl : p' = p := h.alone hlock (by rw [hp']; rfl)
    simp [hp] at hp'
  | running c l hcmd hintr hh hq hst hs hr =>
    exact .running c (l ++ [b]) hcmd hintr hh (by rw [hq]; rfl) (hnone c l hq hst) hs hr
  | raised c l hcmd hintr hh hq hst hs hr =>
    exact .raised c (l ++ [b]) hcmd hintr hh (by rw [hq]; rfl) (hnone c l hq hst) hs hr
  | handling c l hdev hh hq hst hs hr =>
    exact .handling c (l ++ [b]) hdev hh (by rw [hq]; rfl) (hnone c l hq hst) hs hr
  | reading c _ hh => simp [hh, Hpc.locked] at hhpc
  | marking c _ _ hh => simp [hh, Hpc.locked] at hhpc
  | waking _ hh => rcases hh with ⟨_, hh⟩ | hh <;> simp [hh, Hpc.locked] at hhpc

end Process

section Handler

variable {P B D : Type} [DecidableEq B] {s s' : State P B D} {q : List B} {b : B}

omit [DecidableEq B] in
theorem State.pending_eq (s : State P B D) {x : Hpc B D} (hh : s.hpc = x) (q : List B) :
    s.pending q = x.taken ++ q := by
  rw [pending, hh]

theorem Inv.irq (h : Inv s q) (hintr : s.dev.intr = true) (hh : s.hpc = .idle) :
    Inv { s with dev := { s.dev with intr := false }, hpc := .acquire } q := by
  have hlock : s.lock ≠ some .intr := mt h.lockIntr.mpr (by simp [hh, Hpc.locked])
  have hx : Handles s q .acquire s.lock s.idequeue q :=
    ⟨.inl rfl, by simp [Hpc.locked, hlock], (s.pending_eq hh _).symm, h.linked, .inl rfl⟩
  refine ⟨{ h.toQueue.handle hx with }, ?_⟩
  cases h.stage with
  | raised b l hcmd _ _ hq hst hs hr =>
    exact .handling b l ⟨hcmd, rfl⟩ (.inl rfl) hq hst hs ⟨hr.range, hr.write, hr.read⟩
  | quiet hdev => simp [hdev.2] at hintr
  | fresh _ _ _ hdev => simp [hdev.2] at hintr
  | running _ _ _ hintr' => simp [hintr'] at hintr
  | handling _ _ hdev => simp [hdev.2] at hintr
  | reading _ hdev => simp [hdev.2] at hintr
  | marking _ _ hdev => simp [hdev.2] at hintr
  | waking hdev => simp [hdev.2] at hintr

theorem Inv.handler_acquire (h : Inv s q) (hh : s.hpc = .acquire) (hlock : s.lock = none) :
    Inv { s with lock := some .intr, hpc := .pop } q := by
  have hx : Handles s q .pop (some .intr) s.idequeue q :=
    ⟨.inr (.inl ⟨hlock, rfl⟩), by simp [Hpc.locked], (s.pending_eq hh _).symm, h.linked, .inl rfl⟩
  refine ⟨h.toQueue.handle hx, ?_⟩
  cases h.stage with
  | handling b l hdev _ hq hst hs hr => exact .handling b l hdev (.inr rfl) hq hst hs hr
  | _ => simp_all

/-- The handler finds the request whose command has ended. -/
theorem Inv.handler_pop (h : Inv s q) (hh : s.hpc = .pop) : ∃ b l, s.idequeue = some b ∧
    Inv { s with idequeue := s.qnext b, hpc := .read b } l := by
  have hlock := h.lockIntr.mp (by rw [hh]; rfl)
  cases h.stage with
  | handling b l hdev _ hq hst hs hr =>
    subst hq
    have hx : Handles s (b :: l) (.read b) s.lock (s.qnext b) l :=
      ⟨.inl rfl, by simp [Hpc.locked, hlock], (s.pending_eq hh _).symm, h.linked.2, .inr hlock⟩
    exact ⟨b, l, h.linked.1, h.toQueue.handle hx, .reading b hdev rfl hs hr⟩
  | _ => simp_all

omit [DecidableEq B] in
theorem Stage.next (h : Stage s q) (hh : s.hpc = .next) :
    s.dev.Rests ∧ s.hist.started = s.completed := by
  cases h with
  | waking hdev _ hs => exact ⟨hdev, hs⟩
  | _ => simp_all

theorem Inv.handler_next_empty (h : Inv s q) (hh : s.hpc = .next) (hb : s.idequeue = none) :
    Inv { s with hpc := .release } q := by
  have hlock := h.lockIntr.mp (by rw [hh]; rfl)
  have hhead := h.linked.head_eq
  rw [hb] at hhead
  have hx : Handles s q .release s.lock s.idequeue q :=
    ⟨.inl rfl, by simp [Hpc.locked, hlock], (s.pending_eq hh _).symm, h.linked, .inl rfl⟩
  obtain ⟨hdev, hstarted⟩ := h.stage.next hh
  exact ⟨h.toQueue.handle hx,
    .quiet hdev (.inr rfl) (List.head?_eq_none_iff.mp hhead.symm) hstarted⟩

theorem Inv.handler_next (h : Inv s q) (hh : s.hpc = .next) (hb : s.idequeue = some b)
    (hs : State.idestart { s with hpc := .release } b = some s') : Inv s' q := by
  have hlock := h.lockIntr.mp (by rw [hh]; rfl)
  have hx : Handles s q .release s.lock s.idequeue q :=
    ⟨.inl rfl, by simp [Hpc.locked, hlock], (s.pending_eq hh _).symm, h.linked, .inl rfl⟩
  obtain ⟨hrange, rfl⟩ := State.idestart_some hs
  have hqueue := h.toQueue.handle hx
  have hstart : ∀ p, s.pc p ≠ .start b := by
    intro p hp
    have hproc := (h.lockProc p).mp (by rw [hp]; rfl)
    simp [hlock] at hproc
  obtain ⟨l, rfl⟩ : ∃ l, q = b :: l := by
    have hhead := h.linked.head_eq
    rw [hb] at hhead
    exact List.head?_eq_some_iff.mp hhead.symm
  obtain ⟨hdev, hstarted⟩ := h.stage.next hh
  refine ⟨{ hqueue with }, .running b l rfl hdev.2 (.inr rfl) rfl hstart ?_ hrange⟩
  exact congrArg (· ++ [b]) hstarted

theorem Inv.handler_release (h : Inv s q) (hh : s.hpc = .release) :
    Inv { s with lock := none, hpc := .idle } q := by
  have hlock := h.lockIntr.mp (by rw [hh]; rfl)
  have hx : Handles s q .idle none s.idequeue q :=
    ⟨.inr (.inr ⟨hlock, rfl⟩), by simp [Hpc.locked], (s.pending_eq hh _).symm, h.linked, .inl rfl⟩
  refine ⟨h.toQueue.handle hx, ?_⟩
  cases h.stage with
  | quiet hdev _ hq hs => exact .quiet hdev (.inl rfl) hq hs
  | running b l hcmd hintr _ hq hst hs hr => exact .running b l hcmd hintr (.inl rfl) hq hst hs hr
  | raised b l hcmd hintr _ hq hst hs hr => exact .raised b l hcmd hintr (.inl rfl) hq hst hs hr
  | _ => simp_all

/-- A process that is woken stands in the same part of `iderw`. -/
theorem wakeup_pc (s : State P B D) (b : B) (p : P) :
    ((s.wakeup b).pc p).locked = (s.pc p).locked ∧ ((s.wakeup b).pc p).buf = (s.pc p).buf ∧
      ((s.wakeup b).pc p).queued = (s.pc p).queued ∧ ((s.wakeup b).pc p).asking = (s.pc p).asking := by
  have hpc : (s.wakeup b).pc p = if s.pc p = .asleep b then .relock b else s.pc p := rfl
  rw [hpc]
  split_ifs with hp
  · rw [hp]
    exact ⟨rfl, rfl, rfl, rfl⟩
  · exact ⟨rfl, rfl, rfl, rfl⟩

theorem wakeup_eq {x : Pc B} (hx : ∀ c, x ≠ .relock c) (s : State P B D) (b : B) (p : P)
    (h : (s.wakeup b).pc p = x) : s.pc p = x := by
  change ite (s.pc p = .asleep b) (Pc.relock b) (s.pc p) = x at h
  split_ifs at h with hp
  · exact absurd h.symm (hx b)
  · exact h

theorem Queue.wakeup (h : Queue s q) (b : B) : Queue (s.wakeup b) q := by
  refine { h with
    lockProc := fun p => ?_, own := fun p => ?_, waiting := fun c hc => ?_, asking := fun p => ?_,
    walking := fun p c pp hp => h.walking p c pp (wakeup_eq (by simp) s b p hp),
    finished := fun p c hp => ?_,
    returned := fun p c hp => h.returned p c (wakeup_eq (by simp) s b p hp) }
  · rw [(wakeup_pc s b p).1]
    exact h.lockProc p
  · rw [(wakeup_pc s b p).2.1]
    exact h.own p
  · obtain ⟨p, hp⟩ := h.waiting c hc
    exact ⟨p, (wakeup_pc s b p).2.2.1.trans hp⟩
  · rw [(wakeup_pc s b p).2.2.2]
    exact h.asking p
  · rw [(wakeup_pc s b p).2.2.1] at hp
    exact h.finished p c (hp.imp_right (wakeup_eq (by simp) s b p))

theorem Inv.handler_wake (h : Inv s q) (hh : s.hpc = .wake b) :
    Inv { s.wakeup b with hpc := .next } q := by
  have hlock := h.lockIntr.mp (by rw [hh]; rfl)
  have hx : Handles (s.wakeup b) q .next s.lock s.idequeue q :=
    ⟨.inl rfl, by simp [Hpc.locked, hlock], (s.pending_eq hh q).symm, h.linked, .inl rfl⟩
  refine ⟨(h.toQueue.wakeup b).handle hx, ?_⟩
  cases h.stage with
  | waking hdev _ hs => exact .waking hdev (.inr rfl) hs
  | _ => simp_all

omit [DecidableEq B] in
theorem Stage.read (h : Stage s q) (hh : s.hpc = .read b) :
    s.dev.Rests ∧ s.hist.started = s.completed ++ [b] ∧ Ready s.dev (s.buf b) := by
  cases h with
  | reading c hdev hh' hs hr =>
    obtain rfl : b = c := Hpc.read.inj (hh.symm.trans hh')
    exact ⟨hdev, hs, hr⟩
  | _ => simp_all

/-- Nothing is transferred for a write, or after an error. -/
theorem Inv.handler_skip (h : Inv s q) (hh : s.hpc = .read b)
    (hskip : (s.buf b).dirty = true ∨ s.dev.err = true) : Inv { s with hpc := .mark b none } q := by
  have hlock := h.lockIntr.mp (by rw [hh]; rfl)
  have hx : Handles s q (.mark b none) s.lock s.idequeue q :=
    ⟨.inl rfl, by simp [Hpc.locked, hlock], (s.pending_eq hh _).symm, h.linked, .inl rfl⟩
  obtain ⟨hdev, hstarted, hready⟩ := h.stage.read hh
  refine ⟨h.toQueue.handle hx, .marking b none hdev rfl hstarted hready fun herr hdirty => ?_⟩
  rcases hskip with hskip | hskip
  · simp [hskip] at hdirty
  · simp [hskip] at herr

/-- A request that `memide.c` accepts is for drive 1. -/
theorem Queue.drive_one {l : List B} {r : Sync B D} (h : Queue s q)
    (hpending : s.pending q = b :: l) (hreported : s.hist.reported = false)
    (hr : s.hist.sync = some r) : s.dev.block (s.buf b) = s.dev.disk 1 (s.buf b).blockno := by
  have hrun := h.agrees hreported r hr
  rw [hpending, Sync.run_cons] at hrun
  obtain ⟨r', hr', _⟩ := Option.bind_eq_some_iff.mp hrun
  have hdev : (s.buf b).dev = 1 := Sync.iderw_dev hr'
  rw [Device.block, hdev]

/-- The data of a read are put into the buffer of the request. -/
theorem Queue.load (h : Queue s q) (hh : s.hpc = .read b) (hdirty : (s.buf b).dirty = false)
    (hport : s.dev.port = s.dev.block (s.buf b)) :
    Queue { s with buf := Function.update s.buf b { s.buf b with data := s.dev.port } } q := by
  have hpending : s.pending q = b :: q := s.pending_eq hh q
  have hsynced : ∀ c, (Function.update s.buf b { s.buf b with data := s.dev.port } c).synced =
      (s.buf c).synced := by
    intro c
    by_cases hc : c = b
    · subst c
      rw [Function.update_self]
      rfl
    · rw [Function.update_of_ne hc]
  refine { h with
    unsynced := fun c hc => (hsynced c).trans (h.unsynced c hc)
    asking := fun p c hp => (hsynced c).trans (h.asking p c hp)
    finished := fun p c hp => ?_
    returned := fun p c hp => (hsynced c).trans (h.returned p c hp)
    agrees := fun hreported r hr => ?_ }
  · by_cases hc : c = b
    · subst c
      exact .inl (hpending ▸ List.mem_cons_self)
    · refine (h.finished p c hp).imp_right ?_
      rintro ⟨o, ho, hafter⟩
      exact ⟨o, ho, hafter.trans (Function.update_of_ne hc ..).symm⟩
  · have hdrive := h.drive_one hpending hreported hr
    rw [← h.agrees hreported r hr]
    change Sync.run _ (s.pending q) = _
    rw [hpending, Sync.run_cons, Sync.run_cons, hport, hdrive]
    exact congrArg (Option.bind · _) (Sync.iderw_load (r := ⟨s.dev.disk 1, s.buf⟩) hdirty)

theorem Inv.handler_load (h : Inv s q) (hh : s.hpc = .read b) (hdirty : (s.buf b).dirty = false)
    (herr : s.dev.err = false) :
    Inv { s with
      buf := Function.update s.buf b { s.buf b with data := s.dev.port }
      hpc := .mark b (some s.dev.port) } q := by
  have hlock := h.lockIntr.mp (by rw [hh]; rfl)
  obtain ⟨hdev, hstarted, hready⟩ := h.stage.read hh
  have hport := hready.read herr hdirty
  have hx : Handles { s with buf := Function.update s.buf b { s.buf b with data := s.dev.port } } q
      (.mark b (some s.dev.port)) s.lock s.idequeue q :=
    ⟨.inl rfl, by simp [Hpc.locked, hlock], (s.pending_eq hh q).symm, h.linked, .inl rfl⟩
  refine ⟨(h.toQueue.load hh hdirty hport).handle hx, .marking b _ hdev rfl hstarted ?_ ?_⟩
  · simp only [Function.update_self]
    exact ⟨hready.range, fun _ hwrite => absurd hwrite (by simp [hdirty]), hready.read⟩
  · simp only [Function.update_self]
    exact fun _ _ => ⟨rfl, hport⟩

omit [DecidableEq B] in
theorem Stage.mark {moved : Option D} (h : Stage s q) (hh : s.hpc = .mark b moved) :
    s.dev.Rests ∧ s.hist.started = s.completed ++ [b] ∧ Ready s.dev (s.buf b) ∧
      Moved s.dev (s.buf b) moved := by
  cases h with
  | marking c moved' hdev hh' hs hr hm =>
    obtain ⟨rfl, rfl⟩ := Hpc.mark.inj (hh.symm.trans hh')
    exact ⟨hdev, hs, hr, hm⟩
  | _ => simp_all

omit [DecidableEq B] in
/-- A request leaves what its caller should find, if and only if the device reported no error. -/
theorem outcome_right_iff {moved : Option D} (hmoved : Moved s.dev (s.buf b) moved) :
    (s.outcome b moved).Right ↔ (s.outcome b moved).err = false := by
  refine ⟨fun h => ?_, fun herr => ⟨fun hread _ => hmoved herr hread, ?_, ?_⟩⟩
  · by_contra herr
    rw [Bool.not_eq_false] at herr
    cases hwrite : (s.outcome b moved).write with
    | false => exact absurd (h.failedRead herr hwrite) Bool.true_eq_false.mp
    | true => exact absurd (h.failedWrite herr hwrite) Bool.false_eq_true.mp
  · exact fun h => absurd h (by simp [herr])
  · exact fun h => absurd h (by simp [herr])

/-- The state after the flags of `b` have been set. -/
def State.marked (s : State P B D) (b : B) (moved : Option D) : State P B D :=
  { s with
    buf := Function.update s.buf b (s.buf b).mark
    hpc := .wake b
    hist := { s.hist with done := s.hist.done ++ [s.outcome b moved] } }

theorem latest_marked_self (s : State P B D) (b : B) (moved : Option D) :
    (s.marked b moved).latest b = some (s.outcome b moved) := by
  simp [State.latest, State.marked, State.outcome]

theorem latest_marked_of_ne (s : State P B D) {b c : B} (moved : Option D) (h : c ≠ b) :
    (s.marked b moved).latest c = s.latest c := by
  simp [State.latest, State.marked, State.outcome, Ne.symm h]

theorem Queue.marked {moved : Option D} (h : Queue s q) (hh : s.hpc = .mark b moved)
    (hready : Ready s.dev (s.buf b)) (hmoved : Moved s.dev (s.buf b) moved) :
    Queue (s.marked b moved) q := by
  have hlock := h.lockIntr.mp (by rw [hh]; rfl)
  have hpending : s.pending q = b :: q := s.pending_eq hh q
  have hb : b ∈ s.pending q := hpending ▸ List.mem_cons_self
  have hsub : ∀ c ∈ q, c ∈ s.pending q := fun c hc => hpending ▸ List.mem_cons_of_mem b hc
  obtain ⟨hnot, hnodup⟩ := List.nodup_cons.mp (hpending ▸ h.nodup)
  have hother : ∀ c, c ≠ b → (s.marked b moved).buf c = s.buf c := fun c hc =>
    Function.update_of_ne hc ..
  have hself : (s.marked b moved).buf b = (s.buf b).mark := Function.update_self ..
  refine { h with
    lockIntr := ⟨fun _ => hlock, fun _ => rfl⟩
    nodup := hnodup
    waiting := fun c hc => h.waiting c (hsub c hc)
    unsynced := fun c hc => ?_
    asking := fun p c hp => ?_
    finished := fun p c hp => ?_
    returned := fun p c hp => ?_
    arrived := ?_
    right := ?_
    agrees := fun hreported r hr => ?_ }
  · rw [hother c fun heq => hnot (heq ▸ hc)]
    exact h.unsynced c (hsub c hc)
  · rw [hother c ?_]
    · exact h.asking p c hp
    · rintro rfl
      have hqueued : (s.pc p).queued = none := Pc.queued_of_asking hp
      exact h.not_pending (Pc.buf_of_asking hp) (by simp [hqueued]) hb
  · by_cases hc : c = b
    · subst c
      exact .inr ⟨_, latest_marked_self s b moved, hself.symm⟩
    · rcases h.finished p c hp with hmem | ⟨o, ho, hafter⟩
      · rw [hpending] at hmem
        exact .inl ((List.mem_cons.mp hmem).resolve_left hc)
      · exact .inr ⟨o, (latest_marked_of_ne s moved hc).trans ho, hafter.trans (hother c hc).symm⟩
  · by_cases hc : c = b
    · subst c
      rw [hself]
      rfl
    · rw [hother c hc]
      exact h.returned p c hp
  · change s.hist.arrived = (s.hist.done ++ [s.outcome b moved]).map Outcome.b ++ q
    rw [h.arrived, hpending, List.map_append, List.append_assoc]
    rfl
  · intro o ho
    rcases List.mem_append.mp ho with ho | ho
    · exact h.right o ho
    · obtain rfl := List.mem_singleton.mp ho
      exact outcome_right_iff hmoved
  · have hdrive := h.drive_one hpending hreported hr
    have herr := h.clean hreported
    have hrun := h.agrees hreported r hr
    rw [hpending, Sync.run_cons] at hrun
    obtain ⟨r', hr', hrest⟩ := Option.bind_eq_some_iff.mp hrun
    -- A write has put the data on the disk, and a read has got it from there.
    have hblock : s.dev.disk 1 (s.buf b).blockno = (s.buf b).data := by
      rw [← hdrive]
      cases hdirty : (s.buf b).dirty with
      | true => exact hready.write herr hdirty
      | false => exact (hmoved herr hdirty).2.symm
    rw [Sync.iderw_moved hr' hblock] at hrest
    exact hrest

theorem Inv.handler_mark {moved : Option D} (h : Inv s q) (hh : s.hpc = .mark b moved) :
    Inv (s.marked b moved) q := by
  obtain ⟨hdev, hstarted, hready, hmoved⟩ := h.stage.mark hh
  refine ⟨h.toQueue.marked hh hready hmoved, .waking hdev (.inl ⟨b, rfl⟩) ?_⟩
  change s.hist.started = (s.hist.done ++ [s.outcome b moved]).map Outcome.b
  rw [hstarted, List.map_append]
  rfl

end Handler

section Device

variable {P B D : Type} [DecidableEq B] {s s' : State P B D} {q : List B} {b : B}

omit [DecidableEq B] in
/-- The command under way is for the head of the queue. -/
theorem Stage.command {c : Cmd D} (h : Stage s q) (hcmd : s.dev.cmd = some c) :
    ∃ b l, c = (s.buf b).command ∧ s.dev.intr = false ∧ (s.hpc = .idle ∨ s.hpc = .release) ∧
      q = b :: l ∧ (∀ p, s.pc p ≠ .start b) ∧ s.hist.started = s.completed ++ [b] ∧
      (s.buf b).blockno < FSSIZE := by
  cases h with
  | running b l hcmd' hintr hh hq hst hs hr =>
    rw [hcmd, Option.some.injEq] at hcmd'
    exact ⟨b, l, hcmd', hintr, hh, hq, hst, hs, hr⟩
  | quiet hdev => simp [hdev.1] at hcmd
  | fresh _ _ _ hdev => simp [hdev.1] at hcmd
  | raised _ _ hcmd' => simp [hcmd'] at hcmd
  | handling _ _ hdev => simp [hdev.1] at hcmd
  | reading _ hdev => simp [hdev.1] at hcmd
  | marking _ _ hdev => simp [hdev.1] at hcmd
  | waking hdev => simp [hdev.1] at hcmd

/-- The device ends its command with an error. -/
theorem Inv.complete_err (h : Inv s q) (hcmd : s.dev.cmd.isSome) :
    Inv { s with
      dev := { s.dev with cmd := none, err := true, intr := true }
      hist := { s.hist with reported := true } } q := by
  obtain ⟨c, hc⟩ := Option.isSome_iff_exists.mp hcmd
  obtain ⟨b, l, -, hintr, hh, hq, hst, hs, hr⟩ := h.stage.command hc
  refine ⟨{ h with clean := nofun, agrees := nofun, answers := nofun }, ?_⟩
  exact .raised b l rfl rfl hh hq hst hs ⟨hr, nofun, nofun⟩

theorem Inv.complete_read {c : Cmd D} (h : Inv s q) (hcmd : s.dev.cmd = some c)
    (hread : c.write = false) :
    Inv { s with
      dev := { s.dev with
        cmd := none, err := false, intr := true, port := s.dev.disk c.drive c.lba } } q := by
  obtain ⟨b, l, rfl, hintr, hh, hq, hst, hs, hr⟩ := h.stage.command hcmd
  have hdirty : (s.buf b).dirty = false := hread
  refine ⟨{ h with clean := fun _ => rfl }, .raised b l rfl rfl hh hq hst hs ⟨hr, ?_, ?_⟩⟩
  · exact fun _ hwrite => absurd hwrite (by simp [hdirty])
  · intro _ _
    change s.dev.disk _ (lba (s.buf b).blockno) = s.dev.disk _ (s.buf b).blockno
    rw [lba_eq hr]
    rfl

theorem Inv.complete_write {c : Cmd D} (h : Inv s q) (hcmd : s.dev.cmd = some c)
    (hwrite : c.write = true) :
    Inv { s with
      dev := { s.dev with
        cmd := none, err := false, intr := true
        disk := Function.update s.dev.disk c.drive
          (Function.update (s.dev.disk c.drive) c.lba c.data) } } q := by
  obtain ⟨b, l, rfl, hintr, hh, hq, hst, hs, hr⟩ := h.stage.command hcmd
  have hdirty : (s.buf b).dirty = true := hwrite
  have hlba : (s.buf b).command.lba = (s.buf b).blockno := lba_eq hr
  refine ⟨{ h with clean := fun _ => rfl, agrees := fun hreported r hr => ?_ },
    .raised b l rfl rfl hh hq hst hs ⟨hr, ?_, ?_⟩⟩
  · have hpending : s.pending q = b :: l := by
      rcases hh with hh | hh
      · exact (s.pending_eq hh q).trans hq
      · exact (s.pending_eq hh q).trans hq
    have hrun := h.agrees hreported r hr
    rw [hpending, Sync.run_cons] at hrun
    obtain ⟨r', hr', _⟩ := Option.bind_eq_some_iff.mp hrun
    have hdrive : (s.buf b).command.drive = 1 := by
      change (s.buf b).dev % 2 = 1
      rw [show (s.buf b).dev = 1 from Sync.iderw_dev hr']
    change Sync.run _ (s.pending q) = some r
    rw [hpending, Sync.run_cons, hdrive, hlba, ← hrun]
    refine congrArg (Option.bind · _) ?_
    simp only [Function.update_self]
    exact Sync.iderw_store (r := ⟨s.dev.disk 1, s.buf⟩) hdirty
  · intro _ _
    simp only [Device.block, hlba]
    exact (congrFun (Function.update_self ..) _).trans (Function.update_self ..)
  · exact fun _ hread => absurd hread (by simp [hdirty])

end Device

section Buffers

variable {P B D : Type} [DecidableEq B] {s s' : State P B D} {q : List B} {p : P} {b : B}

/-- A buffer that no call of its holder uses has no request. -/
theorem Queue.unused (h : Queue s q) (hb : s.Unused b) (p : P) : (s.pc p).buf ≠ some b :=
  fun hp => hb p (h.own p b hp) hp

theorem Queue.unused_not_pending (h : Queue s q) (hb : s.Unused b) : b ∉ s.pending q := by
  intro hmem
  obtain ⟨p, hp⟩ := h.waiting b hmem
  exact h.unused hb p (Pc.buf_of_queued hp)

theorem Inv.lockbuf (h : Inv s q) (hb : s.holder b = none) :
    Inv { s with holder := Function.update s.holder b (some p) } q := by
  refine { h with own := fun p' c hp => ?_, stage := h.stage.congr (fun _ _ => rfl) rfl rfl rfl rfl rfl }
  have hown := h.own p' c hp
  refine (Function.update_of_ne ?_ ..).trans hown
  rintro rfl
  rw [hb] at hown
  cases hown

theorem Inv.unlockbuf (h : Inv s q) (hb : s.Unused b) :
    Inv { s with holder := Function.update s.holder b none } q := by
  refine { h with own := fun p c hp => ?_, stage := h.stage.congr (fun _ _ => rfl) rfl rfl rfl rfl rfl }
  refine (Function.update_of_ne ?_ ..).trans (h.own p c hp)
  rintro rfl
  exact h.unused hb p hp

theorem Inv.touch (h : Inv s q) (hb : s.Unused b) (x : Buf D) :
    Inv { s with
      buf := Function.update s.buf b x
      hist := { s.hist with sync := s.hist.sync.map fun r => r.touch b x } } q := by
  have hfree := h.unused_not_pending hb
  have hsame : ∀ c, c ≠ b → Function.update s.buf b x c = s.buf c := fun c hc =>
    Function.update_of_ne hc ..
  have hpending : ∀ c ∈ s.pending q, c ≠ b := fun c hc heq => hfree (heq ▸ hc)
  have hused : ∀ p c, (s.pc p).buf = some c → c ≠ b := fun p c hp heq => h.unused hb p (heq ▸ hp)
  refine { h with
    unsynced := fun c hc => ?_
    asking := fun p c hp => ?_
    finished := fun p c hp => ?_
    returned := fun p c hp => ?_
    agrees := fun hreported r hr => ?_
    answers := fun hreported hforeign => ?_
    stage := h.stage.congr (fun c hc => hsame c (hpending c hc)) rfl rfl rfl rfl rfl }
  · exact (congrArg Buf.synced (hsame c (hpending c hc))).trans (h.unsynced c hc)
  · exact (congrArg Buf.synced (hsame c (hused p c (Pc.buf_of_asking hp)))).trans (h.asking p c hp)
  · have hbuf : (s.pc p).buf = some c := by
      rcases hp with hp | hp
      · exact Pc.buf_of_queued hp
      · exact congrArg Pc.buf hp
    refine (h.finished p c hp).imp_right ?_
    rintro ⟨o, ho, hafter⟩
    exact ⟨o, ho, hafter.trans (hsame c (hused p c hbuf)).symm⟩
  · exact (congrArg Buf.synced (hsame c (hused p c (congrArg Pc.buf hp)))).trans (h.returned p c hp)
  · obtain ⟨r₀, hr₀, rfl⟩ := Option.map_eq_some_iff.mp hr
    have hrun := Sync.run_touch ⟨s.dev.disk 1, s.buf⟩ hfree x
    rw [h.agrees hreported r₀ hr₀] at hrun
    exact hrun
  · exact Option.isSome_map.trans (h.answers hreported hforeign)

end Buffers

end Chameleon.Ide
