import Chameleon.Proc.Claims

/-! Who `kill` reaches. A slot is *fresh* until its fork has made it runnable: `kill` finds
slots by `pid` alone, `allocproc` and `fork` leave both `pid` and `killed` behind when they
give a slot back, so a flag set on a fresh slot survives into a later process. -/

namespace Chameleon.Ptable
open Machine

/-- The table at every step boundary: which slot runs where, who has claimed an embryo, and
that no fresh slot carries a kill. -/
structure Wf (t : Table) : Prop extends Claims t where
  clean : ∀ p, Fresh (t.proc p) → (t.proc p).killed = false

/-- No slot before its fork's end carries a kill. -/
def Clean (q : Proc) : Prop := Fresh q → q.killed = false

theorem Woken.clean {q q' : Proc} (h : Woken q q') (hq : Clean q) : Clean q' := by
  rcases h with rfl | ⟨-, rfl⟩
  · exact hq
  · intro hf
    rcases hf with hf | hf <;> cases hf

section Kill
variable {t : Table} {c : Fin NCPU} {cur : Slot}

theorem clean_update {proc : Slot → Proc} {p : Slot} {x : Proc} (h : ∀ q, Clean (proc q))
    (hx : Clean x) (q : Slot) : Clean (Function.update proc p x q) := by
  by_cases hq : q = p
  · subst hq; rwa [Function.update_self]
  · rw [Function.update_of_ne hq]; exact h q

theorem clean_of_not {q : Proc} (h : ¬ Fresh q) : Clean q := fun hf => absurd hf h

theorem clean_waitPass (h : ∀ q, Clean (t.proc q)) (p : Slot) :
    Clean ((waitPass t c cur).2.proc p) := by
  unfold waitPass
  split
  · exact clean_update h (fun _ => rfl) p
  · split_ifs
    · exact h p
    · refine clean_update h ?_ p
      exact clean_of_not (by simp [Fresh])

theorem clean_schedule (h : ∀ q, Clean (t.proc q)) (s p : Slot) :
    Clean ((schedule t c s).proc p) := by
  have hrun := clean_update (p := s) (x := { t.proc s with state := .running, chan := none }) h
    (clean_of_not (by simp [Fresh]))
  unfold schedule
  split_ifs
  · exact clean_waitPass (t := dispatch t c s) hrun p
  · exact hrun p

theorem clean_exit (h : ∀ q, Clean (t.proc q)) (p : Slot) : Clean ((exit t c cur).proc p) := by
  by_cases hp : p = cur
  · subst hp
    rw [exit_proc_self]
    exact clean_of_not (by simp [Fresh])
  · rw [exit_proc_of_ne t c hp]
    exact (leaving_woken t cur p).clean (h p)

/-- `kill(pid)` is not made while the first slot with that `pid` is unused or still being
forked. -/
def KillsLive (t : Table) : Event → Prop
  | .kill _ pid => ∀ p, t.scan (·.pid == pid) = some p → ¬ Fresh (t.proc p)
  | _ => True

/-- A kill is the only step that could mark a fresh slot. -/
theorem Wf.step {t' : Table} {e : Event} (h : Wf t) (hlive : KillsLive t e)
    (hs : step t e = some t') : Wf t' := by
  have hclaimed : ∀ {p np pc}, t.pc p = pc → pc.claim = some np → (t.proc np).killed = false :=
    fun hpc hcl => h.clean _ (.inr (h.claimed _ _ ((congrArg _ hpc).trans hcl)))
  refine ⟨h.toClaims.step hs, ?_⟩
  cases Move.of_step hs with
  | schedule _ _ => exact clean_schedule h.clean _
  | wakeup chan => exact fun p => (wakeup1_woken t chan p).clean (h.clean p)
  | yield _ =>
    refine clean_update h.clean ?_
    exact clean_of_not (by simp [Fresh])
  | sleep a _ _ =>
    refine clean_update h.clean ?_
    exact clean_of_not (by simp [Fresh])
  | noSlot => exact h.clean
  | fork _ _ ha =>
    obtain ⟨hun, rfl⟩ := allocproc_eq_some ha
    refine clean_update h.clean ?_
    exact fun _ => h.clean _ (.inl hun)
  | noStack _ hpc =>
    refine clean_update h.clean ?_
    exact fun _ => hclaimed hpc rfl
  | stack k _ hpc =>
    refine clean_update h.clean ?_
    exact fun _ => hclaimed hpc rfl
  | noPages _ hpc =>
    refine clean_update h.clean ?_
    exact fun _ => hclaimed hpc rfl
  | pages d _ hpc =>
    refine clean_update h.clean ?_
    exact fun _ => hclaimed hpc rfl
  | forkEnd _ hpc =>
    refine clean_update h.clean ?_
    exact fun _ => hclaimed hpc rfl
  | exit _ _ _ => exact clean_exit h.clean
  | wait _ _ => exact clean_waitPass h.clean
  | kill pid _ _ =>
    -- `kill` does not look at the state of the slot; `hlive` says that it is no fresh one.
    unfold Ptable.kill
    split
    · exact h.clean
    · next p hscan =>
      exact clean_update h.clean fun hf => absurd hf fun hf' => hlive p hscan (by
        rcases hf' with hf' | hf' <;> simp only [markKilled] at hf' <;> split_ifs at hf' <;>
          simp_all [Fresh])
  | trap hcur _ =>
    exact clean_update h.clean (clean_of_not (by simp [Fresh, h.running _ _ hcur]))

theorem wf_afterUserinit (d k : Nat) : Wf (afterUserinit d k) := by
  refine ⟨claims_afterUserinit d k, fun p _ => ?_⟩
  simp only [afterUserinit, Function.update_apply]
  split_ifs <;> rfl

theorem wf_of_reach (h : Reach step Init KillsLive t) : Wf t :=
  h.invariant (fun _ ⟨d, k, ht⟩ => ht ▸ wf_afterUserinit d k) fun _ _ _ hw hok hs => hw.step hok hs

/-- `kill(pid)` succeeds exactly on a slot in use, and changes that slot only. -/
def KillExact (t : Table) (pid : Int32) : Prop :=
  ((kill t pid).1 = 0 ↔ ∃ p, (t.proc p).state ≠ .unused ∧ (t.proc p).pid = pid) ∧
  ((kill t pid).1 = 0 → ∃ p f, (t.proc p).state ≠ .unused ∧ (t.proc p).pid = pid ∧
    (kill t pid).2 = t.setProc p f)

/-- No unused slot carries a kill, no process starts with one, and `kill` is exact for
every `pid` that satisfies `ok`. -/
def KillsOnlyLive (ok : Int32 → Prop) (t : Table) : Prop :=
  (∀ p, (t.proc p).state = .unused → (t.proc p).killed = false) ∧
  (∀ c cur np t', t.cpu c = some cur → t.pc cur = .forkEnd np →
    step t (.forkEnd c) = some t' → (t'.proc np).killed = false) ∧
  ∀ pid, ok pid → KillExact t pid

theorem killExact_of_live (t : Table) {pid : Int32}
    (hlive : ∀ p, t.scan (·.pid == pid) = some p → ¬ Fresh (t.proc p)) : KillExact t pid := by
  unfold KillExact kill
  cases hscan : t.scan (·.pid == pid) with
  | none =>
    have hno : ∀ p, (t.proc p).pid ≠ pid := by
      intro p
      simpa using List.find?_eq_none.mp hscan p (List.mem_finRange p)
    refine ⟨⟨fun h => by simp at h, fun ⟨p, _, hp⟩ => absurd hp (hno p)⟩, fun h => by simp at h⟩
  | some p =>
    have hp : (t.proc p).pid = pid := by simpa using List.find?_some hscan
    have hun : (t.proc p).state ≠ .unused := fun hu => hlive p hscan (.inl hu)
    exact ⟨⟨fun _ => ⟨p, hun, hp⟩, fun _ => rfl⟩, fun _ => ⟨p, _, hun, hp, rfl⟩⟩

/-- In a run whose kills all find a slot that is past its fork, `kill` reaches only live
processes, and no process starts with a kill meant for another one. -/
theorem kill_reaches_only_live (h : Reach step Init KillsLive t) :
    KillsOnlyLive (fun pid => ∀ c, KillsLive t (.kill c pid)) t := by
  have hw := wf_of_reach h
  refine ⟨fun p hp => hw.clean p (.inl hp), fun c cur np t' hcpu hpc hs => ?_, fun pid hok => ?_⟩
  · have he := hw.clean np (.inr (hw.claimed cur np (by rw [hpc]; rfl)))
    simp only [step, Event.cpu, hcpu, stepOf, hpc, Option.some.injEq] at hs
    simpa [← hs, TableOf.setProc, TableOf.setPc] using he
  · exact killExact_of_live t (hok 0)

instance (t : Table) : DecidablePred (KillsLive t) := fun e =>
  match e with
  | .kill _ pid => inferInstanceAs (Decidable (∀ p, t.scan (·.pid == pid) = some p → ¬ Fresh (t.proc p)))
  | .schedule .. | .yield .. | .sleep .. | .wakeup .. | .fork .. | .kalloc .. | .copyuvm ..
  | .forkEnd .. | .exit .. | .wait .. | .trap .. => inferInstanceAs (Decidable True)

/-- init forks twice, the second time without memory for a page directory, and then kills
its first child. -/
def forkForkKill : List Event :=
  [.schedule 0 0, .fork 0, .kalloc 0 (some 3), .copyuvm 0 (some 4), .forkEnd 0,
    .fork 0, .kalloc 0 (some 5), .copyuvm 0 none, .kill 0 2]

theorem kill_reaches_only_live_forkForkKill :
    ∃ t, exec step (afterUserinit 1 2) forkForkKill = some t ∧ (t.proc 1).killed = true ∧
      KillsOnlyLive (fun pid => ∀ c, KillsLive t (.kill c pid)) t := by
  have hrun : (exec step (afterUserinit 1 2) forkForkKill).isSome = true := by decide
  refine ⟨_, (Option.some_get hrun).symm, rfl, kill_reaches_only_live ?_⟩
  exact (Reach.start ⟨1, 2, rfl⟩).exec forkForkKill (by decide) (Option.some_get hrun).symm

/-- `kill(0)` right after boot finds an unused slot, whose `pid` field is still zero. -/
theorem kill_reaches_unused :
    ¬ ∀ t, Reach step Init Any t → KillsOnlyLive (fun _ => True) t := by
  intro h
  have hrun : (exec step (afterUserinit 1 2) [.schedule 0 0, .kill 0 0]).isSome = true := by decide
  have hboot : Reach step Init Any (afterUserinit 1 2) := Reach.start ⟨1, 2, rfl⟩
  have hreach := hboot.exec [.schedule 0 0, .kill 0 0] (.any _ _) (Option.some_get hrun).symm
  exact Bool.noConfusion ((h _ hreach).1 1 rfl)

end Kill

end Chameleon.Ptable
