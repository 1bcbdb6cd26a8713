import Chameleon.Lib.Machine
import Chameleon.Proc.Table

/-! Which slot runs on which CPU, and which fork has claimed which embryo. Both hold in every run,
whatever the kills in it do; the facts about single fields of a slot are built over them. -/

namespace Chameleon.Ptable
open Machine

/-- A slot whose fork has not made it runnable. -/
def Fresh (q : Proc) : Prop := q.state = .unused ∨ q.state = .embryo

instance (q : Proc) : Decidable (Fresh q) := inferInstanceAs (Decidable (_ ∨ _))

/-- The slot that a fork in progress has claimed. -/
def Pc.claim : Pc → Option Slot
  | .user | .wait => none
  | .allocproc np | .copyuvm np | .forkEnd np => some np

structure Claims {C : Type} (t : TableOf C) : Prop where
  running : ∀ c p, t.cpu c = some p → (t.proc p).state = .running
  inj : ∀ c c' p, t.cpu c = some p → t.cpu c' = some p → c = c'
  claimed : ∀ p np, (t.pc p).claim = some np → (t.proc np).state = .embryo
  claimOne : ∀ p p' np, (t.pc p).claim = some np → (t.pc p').claim = some np → p = p'

/-- What a stretch run by another process can do to the state of a slot. -/
structure Gentle (q q' : Proc) : Prop where
  fresh : Fresh q → q'.state = q.state
  running : q.state = .running → q'.state = .running

theorem Gentle.of_state {q q' : Proc} (h : q'.state = q.state) : Gentle q q' :=
  ⟨fun _ => h, fun hr => h.trans hr⟩

theorem Gentle.refl (q : Proc) : Gentle q q := .of_state rfl

theorem Gentle.trans {q₁ q₂ q₃ : Proc} (h : Gentle q₁ q₂) (h' : Gentle q₂ q₃) : Gentle q₁ q₃ := by
  refine ⟨fun hf => ?_, fun hr => h'.running (h.running hr)⟩
  have hs := h.fresh hf
  have hf₂ : Fresh q₂ := by simpa only [Fresh, hs] using hf
  exact (h'.fresh hf₂).trans hs

/-- A slot that is neither fresh nor running may change in any way. -/
theorem Gentle.of_not {q q' : Proc} (hf : ¬ Fresh q) (hr : q.state ≠ .running) : Gentle q q' :=
  ⟨fun h => absurd h hf, fun h => absurd h hr⟩

section Steps
variable {C : Type} {t t' : TableOf C}

/-- A step that leaves CPUs and claims alone and treats every slot gently. -/
theorem Claims.of_gentle (h : Claims t) (hp : ∀ p, Gentle (t.proc p) (t'.proc p))
    (hc : t'.cpu = t.cpu) (hpc : ∀ p, (t'.pc p).claim = (t.pc p).claim) : Claims t' where
  running c p hcp := (hp p).running (h.running c p (hc ▸ hcp))
  inj c c' p h₁ h₂ := h.inj c c' p (hc ▸ h₁) (hc ▸ h₂)
  claimed p np hcl := by
    have he := h.claimed p np ((hpc p).symm.trans hcl)
    rw [(hp np).fresh (.inr he), he]
  claimOne p p' np h₁ h₂ := h.claimOne p p' np ((hpc p).symm.trans h₁) ((hpc p').symm.trans h₂)

/-- A fork moves its claimed slot `np`, and its own claim, by one stage. -/
theorem Claims.claimStep {cur np : Slot} {f : Proc → Proc} {pc' : Pc} (h : Claims t)
    (hcl : (t.pc cur).claim = some np)
    (hs : (f (t.proc np)).state = .embryo ∧ pc'.claim = some np ∨
      (f (t.proc np)).state ≠ .running ∧ pc'.claim = none) :
    Claims ((t.setProc np f).setPc cur pc') := by
  have he := h.claimed cur np hcl
  have hclaim : ∀ p q, ((Function.update t.pc cur pc') p).claim = some q →
      (p = cur ∧ q = np ∧ (f (t.proc np)).state = .embryo) ∨
      (p ≠ cur ∧ (t.pc p).claim = some q ∧ q ≠ np) := by
    intro p q hpq
    by_cases hp : p = cur
    · subst hp
      rw [Function.update_self] at hpq
      rcases hs with ⟨hs, hc⟩ | ⟨-, hc⟩ <;> rw [hc] at hpq
      · exact .inl ⟨rfl, (Option.some.inj hpq).symm, hs⟩
      · cases hpq
    · rw [Function.update_of_ne hp] at hpq
      exact .inr ⟨hp, hpq, fun hq => hp (h.claimOne p cur np (hq ▸ hpq) hcl)⟩
  refine ⟨fun c p hcp => ?_, h.inj, fun p q hpq => ?_, fun p p' q h₁ h₂ => ?_⟩
  · have hrun := h.running c p hcp
    have hne : p ≠ np := by rintro rfl; rw [hrun] at he; cases he
    simpa [TableOf.setProc, TableOf.setPc, Function.update_of_ne hne] using hrun
  · rcases hclaim p q hpq with ⟨-, rfl, hs⟩ | ⟨-, hold, hne⟩
    · simpa [TableOf.setProc, TableOf.setPc] using hs
    · simpa [TableOf.setProc, TableOf.setPc, Function.update_of_ne hne] using h.claimed p q hold
  · rcases hclaim p q h₁ with ⟨rfl, rfl, -⟩ | ⟨-, hold, hne⟩
    · rcases hclaim p' q h₂ with ⟨rfl, -, -⟩ | ⟨-, -, hne⟩
      · rfl
      · exact absurd rfl hne
    · rcases hclaim p' q h₂ with ⟨-, rfl, -⟩ | ⟨-, hold', -⟩
      · exact absurd rfl hne
      · exact h.claimOne p p' q hold hold'

/-- `allocproc` turns an unused slot into an embryo. -/
theorem allocproc_eq_some {np : Slot} (ha : allocproc t = some (np, t')) :
    (t.proc np).state = .unused ∧ t' = { t.setProc np (fun q =>
      { q with state := .embryo, pid := t.nextpid }) with nextpid := t.nextpid + 1 } := by
  obtain ⟨p, hscan, hp⟩ := Option.map_eq_some_iff.mp ha
  obtain ⟨rfl, rfl⟩ := Prod.mk.inj hp
  exact ⟨by simpa using List.find?_some hscan, rfl⟩

/-- The embryo that `allocproc` returns is claimed by its caller only. -/
theorem Claims.allocproc {cur np : Slot} (h : Claims t)
    (ha : allocproc t = some (np, t')) : Claims (t'.setPc cur (.allocproc np)) := by
  obtain ⟨hun, rfl⟩ := allocproc_eq_some ha
  have hnone : ∀ q, (t.pc q).claim ≠ some np := by
    intro q hq
    have he := h.claimed q np hq
    rw [hun] at he
    cases he
  refine ⟨fun c q hcq => ?_, h.inj, fun q n hq => ?_, fun q q' n h₁ h₂ => ?_⟩
  · have hrun := h.running c q hcq
    have hne : q ≠ np := by rintro rfl; rw [hrun] at hun; cases hun
    simpa [TableOf.setProc, TableOf.setPc, Function.update_of_ne hne] using hrun
  · by_cases hqc : q = cur
    · subst hqc
      obtain rfl : np = n := by simpa [TableOf.setPc, Pc.claim] using hq
      simp [TableOf.setProc, TableOf.setPc]
    · have hold : (t.pc q).claim = some n := by
        simpa [TableOf.setProc, TableOf.setPc, Function.update_of_ne hqc] using hq
      have hne : n ≠ np := by rintro rfl; exact hnone q hold
      simpa [TableOf.setProc, TableOf.setPc, Function.update_of_ne hne] using h.claimed q n hold
  · have hsplit : ∀ q, ((Function.update t.pc cur (.allocproc np)) q).claim = some n →
        q = cur ∧ n = np ∨ (t.pc q).claim = some n := by
      intro q hq
      by_cases hqc : q = cur
      · subst hqc
        exact .inl ⟨rfl, by simpa [Pc.claim, eq_comm] using hq⟩
      · exact .inr (by simpa [Function.update_of_ne hqc] using hq)
    rcases hsplit q h₁ with ⟨rfl, rfl⟩ | hold
    · rcases hsplit q' h₂ with ⟨rfl, -⟩ | hold'
      · rfl
      · exact absurd hold' (hnone q')
    · rcases hsplit q' h₂ with ⟨-, rfl⟩ | hold'
      · exact absurd hold (hnone q)
      · exact h.claimOne q q' n hold hold'

end Steps

section Cpus
variable {t t' : Table}

/-- The process on CPU `c` gives up the CPU. -/
theorem Claims.leave {c : Fin NCPU} {cur : Slot} (h : Claims t) (hcur : t.cpu c = some cur)
    (hp : ∀ p, p ≠ cur → Gentle (t.proc p) (t'.proc p))
    (hc : t'.cpu = Function.update t.cpu c none)
    (hpc : ∀ p, (t'.pc p).claim = (t.pc p).claim) : Claims t' := by
  have hrun := h.running c cur hcur
  have hother : ∀ c' p, t'.cpu c' = some p → t.cpu c' = some p ∧ p ≠ cur := by
    intro c' p hcp
    rw [hc] at hcp
    by_cases hcc : c' = c
    · simp [hcc] at hcp
    · rw [Function.update_of_ne hcc] at hcp
      exact ⟨hcp, fun hpe => hcc (h.inj c' c cur (hpe ▸ hcp) hcur)⟩
  refine ⟨fun c' p hcp => ?_, fun c' c'' p h₁ h₂ => ?_, fun p np hcl => ?_,
    fun p p' np h₁ h₂ => ?_⟩
  · obtain ⟨hold, hne⟩ := hother c' p hcp
    exact (hp p hne).running (h.running c' p hold)
  · exact h.inj c' c'' p (hother c' p h₁).1 (hother c'' p h₂).1
  · have he := h.claimed p np ((hpc p).symm.trans hcl)
    have hne : np ≠ cur := by rintro rfl; rw [hrun] at he; cases he
    rw [(hp np hne).fresh (.inr he), he]
  · exact h.claimOne p p' np ((hpc p).symm.trans h₁) ((hpc p').symm.trans h₂)

/-- The scheduler of an idle CPU `c` takes up the runnable process `p`. -/
theorem Claims.enter {c : Fin NCPU} {p : Slot} (h : Claims t) (hidle : t.cpu c = none)
    (hrun : (t.proc p).state = .runnable) (f : Proc → Proc)
    (hf : (f (t.proc p)).state = .running) : Claims ((t.setProc p f).setCpu c (some p)) := by
  have hproc : ∀ q, q ≠ p → ((t.setProc p f).setCpu c (some p)).proc q = t.proc q :=
    fun q hq => Function.update_of_ne hq _ _
  have hself : (((t.setProc p f).setCpu c (some p)).proc p).state = .running := by
    simpa [TableOf.setProc, TableOf.setCpu] using hf
  have hcpu : ∀ c' q, ((t.setProc p f).setCpu c (some p)).cpu c' = some q →
      (c' = c ∧ q = p) ∨ (c' ≠ c ∧ t.cpu c' = some q ∧ q ≠ p) := by
    intro c' q hcq
    by_cases hcc : c' = c
    · refine .inl ⟨hcc, ?_⟩
      simpa [TableOf.setProc, TableOf.setCpu, hcc, eq_comm] using hcq
    · have hold : t.cpu c' = some q := by
        simpa [TableOf.setProc, TableOf.setCpu, Function.update_of_ne hcc] using hcq
      refine .inr ⟨hcc, hold, ?_⟩
      rintro rfl
      rw [h.running c' q hold] at hrun
      cases hrun
  refine ⟨fun c' q hcq => ?_, fun c' c'' q h₁ h₂ => ?_, fun q np hcl => ?_, h.claimOne⟩
  · rcases hcpu c' q hcq with ⟨-, rfl⟩ | ⟨-, hold, hne⟩
    · exact hself
    · rw [hproc q hne]
      exact h.running c' q hold
  · rcases hcpu c' q h₁ with ⟨rfl, rfl⟩ | ⟨hc', hold, hne⟩
    · rcases hcpu c'' q h₂ with ⟨rfl, -⟩ | ⟨-, -, hne⟩
      · rfl
      · exact absurd rfl hne
    · rcases hcpu c'' q h₂ with ⟨-, rfl⟩ | ⟨-, hold', -⟩
      · exact absurd rfl hne
      · exact h.inj c' c'' q hold hold'
  · have he := h.claimed q np hcl
    rw [hproc np (by rintro rfl; rw [hrun] at he; cases he), he]

end Cpus

/-- The steps of the table, each with the place its kernel thread stands at. -/
inductive Move (t : Table) : Event → Table → Prop
  | schedule {c p} (hidle : t.cpu c = none) (hrun : (t.proc p).state = .runnable) :
      Move t (.schedule c p) (schedule t c p)
  | wakeup (chan) : Move t (.wakeup chan) (wakeup1 t chan)
  | yield {c cur} (hcur : t.cpu c = some cur) :
      Move t (.yield c) ((t.setProc cur fun q => { q with state := .runnable }).setCpu c none)
  | sleep {c cur} (a) (hcur : t.cpu c = some cur) (hpc : t.pc cur = .user) :
      Move t (.sleep c a) (sleep t c cur (.addr a))
  | noSlot {c cur} (hcur : t.cpu c = some cur) (hpc : t.pc cur = .user) : Move t (.fork c) t
  | fork {c cur np t₁} (hcur : t.cpu c = some cur) (hpc : t.pc cur = .user)
      (ha : allocproc t = some (np, t₁)) : Move t (.fork c) (t₁.setPc cur (.allocproc np))
  | noStack {c cur np} (hcur : t.cpu c = some cur) (hpc : t.pc cur = .allocproc np) :
      Move t (.kalloc c none)
        ((t.setProc np fun q => { q with kstack := none, state := .unused }).setPc cur .user)
  | stack {c cur np} (k) (hcur : t.cpu c = some cur) (hpc : t.pc cur = .allocproc np) :
      Move t (.kalloc c (some k))
        ((t.setProc np fun q => { q with kstack := some k }).setPc cur (.copyuvm np))
  | noPages {c cur np} (hcur : t.cpu c = some cur) (hpc : t.pc cur = .copyuvm np) :
      Move t (.copyuvm c none) ((t.setProc np fun q =>
        { q with pgdir := none, kstack := none, state := .unused }).setPc cur .user)
  | pages {c cur np} (d) (hcur : t.cpu c = some cur) (hpc : t.pc cur = .copyuvm np) :
      Move t (.copyuvm c (some d)) ((t.setProc np fun q =>
        { q with pgdir := some d, sz := (t.proc cur).sz, parent := some cur }).setPc cur
          (.forkEnd np))
  | forkEnd {c cur np} (hcur : t.cpu c = some cur) (hpc : t.pc cur = .forkEnd np) :
      Move t (.forkEnd c)
        ((t.setProc np fun q => { q with state := .runnable }).setPc cur .user)
  | exit {c cur} (hcur : t.cpu c = some cur) (hpc : t.pc cur = .user) (hne : cur ≠ t.initproc) :
      Move t (.exit c) (exit t c cur)
  | wait {c cur} (hcur : t.cpu c = some cur) (hpc : t.pc cur = .user) :
      Move t (.wait c) (waitPass t c cur).2
  | kill {c cur} (pid) (hcur : t.cpu c = some cur) (hpc : t.pc cur = .user) :
      Move t (.kill c pid) (kill t pid).2
  | trap {c cur} (hcur : t.cpu c = some cur) (hpc : t.pc cur = .user) :
      Move t (.trap c) (t.setProc cur fun q => { q with killed := true })

section Moves
variable {t t' : Table} {c : Fin NCPU} {cur : Slot}

theorem Move.of_stepOf {e : Event} (hcur : t.cpu c = some cur) (he : e.cpu = some c)
    (hs : stepOf t c cur (t.pc cur) e = some t') : Move t e t' := by
  generalize hpc : t.pc cur = pc at hs
  cases pc <;> cases e <;> simp only [Event.cpu, Option.some.injEq, reduceCtorEq] at he <;> subst he <;>
    simp only [stepOf, Option.some.injEq, reduceCtorEq] at hs
  case user.yield | allocproc.yield | copyuvm.yield | forkEnd.yield | wait.yield => exact hs ▸ .yield hcur
  case user.sleep a => exact hs ▸ .sleep a hcur hpc
  case user.fork =>
    split at hs <;> cases hs
    · exact .noSlot hcur hpc
    · exact .fork hcur hpc ‹_›
  case user.exit =>
    split_ifs at hs with hne
    exact Option.some.inj hs ▸ .exit hcur hpc hne
  case user.wait => exact hs ▸ .wait hcur hpc
  case user.kill pid => exact hs ▸ .kill pid hcur hpc
  case user.trap => exact hs ▸ .trap hcur hpc
  case allocproc.kalloc np r =>
    cases r with
    | none => exact Option.some.inj hs ▸ .noStack hcur hpc
    | some k => exact Option.some.inj hs ▸ .stack k hcur hpc
  case copyuvm.copyuvm np r =>
    cases r with
    | none => exact Option.some.inj hs ▸ .noPages hcur hpc
    | some d => exact Option.some.inj hs ▸ .pages d hcur hpc
  case forkEnd.forkEnd np => exact hs ▸ .forkEnd hcur hpc

theorem Move.of_step {e : Event} (hs : step t e = some t') : Move t e t' := by
  have hcpu : ∀ e : Event, (∀ c, e.cpu = some c → ∀ cur, t.cpu c = some cur →
      stepOf t c cur (t.pc cur) e = some t' → Move t e t') :=
    fun e c he cur hcur => Move.of_stepOf hcur he
  cases e with
  | schedule c p =>
    simp only [step] at hs
    split_ifs at hs with hc
    exact Option.some.inj hs ▸ .schedule hc.1 hc.2
  | wakeup chan => exact Option.some.inj hs ▸ .wakeup chan
  | _ =>
    simp only [step, Event.cpu] at hs
    split at hs
    · cases hs
    · exact hcpu _ _ rfl _ ‹_› hs

end Moves

/-- A slot that a wakeup may have made runnable. -/
def Woken (q q' : Proc) : Prop :=
  q' = q ∨ q.state = .sleeping ∧ q' = { q with state := .runnable }

theorem Woken.trans {q₁ q₂ q₃ : Proc} (h : Woken q₁ q₂) (h' : Woken q₂ q₃) : Woken q₁ q₃ := by
  rcases h with rfl | ⟨hs, rfl⟩
  · exact h'
  · rcases h' with rfl | ⟨hs', -⟩
    · exact .inr ⟨hs, rfl⟩
    · cases hs'

theorem Woken.gentle {q q' : Proc} (h : Woken q q') : Gentle q q' := by
  rcases h with rfl | ⟨hs, rfl⟩
  · exact .refl _
  · exact .of_not (by simp [Fresh, hs]) (by simp [hs])

theorem Woken.parent_eq {q q' : Proc} (h : Woken q q') : q'.parent = q.parent := by
  rcases h with rfl | ⟨-, rfl⟩ <;> rfl

section Woken
variable {C : Type}

theorem wakeup1_woken (t : TableOf C) (chan : Chan) (p : Slot) :
    Woken (t.proc p) ((wakeup1 t chan).proc p) := by
  simp only [wakeup1]
  split_ifs with h
  · exact .inr ⟨h.1, rfl⟩
  · exact .inl rfl

theorem wakeParent_woken (t : TableOf C) (cur p : Slot) :
    Woken (t.proc p) ((wakeParent t cur).proc p) := by
  unfold wakeParent
  split
  · exact wakeup1_woken t _ p
  · exact .inl rfl

/-- A slot after `exit` of `cur` has looked for its children. -/
def adopted (t : TableOf C) (cur : Slot) (q : Proc) : Proc :=
  { q with parent := if q.parent = some cur then some t.initproc else q.parent }

theorem reparent_eq (t : TableOf C) (cur : Slot) (t₁ : TableOf C)
    (h : t₁ = { t with proc := fun p =>
      (if (t.proc p).parent = some cur then { t.proc p with parent := some t.initproc }
        else t.proc p) }) :
    reparent t cur = if ∃ p, (t.proc p).parent = some cur ∧ (t.proc p).state = .zombie then
      wakeup1 t₁ (.proc t.initproc) else t₁ := by
  subst h
  rfl

theorem reparent_woken (t : TableOf C) (cur p : Slot) :
    Woken (adopted t cur (t.proc p)) ((reparent t cur).proc p) := by
  obtain ⟨t₁, ht₁⟩ : ∃ t₁ : TableOf C, t₁ = { t with proc := fun p =>
      (if (t.proc p).parent = some cur then { t.proc p with parent := some t.initproc }
        else t.proc p) } := ⟨_, rfl⟩
  have hpar : adopted t cur (t.proc p) = t₁.proc p := by
    simp only [adopted, ht₁]
    split_ifs <;> rfl
  rw [reparent_eq t cur t₁ ht₁, hpar]
  split_ifs
  · exact wakeup1_woken t₁ _ p
  · exact .inl rfl

@[simp] theorem wakeParent_cpu (t : TableOf C) (cur : Slot) : (wakeParent t cur).cpu = t.cpu := by
  unfold wakeParent; split <;> rfl
@[simp] theorem wakeParent_pc (t : TableOf C) (cur : Slot) : (wakeParent t cur).pc = t.pc := by
  unfold wakeParent; split <;> rfl
@[simp] theorem wakeParent_initproc (t : TableOf C) (cur : Slot) :
    (wakeParent t cur).initproc = t.initproc := by
  unfold wakeParent; split <;> rfl

@[simp] theorem reparent_cpu (t : TableOf C) (cur : Slot) : (reparent t cur).cpu = t.cpu := by
  simp only [reparent]; split_ifs <;> rfl
@[simp] theorem reparent_pc (t : TableOf C) (cur : Slot) : (reparent t cur).pc = t.pc := by
  simp only [reparent]; split_ifs <;> rfl
@[simp] theorem reparent_initproc (t : TableOf C) (cur : Slot) :
    (reparent t cur).initproc = t.initproc := by
  simp only [reparent]; split_ifs <;> rfl

/-- What `exit` does to every slot before it marks the caller. -/
theorem leaving_woken (t : TableOf C) (cur p : Slot) :
    Woken (adopted t cur (t.proc p)) ((reparent (wakeParent t cur) cur).proc p) := by
  have hadopt : Woken (adopted t cur (t.proc p))
      (adopted (wakeParent t cur) cur ((wakeParent t cur).proc p)) := by
    simp only [adopted, wakeParent_initproc]
    rcases wakeParent_woken t cur p with h | ⟨hs, h⟩ <;> rw [h]
    · exact .inl rfl
    · exact .inr ⟨hs, rfl⟩
  exact hadopt.trans (reparent_woken _ cur p)

/-- The zombie child that a pass of `wait` has found. -/
theorem scan_zombie {t : TableOf C} {cur p : Slot}
    (h : t.scan (fun q => q.parent == some cur && q.state == .zombie) = some p) :
    (t.proc p).parent = some cur ∧ (t.proc p).state = .zombie := by
  simpa using List.find?_some h

end Woken

theorem exit_proc_of_ne (t : Table) (c : Fin NCPU) {cur p : Slot} (h : p ≠ cur) :
    (exit t c cur).proc p = (reparent (wakeParent t cur) cur).proc p :=
  Function.update_of_ne h _ _

theorem exit_gentle (t : Table) (c : Fin NCPU) {cur p : Slot} (h : p ≠ cur) :
    Gentle (t.proc p) ((exit t c cur).proc p) := by
  have hadopt : Gentle (t.proc p) (adopted t cur (t.proc p)) := .of_state rfl
  rw [exit_proc_of_ne t c h]
  exact hadopt.trans (leaving_woken t cur p).gentle

theorem exit_proc_self (t : Table) (c : Fin NCPU) (cur : Slot) :
    (exit t c cur).proc cur =
      { (reparent (wakeParent t cur) cur).proc cur with state := .zombie } :=
  Function.update_self ..

theorem setProc_gentle (t : Table) {p : Slot} {f : Proc → Proc}
    (h : Gentle (t.proc p) (f (t.proc p))) (q : Slot) :
    Gentle (t.proc q) ((t.setProc p f).proc q) := by
  by_cases hq : q = p
  · subst hq; simpa [TableOf.setProc] using h
  · simpa [TableOf.setProc, Function.update_of_ne hq] using Gentle.refl _

theorem setPc_claim (t : Table) {cur : Slot} {pc' : Pc} (h : pc'.claim = (t.pc cur).claim)
    (p : Slot) : ((t.setPc cur pc').pc p).claim = (t.pc p).claim := by
  by_cases hp : p = cur
  · subst hp; simpa [TableOf.setPc] using h
  · simp [TableOf.setPc, Function.update_of_ne hp]

section Preserved
variable {t t' : Table} {c : Fin NCPU} {cur : Slot}

theorem Claims.sleep (h : Claims t) (hcur : t.cpu c = some cur) (chan : Chan) :
    Claims (sleep t c cur chan) := by
  refine h.leave hcur (fun p hp => ?_) rfl fun _ => rfl
  simpa [Ptable.sleep, TableOf.setProc, TableOf.setCpu, Function.update_of_ne hp] using Gentle.refl _

theorem Claims.waitPass (h : Claims t) (hcur : t.cpu c = some cur) (hcl : (t.pc cur).claim = none) :
    Claims (waitPass t c cur).2 := by
  unfold Ptable.waitPass
  split
  · next p hscan =>
    have hz := (scan_zombie hscan).2
    have hg : Gentle (t.proc p) (reap (t.proc p)) := .of_not (by simp [Fresh, hz]) (by simp [hz])
    exact h.of_gentle (setProc_gentle t hg) rfl (setPc_claim (t.setProc p reap) hcl.symm)
  · split_ifs
    · exact h.of_gentle (fun _ => .refl _) rfl (setPc_claim t hcl.symm)
    · exact (h.sleep hcur _).of_gentle (fun _ => .refl _) rfl
        (setPc_claim (Ptable.sleep t c cur (.proc cur)) hcl.symm)

theorem Claims.schedule {p : Slot} (h : Claims t) (hidle : t.cpu c = none)
    (hrun : (t.proc p).state = .runnable) : Claims (schedule t c p) := by
  have hw := h.enter hidle hrun (fun q => { q with state := .running, chan := none }) rfl
  unfold Ptable.schedule
  split_ifs with hpc
  · exact hw.waitPass (Function.update_self ..)
      (by simp [TableOf.setProc, TableOf.setCpu, hpc, Pc.claim])
  · exact hw

theorem markKilled_gentle (q : Proc) : Gentle q (markKilled q) := by
  refine ⟨fun hf => ?_, fun hr => by simp [markKilled, hr]⟩
  rcases hf with hf | hf <;> simp [markKilled, hf]

theorem Claims.step {e : Event} (h : Claims t) (hs : step t e = some t') : Claims t' := by
  have hcl : ∀ {p pc}, t.pc p = pc → (t.pc p).claim = pc.claim := fun h => congrArg _ h
  cases Move.of_step hs with
  | schedule hidle hrun => exact h.schedule hidle hrun
  | wakeup chan => exact h.of_gentle (fun p => (wakeup1_woken t chan p).gentle) rfl fun _ => rfl
  | yield hcur =>
    refine h.leave hcur (fun p hp => ?_) rfl fun _ => rfl
    simpa [TableOf.setProc, TableOf.setCpu, Function.update_of_ne hp] using Gentle.refl _
  | sleep a hcur _ => exact h.sleep hcur _
  | noSlot => exact h
  | fork _ _ ha => exact h.allocproc ha
  | noStack _ hpc => exact h.claimStep (hcl hpc) (.inr ⟨by simp, rfl⟩)
  | stack k _ hpc => exact h.claimStep (hcl hpc) (.inl ⟨h.claimed _ _ (hcl hpc), rfl⟩)
  | noPages _ hpc => exact h.claimStep (hcl hpc) (.inr ⟨by simp, rfl⟩)
  | pages d _ hpc => exact h.claimStep (hcl hpc) (.inl ⟨h.claimed _ _ (hcl hpc), rfl⟩)
  | forkEnd _ hpc => exact h.claimStep (hcl hpc) (.inr ⟨by simp, rfl⟩)
  | exit hcur _ _ =>
    refine h.leave hcur (fun p hp => ?_) (by simp [Ptable.exit, TableOf.setProc, TableOf.setCpu])
      fun p => by simp [Ptable.exit, TableOf.setProc, TableOf.setCpu]
    exact exit_gentle t _ hp
  | wait hcur hpc => exact h.waitPass hcur (hcl hpc)
  | kill pid _ _ =>
    unfold Ptable.kill
    split
    · exact h
    · exact h.of_gentle (setProc_gentle t (markKilled_gentle _)) rfl fun _ => rfl
  | trap hcur _ => exact h.of_gentle (setProc_gentle t (.of_state rfl)) rfl fun _ => rfl

end Preserved

theorem claims_afterUserinit {C : Type} (d k : Nat) : Claims (afterUserinit d k : TableOf C) where
  running c p h := by simp [afterUserinit] at h
  inj c c' p h := by simp [afterUserinit] at h
  claimed p np h := by simp [afterUserinit, Pc.claim] at h
  claimOne p p' np h := by simp [afterUserinit, Pc.claim] at h

theorem claims_of_reach {t : Table} {ok : Table → Event → Prop} (h : Reach step Init ok t) :
    Claims t :=
  h.invariant (fun _ ⟨d, k, ht⟩ => ht ▸ claims_afterUserinit d k) fun _ _ _ hw _ hs => hw.step hs

end Chameleon.Ptable
