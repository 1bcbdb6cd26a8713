import Chameleon.Proc.Claims
import Chameleon.Proc.Sched

/-! What a step of the scheduler machine may turn a slot into, and the invariant that pairs `c->proc`,
the kernel stack of a CPU and the lock with the state of a slot. -/

namespace Chameleon.Sched
open Machine
open Ptable (ProcState Slot Chan Proc TableOf Pc Claims Fresh Woken)

section
variable {C : Type} {s s' : Sys C} {c : C} {p : Slot} {e : Event C}

/-- The state in which a process leaves the CPU, to continue with `r`. -/
def Ret.left : Ret → ProcState
  | .forkret | .yield => .runnable
  | .sleep => .sleeping
  | .exit => .zombie

/-- What the code that a CPU executes says about `c->proc`, the stack and the lock. -/
def Ctl.Ok (state : Slot → ProcState) (proc stack : Option Slot) (held : Prop) : Ctl → Prop
  | .idle => proc = none ∧ stack = none
  | .scan _ => (proc = none ∧ stack = none) ∧ held
  | .back => (∃ p, proc = some p ∧ stack = none ∧ ∃ r : Ret, state p = r.left) ∧ held
  | .free => ∃ p, proc = some p ∧ stack = some p ∧ state p = .running
  | .sched r => (∃ p, proc = some p ∧ stack = some p ∧ state p = r.left) ∧ held
  | .resumed => (∃ p, proc = some p ∧ stack = some p ∧ state p = .running) ∧ held

structure Inv (s : Sys C) : Prop where
  cpu : ∀ c, (s.ctl c).Ok s.state (s.proc c) (s.stack c) (s.lock = some c)
  one : ∀ c c' p, s.proc c = some p → s.proc c' = some p → c = c'
  running : ∀ p, s.state p = .running → ∃ c, s.proc c = some p
  claims : Claims s.table
  started : ∀ p np, s.table.pc p = .copyuvm np ∨ s.table.pc p = .forkEnd np → s.ret np = .forkret
  ended : ∀ p, s.ret p = .exit → s.state p = .zombie ∨ Fresh (s.table.proc p)
  panicked : s.panicked = none ∨ s.panicked = some "init exiting"

/-- The channels on which a step calls `wakeup1`. -/
inductive Wakes (s : Sys C) : Event C → Chan → Prop
  | wakeup (chan : Chan) : Wakes s (.wakeup chan) chan
  | parent {c : C} {p pp : Slot} (hp : s.proc c = some p) (hpp : (s.table.proc p).parent = some pp) :
      Wakes s (.exit c) (.proc pp)
  | abandoned {c : C} {p q : Slot} (hp : s.proc c = some p) (hq : (s.table.proc q).parent = some p)
      (hz : s.state q = .zombie) : Wakes s (.exit c) (.proc s.table.initproc)

/-- The steps of `fork`. -/
def Event.forks : Event C → Bool
  | .fork _ | .kalloc _ _ | .copyuvm _ _ | .forkEnd _ => true
  | _ => false

/-- The steps in which a process may leave its CPU. -/
def Event.switches : Event C → Bool
  | .yield _ | .sleep _ _ | .exit _ | .wait _ | .resume _ => true
  | _ => false

/-- The ways in which a step changes the state of a slot. -/
inductive Turn (s : Sys C) : Event C → Slot → ProcState → ProcState → Prop
  | chosen {c : C} {p : Slot} (hc : s.ctl c = .scan p) : Turn s (.look c) p .runnable .running
  | left {c : C} {p : Slot} {e : Event C} (hs : e.switches) (he : e.cpu = some c) (hp : s.proc c = some p) (r : Ret) :
      Turn s e p .running r.left
  | woken {p : Slot} {e : Event C} {chan : Chan} (hl : s.lock = none) (hw : Wakes s e chan)
      (hchan : (s.table.proc p).chan = some chan) : Turn s e p .sleeping .runnable
  | killed {c : C} {p : Slot} {pid : Int32} (hl : s.lock = none) (hpid : (s.table.proc p).pid = pid) :
      Turn s (.kill c pid) p .sleeping .runnable
  | reaped {c : C} {p : Slot} {e : Event C} (he : e.cpu = some c)
      (hc : s.ctl c = .free ∧ s.lock = none ∨ s.ctl c = .resumed) : Turn s e p .zombie .unused
  | claimed {p : Slot} {e : Event C} (he : e.forks) : Turn s e p .unused .embryo
  | dropped {p : Slot} {e : Event C} (he : e.forks) : Turn s e p .embryo .unused
  | born {p q : Slot} {e : Event C} (he : e.forks) (hpc : s.table.pc q = .forkEnd p) : Turn s e p .embryo .runnable

/-! ### What a step does to the state of a slot -/

/-- CPU `c` executes process `p` outside `ptable.lock`. -/
def Executes (s : Sys C) (c : C) (p : Slot) : Prop := s.ctl c = .free ∧ s.proc c = some p

/-- Every slot has kept its state, or a step of the given event may have changed it. -/
def Turns (s : Sys C) (e : Event C) (proc : Slot → Proc) : Prop :=
  ∀ q, (proc q).state = s.state q ∨ Turn s e q (s.state q) (proc q).state

theorem Turns.refl (s : Sys C) (e : Event C) : Turns s e s.table.proc := fun _ => .inl rfl

theorem Turns.update {proc : Slot → Proc} {q : Slot} {x : Proc} (h : Turns s e proc)
    (hq : x.state = s.state q ∨ Turn s e q (s.state q) x.state) : Turns s e (Function.update proc q x) := by
  intro q'
  rcases eq_or_ne q' q with rfl | hne
  · rw [Function.update_self]
    exact hq
  · rw [Function.update_of_ne hne]
    exact h q'

theorem Inv.executes (h : Inv s) (hc : Executes s c p) : s.stack c = some p ∧ s.state p = .running := by
  have hok := h.cpu c
  rw [hc.1] at hok
  obtain ⟨p', hp, hs, hrun⟩ := hok
  obtain rfl : p = p' := Option.some.inj (hc.2.symm.trans hp)
  exact ⟨hs, hrun⟩

theorem Inv.resumed (h : Inv s) (hc : s.ctl c = .resumed) (hp : s.stack c = some p) :
    s.proc c = some p ∧ s.state p = .running ∧ s.lock = some c := by
  have hok := h.cpu c
  rw [hc] at hok
  obtain ⟨⟨p', hp', hs, hrun⟩, hl⟩ := hok
  obtain rfl : p = p' := Option.some.inj (hp.symm.trans hs)
  exact ⟨hp', hrun, hl⟩

theorem Inv.leaving {r : Ret} (h : Inv s) (hc : s.ctl c = .sched r) (hp : s.proc c = some p) :
    s.stack c = some p ∧ s.state p = r.left ∧ s.lock = some c := by
  have hok := h.cpu c
  rw [hc] at hok
  obtain ⟨⟨p', hp', hs, hleft⟩, hl⟩ := hok
  obtain rfl : p = p' := Option.some.inj (hp.symm.trans hp')
  exact ⟨hs, hleft, hl⟩

theorem turns_wakeup1 {t : TableOf Empty} {chan : Chan} (h : Turns s e t.proc) (hl : s.lock = none) (hw : Wakes s e chan)
    (hsame : ∀ q, (t.proc q).state = .sleeping → s.state q = .sleeping ∧ (t.proc q).chan = (s.table.proc q).chan) :
    Turns s e (Ptable.wakeup1 t chan).proc := by
  intro q
  by_cases hq : (t.proc q).state = .sleeping ∧ (t.proc q).chan = some chan
  · obtain ⟨hs, hchan⟩ := hsame q hq.1
    have hnew : ((Ptable.wakeup1 t chan).proc q).state = .runnable := by
      simp only [Ptable.wakeup1, if_pos hq]
    rw [hnew, hs]
    exact .inr (.woken hl hw (hchan ▸ hq.2))
  · have hnew : (Ptable.wakeup1 t chan).proc q = t.proc q := by
      simp only [Ptable.wakeup1, if_neg hq]
    rw [hnew]
    exact h q

theorem turns_kill (c : C) (pid : Int32) (hl : s.lock = none) :
    Turns s (.kill c pid) (Ptable.kill s.table pid).2.proc := by
  unfold Ptable.kill
  split
  · exact Turns.refl s _
  · next q hscan =>
    have hpid : (s.table.proc q).pid = pid := by simpa using List.find?_some hscan
    refine (Turns.refl s _).update ?_
    by_cases hs : s.state q = .sleeping
    · rw [show (Ptable.markKilled (s.table.proc q)).state = .runnable from if_pos hs, hs]
      exact .inr (.killed hl hpid)
    · exact .inl (if_neg hs)

/-- What `exit` wakes: its parent, and init if it leaves a zombie behind. -/
theorem turns_leave (hp : s.proc c = some p) (hl : s.lock = none) :
    Turns s (.exit c) (Ptable.reparent (Ptable.wakeParent s.table p) p).proc := by
  have hparent : Turns s (.exit c) (Ptable.wakeParent s.table p).proc := by
    unfold Ptable.wakeParent
    split
    · next pp hpp => exact turns_wakeup1 (Turns.refl s _) hl (.parent hp hpp) fun q hq => ⟨hq, rfl⟩
    · exact Turns.refl s _
  have hwoken := Ptable.wakeParent_woken s.table p
  have hinit := Ptable.wakeParent_initproc s.table p
  generalize Ptable.wakeParent s.table p = t at hparent hwoken hinit
  obtain ⟨t₁, ht₁⟩ : ∃ t₁ : TableOf Empty, t₁ = { t with proc := fun q =>
      (if (t.proc q).parent = some p then { t.proc q with parent := some t.initproc } else t.proc q) } := ⟨_, rfl⟩
  have hkeep : ∀ q, (t₁.proc q).state = (t.proc q).state ∧ (t₁.proc q).chan = (t.proc q).chan := by
    intro q
    rw [ht₁]
    dsimp only
    split <;> exact ⟨rfl, rfl⟩
  have hturns : Turns s (.exit c) t₁.proc := fun q => (hkeep q).1 ▸ hparent q
  rw [Ptable.reparent_eq t p t₁ ht₁]
  split_ifs with hz
  · obtain ⟨q, hq, hz⟩ := hz
    rw [hinit]
    refine turns_wakeup1 hturns hl (.abandoned (q := q) hp ((hwoken q).parent_eq ▸ hq) ?_) fun q hq => ?_
    · rcases hwoken q with hsame | ⟨-, hsame⟩
      · rwa [hsame] at hz
      · rw [hsame] at hz
        cases hz
    · rw [(hkeep q).1] at hq
      rw [(hkeep q).2]
      rcases hwoken q with hsame | ⟨-, hsame⟩
      · rw [hsame] at hq ⊢
        exact ⟨hq, rfl⟩
      · rw [hsame] at hq
        cases hq
  · exact hturns

/-! ### The invariant -/

/-- The process that `c->proc` points to runs, or is about to leave CPU `c`, which holds the lock. -/
theorem Inv.busy (h : Inv s) (hp : s.proc c = some p) :
    s.state p = .running ∨ (∃ r : Ret, s.state p = r.left) ∧ s.lock = some c := by
  have hok := h.cpu c
  cases hc : s.ctl c with
  | idle =>
    rw [hc] at hok
    cases hp.symm.trans hok.1
  | scan i =>
    rw [hc] at hok
    cases hp.symm.trans hok.1.1
  | back =>
    rw [hc] at hok
    obtain ⟨⟨q, hq, -, hleft⟩, hl⟩ := hok
    obtain rfl : p = q := Option.some.inj (hp.symm.trans hq)
    exact .inr ⟨hleft, hl⟩
  | free => exact .inl (h.executes ⟨hc, hp⟩).2
  | sched r => exact .inr ⟨⟨r, (h.leaving hc hp).2.1⟩, (h.leaving hc hp).2.2⟩
  | resumed =>
    rw [hc] at hok
    obtain ⟨⟨q, hq, -, hrun⟩, -⟩ := hok
    obtain rfl : p = q := Option.some.inj (hp.symm.trans hq)
    exact .inl hrun

theorem Inv.not_fresh (h : Inv s) (hp : s.proc c = some p) : ¬ Fresh (s.table.proc p) := by
  rcases h.busy hp with hrun | ⟨⟨r, hleft⟩, -⟩
  · rintro (hf | hf) <;> cases hrun.symm.trans hf
  · rintro (hf | hf) <;> cases r <;> cases hleft.symm.trans hf

/-- Without the lock a CPU's process runs. -/
theorem Inv.state_of_lock (h : Inv s) (hp : s.proc c = some p) (hl : s.lock ≠ some c) : s.state p = .running :=
  (h.busy hp).resolve_right fun hbusy => hl hbusy.2

/-- A step does not touch the process of another CPU. -/
theorem Inv.others (h : Inv s) {proc : Slot → Proc} (ht : Turns s e proc) (hc : e.cpu ≠ some c)
    (hp : s.proc c = some p) : (proc p).state = s.state p := by
  refine (ht p).resolve_right fun hturn => ?_
  have hfresh := h.not_fresh hp
  have hlock := h.state_of_lock hp
  generalize (proc p).state = st' at hturn
  generalize hst : s.state p = st at hturn
  cases hturn with
  | @chosen c' _ hscan =>
    have hok := h.cpu c'
    rw [hscan] at hok
    have hne : s.lock ≠ some c := fun hl => hc (hok.2.symm.trans hl)
    cases hst.symm.trans (hlock hne)
  | left _ he hp' => exact hc (h.one _ _ p hp' hp ▸ he)
  | woken hl => cases hst.symm.trans (hlock (by rw [hl]; exact (Option.some_ne_none c).symm))
  | killed hl => cases hst.symm.trans (hlock (by rw [hl]; exact (Option.some_ne_none c).symm))
  | @reaped c' _ _ he hctl =>
    have hne : s.lock ≠ some c := by
      rcases hctl with ⟨-, hl⟩ | hres
      · rw [hl]
        exact (Option.some_ne_none c).symm
      · have hok := h.cpu c'
        rw [hres] at hok
        exact fun hl => hc (he.trans (hok.2.symm.trans hl))
    cases hst.symm.trans (hlock hne)
  | claimed => exact hfresh (.inl hst)
  | dropped => exact hfresh (.inr hst)
  | born => exact hfresh (.inr hst)

/-- Only `fork` changes a slot that is not yet runnable. -/
theorem Turns.fresh {proc : Slot → Proc} (ht : Turns s e proc) (he : e.forks = false) {q : Slot}
    (hq : Fresh (s.table.proc q)) : (proc q).state = s.state q := by
  refine (ht q).resolve_right fun hturn => ?_
  generalize (proc q).state = st' at hturn
  generalize hst : s.state q = st at hturn
  have hnot : st ≠ .unused → st ≠ .embryo → False :=
    fun hu he => hq.elim (fun h => hu (hst.symm.trans h)) fun h => he (hst.symm.trans h)
  cases hturn with
  | claimed he' | dropped he' | born he' => cases he.symm.trans he'
  | chosen | left | woken | killed | reaped => exact hnot ProcState.noConfusion ProcState.noConfusion

/-- What a step leaves to the CPUs that do not take it. -/
structure Local (s : Sys C) (e : Event C) (s' : Sys C) : Prop where
  ctl : ∀ c, e.cpu ≠ some c → s'.ctl c = s.ctl c
  proc : ∀ c, e.cpu ≠ some c → s'.proc c = s.proc c
  stack : ∀ c, e.cpu ≠ some c → s'.stack c = s.stack c
  lock : ∀ c, e.cpu ≠ some c → s.lock = some c → s'.lock = some c

/-- What a CPU executes, as the invariant wants it. -/
def CpuOk (s : Sys C) (c : C) : Prop := (s.ctl c).Ok s.state (s.proc c) (s.stack c) (s.lock = some c)

theorem Ctl.Ok.congr {st st' : Slot → ProcState} {proc stack : Option Slot} {held held' : Prop} {x : Ctl}
    (h : x.Ok st proc stack held) (hst : ∀ p, proc = some p → st' p = st p) (hheld : held → held') :
    x.Ok st' proc stack held' := by
  cases x with
  | idle => exact h
  | scan i => exact ⟨h.1, hheld h.2⟩
  | back =>
    obtain ⟨⟨p, hp, hs, hleft⟩, hl⟩ := h
    exact ⟨⟨p, hp, hs, (hst p hp).symm ▸ hleft⟩, hheld hl⟩
  | free =>
    obtain ⟨p, hp, hs, hrun⟩ := h
    exact ⟨p, hp, hs, (hst p hp).trans hrun⟩
  | sched r =>
    obtain ⟨⟨p, hp, hs, hleft⟩, hl⟩ := h
    exact ⟨⟨p, hp, hs, (hst p hp).trans hleft⟩, hheld hl⟩
  | resumed =>
    obtain ⟨⟨p, hp, hs, hrun⟩, hl⟩ := h
    exact ⟨⟨p, hp, hs, (hst p hp).trans hrun⟩, hheld hl⟩

theorem Inv.cpu_of_local (h : Inv s) (ht : Turns s e s'.table.proc) (hloc : Local s e s')
    (hown : ∀ c, e.cpu = some c → CpuOk s' c) (c : C) : CpuOk s' c := by
  by_cases hc : e.cpu = some c
  · exact hown c hc
  · unfold CpuOk
    rw [hloc.ctl c hc, hloc.proc c hc, hloc.stack c hc]
    exact (h.cpu c).congr (fun p hp => h.others ht hc hp) (hloc.lock c hc)

/-- A process that has exited stays gone until its slot is used again. -/
theorem Inv.ended_of_turns (h : Inv s) (ht : Turns s e s'.table.proc)
    (hret : ∀ p, s'.ret p = .exit → s.ret p = .exit ∨ s'.state p = .zombie) (p : Slot) (hp : s'.ret p = .exit) :
    s'.state p = .zombie ∨ Fresh (s'.table.proc p) := by
  rcases hret p hp with hold | hz
  · have hgone := h.ended p hold
    rcases ht p with hsame | hturn
    · exact hgone.imp hsame.trans fun hf => hf.imp hsame.trans hsame.trans
    · have hnot : s.state p = .zombie ∨ s.state p = .unused ∨ s.state p = .embryo := hgone
      have hfresh : ∀ {st : ProcState}, st = .unused ∨ st = .embryo → (s'.table.proc p).state = st →
          s'.state p = .zombie ∨ Fresh (s'.table.proc p) := by
        rintro _ (rfl | rfl) hst
        · exact .inr (.inl hst)
        · exact .inr (.inr hst)
      generalize hst' : (s'.table.proc p).state = st' at hturn
      generalize s.state p = st at hturn hnot
      cases hturn with
      | chosen | left | woken | killed => rcases hnot with hn | hn | hn <;> cases hn
      | reaped => exact hfresh (.inl rfl) hst'
      | claimed => exact hfresh (.inr rfl) hst'
      | dropped => exact hfresh (.inl rfl) hst'
      | born _ hpc => cases hold.symm.trans (h.started _ _ (.inr hpc))
  · exact .inl hz

theorem Inv.running_of_turns (h : Inv s) (ht : Turns s e s'.table.proc)
    (hkeep : ∀ c p, s.proc c = some p → s'.state p = .running → s'.proc c = some p)
    (hnew : ∀ c (p : Slot), e = .look c → s.ctl c = .scan p → s.state p ≠ s'.state p → s'.proc c = some p) (p : Slot)
    (hp : s'.state p = .running) : ∃ c, s'.proc c = some p := by
  rcases ht p with hsame | hturn
  · obtain ⟨c, hc⟩ := h.running p (hsame.symm.trans hp)
    exact ⟨c, hkeep c p hc hp⟩
  · rw [show (s'.table.proc p).state = .running from hp] at hturn
    generalize hold : s.state p = st at hturn
    generalize hst : ProcState.running = st' at hturn
    cases hturn with
    | @chosen c _ hc => exact ⟨c, hnew c p rfl hc (by rw [hold, hp]; exact ProcState.noConfusion)⟩
    | left _ _ _ r => cases r <;> cases hst
    | woken | killed | reaped | claimed | dropped | born => cases hst

/-- Steps other than those of `fork` keep its claims. -/
theorem Inv.claims_of_turns (h : Inv s) (ht : Turns s e s'.table.proc) (he : e.forks = false)
    (hpc : ∀ q, s'.table.pc q = s.table.pc q ∨ (s'.table.pc q).claim = none) : Claims s'.table := by
  have hold : ∀ q np, (s'.table.pc q).claim = some np → (s.table.pc q).claim = some np := by
    intro q np hq
    rcases hpc q with hsame | hnone
    · rwa [hsame] at hq
    · cases hnone.symm.trans hq
  refine ⟨nofun, nofun, fun p np hq => ?_, fun p p' np hq hq' => ?_⟩
  · have hemb := h.claims.claimed p np (hold p np hq)
    exact (ht.fresh he (.inr hemb)).trans hemb
  · exact h.claims.claimOne p p' np (hold p np hq) (hold p' np hq')

theorem Turns.running {proc : Slot → Proc} (ht : Turns s e proc) (he : e.switches = false) (hp : s.state p = .running) :
    (proc p).state = .running := by
  refine ((ht p).resolve_right fun hturn => ?_).trans hp
  rw [hp] at hturn
  generalize (proc p).state = st' at hturn
  generalize hst : ProcState.running = st at hturn
  cases hturn with
  | left hs => cases he.symm.trans hs
  | chosen | woken | killed | reaped | claimed | dropped | born => cases hst

/-- The steps other than those of `fork`, while every CPU keeps its process. -/
theorem Inv.keep (h : Inv s) (ht : Turns s e s'.table.proc) (he : e.forks = false)
    (hlook : ∀ c, e = .look c → s'.table = s.table) (hloc : Local s e s') (hown : ∀ c, e.cpu = some c → CpuOk s' c)
    (hproc : s'.proc = s.proc)
    (hpc : ∀ q, s'.table.pc q = s.table.pc q ∨ (s'.table.pc q).claim = none)
    (hret : ∀ q, s'.ret q = s.ret q ∨ ¬ Fresh (s.table.proc q) ∧ (s'.ret q = .exit → s'.state q = .zombie))
    (hpan : s'.panicked = none ∨ s'.panicked = some "init exiting") : Inv s' where
  cpu := h.cpu_of_local ht hloc hown
  one c c' p hc hc' := h.one c c' p (hproc ▸ hc) (hproc ▸ hc')
  running := by
    refine h.running_of_turns ht (fun c p hc _ => hproc ▸ hc) fun c p hc _ hne => ?_
    exact absurd (by rw [Sys.state, Sys.state, hlook c hc]) hne
  claims := h.claims_of_turns ht he hpc
  started p np hp := by
    have hclaim : (s'.table.pc p).claim = some np := by rcases hp with hp | hp <;> rw [hp] <;> rfl
    have hsame : s'.table.pc p = s.table.pc p :=
      (hpc p).resolve_right fun hnone => by cases hnone.symm.trans hclaim
    rw [hsame] at hp hclaim
    have hemb : Fresh (s.table.proc np) := .inr (h.claims.claimed p np hclaim)
    exact ((hret np).resolve_right fun hr => hr.1 hemb).trans (h.started p np hp)
  ended := by
    refine h.ended_of_turns ht fun p hp => ?_
    rcases hret p with hsame | ⟨-, hz⟩
    · exact .inl (hsame ▸ hp)
    · exact .inr (hz hp)
  panicked := hpan

/-- The steps of `fork`, and others that change nothing but the table, and no running process in it. -/
theorem Inv.table (h : Inv s) (ht : Turns s e s'.table.proc) (hsw : e.switches = false) (hlook : ∀ c, e ≠ .look c)
    (hfree : ∀ c, e.cpu = some c → s.ctl c = .free)
    (hrest : s'.ctl = s.ctl ∧ s'.proc = s.proc ∧ s'.stack = s.stack ∧ s'.lock = s.lock ∧ s'.panicked = s.panicked)
    (hclaims : Claims s'.table)
    (hstart : ∀ p np, s'.table.pc p = .copyuvm np ∨ s'.table.pc p = .forkEnd np → s'.ret np = .forkret)
    (hret : ∀ p, s'.ret p = .exit → s.ret p = .exit) : Inv s' := by
  obtain ⟨hctl, hproc, hstack, hlock, hpan⟩ := hrest
  have hloc : Local s e s' := ⟨fun c _ => by rw [hctl], fun c _ => by rw [hproc], fun c _ => by rw [hstack],
    fun c _ hl => hlock.trans hl⟩
  refine ⟨h.cpu_of_local ht hloc fun c hc => ?_, fun c c' p hc hc' => ?_, ?_, hclaims, hstart,
    h.ended_of_turns ht fun p hp => .inl (hret p hp), hpan ▸ h.panicked⟩
  · have hok := h.cpu c
    rw [hfree c hc] at hok
    obtain ⟨p, hp, hs, hrun⟩ := hok
    unfold CpuOk
    rw [hctl, hfree c hc, hproc, hstack]
    exact ⟨p, hp, hs, ht.running hsw hrun⟩
  · rw [hproc] at hc hc'
    exact h.one c c' p hc hc'
  · exact h.running_of_turns ht (fun c p hc _ => hproc ▸ hc) fun c p hc => absurd hc (hlook c)

/-! ### The steps -/

variable [DecidableEq C]

/-- The steps, each with what its code has found. -/
inductive Move (s : Sys C) : Event C → Sys C → Prop
  | acquire {c : C} (hc : s.ctl c = .idle) (hl : s.lock = none) :
      Move s (.acquire c) ((s.acquire c).goto c (.scan 0))
  | look {c : C} {i : Nat} (hc : s.ctl c = .scan i) : Move s (.look c) (look s c i)
  | back {c : C} (hc : s.ctl c = .back) : Move s (.back c) (back s c)
  | sched {c : C} {r : Ret} {p : Slot} (hc : s.ctl c = .sched r) (hp : s.proc c = some p) :
      Move s (.sched c) (sched s c p r)
  | resume {c : C} {p : Slot} (hc : s.ctl c = .resumed) (hp : s.stack c = some p) :
      Move s (.resume c) (resume s c p)
  | noProc {c : C} {a : Nat} (hc : s.ctl c = .free) (hp : s.proc c = none) : Move s (.sleep c a) (s.panic "sleep")
  | wakeup (chan : Chan) (hl : s.lock = none) : Move s (.wakeup chan) (s.setTable (Ptable.wakeup1 s.table chan))
  | yield {c : C} {p : Slot} (hc : Executes s c p) (hl : s.lock = none) : Move s (.yield c) (yield s c p)
  | sleep {c : C} {p : Slot} (a : Nat) (hc : Executes s c p) (hl : s.lock = none) :
      Move s (.sleep c a) (sleep s c p (.addr a))
  | initExits {c : C} : Move s (.exit c) (s.panic "init exiting")
  | exit {c : C} {p : Slot} (hc : Executes s c p) (hl : s.lock = none) : Move s (.exit c) (exit s c p)
  | wait {c : C} {p : Slot} (hc : Executes s c p) (hl : s.lock = none) (hpc : s.table.pc p = .user) :
      Move s (.wait c) (waitPass s c p)
  | kill {c : C} {p : Slot} (pid : Int32) (hc : Executes s c p) (hl : s.lock = none) :
      Move s (.kill c pid) (s.setTable (Ptable.kill s.table pid).2)
  | noSlot {c : C} : Move s (.fork c) s
  | fork {c : C} {p np : Slot} {t : TableOf Empty} (hc : Executes s c p) (ha : Ptable.allocproc s.table = some (np, t)) :
      Move s (.fork c) (s.setTable (t.setPc p (.allocproc np)))
  | noStack {c : C} {p np : Slot} (hc : Executes s c p) (hpc : s.table.pc p = .allocproc np) :
      Move s (.kalloc c none) (s.setTable
        ((s.table.setProc np fun q => { q with kstack := none, state := .unused }).setPc p .user))
  | stack {c : C} {p np : Slot} (k : Nat) (hc : Executes s c p) (hpc : s.table.pc p = .allocproc np) :
      Move s (.kalloc c (some k))
        { s.setTable ((s.table.setProc np fun q => { q with kstack := some k }).setPc p (.copyuvm np)) with
          ret := Function.update s.ret np .forkret }
  | noPages {c : C} {p np : Slot} (hc : Executes s c p) (hpc : s.table.pc p = .copyuvm np) :
      Move s (.copyuvm c none) (s.setTable ((s.table.setProc np fun q =>
        { q with pgdir := none, kstack := none, state := .unused }).setPc p .user))
  | pages {c : C} {p np : Slot} (d : Nat) (hc : Executes s c p) (hpc : s.table.pc p = .copyuvm np) :
      Move s (.copyuvm c (some d)) (s.setTable ((s.table.setProc np fun q =>
        { q with pgdir := some d, sz := (s.table.proc p).sz, parent := some p }).setPc p (.forkEnd np)))
  | forkEnd {c : C} {p np : Slot} (hc : Executes s c p) (hpc : s.table.pc p = .forkEnd np) :
      Move s (.forkEnd c) (s.setTable ((s.table.setProc np fun q => { q with state := .runnable }).setPc p .user))

theorem Move.of_stepOf (hc : Executes s c p) (he : e.cpu = some c)
    (hs : stepOf s p (s.lock = none) (s.table.pc p) e = some s') : Move s e s' := by
  generalize hpc : s.table.pc p = pc at hs
  cases pc <;> cases e <;> simp only [Event.cpu, Option.some.injEq, reduceCtorEq] at he <;> subst he <;>
    simp only [stepOf, reduceCtorEq, Option.ite_none_right_eq_some, Option.some.injEq] at hs
  case user.yield | allocproc.yield | copyuvm.yield | forkEnd.yield | wait.yield => exact hs.2 ▸ .yield hc hs.1.2
  case user.sleep a => exact hs.2 ▸ .sleep a hc hs.1
  case user.exit =>
    split_ifs at hs with hi hl
    · exact Option.some.inj hs ▸ .initExits
    · exact Option.some.inj hs ▸ .exit hc hl
  case user.wait => exact hs.2 ▸ .wait hc hs.1 hpc
  case user.kill pid => exact hs.2 ▸ .kill pid hc hs.1
  case user.fork =>
    obtain ⟨hl, hs⟩ := hs
    split at hs <;> cases hs
    · exact .noSlot
    · exact .fork hc ‹_›
  case allocproc.kalloc np r =>
    cases r with
    | none => exact Option.some.inj hs ▸ .noStack hc hpc
    | some k => exact Option.some.inj hs ▸ .stack k hc hpc
  case copyuvm.copyuvm np r =>
    cases r with
    | none => exact Option.some.inj hs ▸ .noPages hc hpc
    | some d => exact Option.some.inj hs ▸ .pages d hc hpc
  case forkEnd.forkEnd np => exact hs.2 ▸ .forkEnd hc hpc

theorem Move.of_stepAt (he : e.cpu = some c) (hs : stepAt s c (s.ctl c) e = some s') : Move s e s' := by
  generalize hc : s.ctl c = k at hs
  cases k with
  | free =>
    cases hp : s.proc c with
    | none =>
      simp only [stepAt, hp] at hs
      split at hs
      · obtain rfl := Option.some.inj he
        exact Option.some.inj hs ▸ .noProc hc hp
      · cases hs
    | some p =>
      simp only [stepAt, hp] at hs
      exact .of_stepOf ⟨hc, hp⟩ he hs
  | idle =>
    cases e <;> try cases hs
    obtain rfl := Option.some.inj he
    obtain ⟨hl, hs⟩ := Option.ite_none_right_eq_some.mp hs
    exact Option.some.inj hs ▸ .acquire hc hl
  | scan i =>
    cases e <;> cases hs
    obtain rfl := Option.some.inj he
    exact .look hc
  | back =>
    cases e <;> cases hs
    obtain rfl := Option.some.inj he
    exact .back hc
  | sched r =>
    cases e <;> try cases hs
    obtain rfl := Option.some.inj he
    obtain ⟨p, hp, rfl⟩ := Option.map_eq_some_iff.mp hs
    exact .sched hc hp
  | resumed =>
    cases e <;> try cases hs
    obtain rfl := Option.some.inj he
    obtain ⟨p, hp, rfl⟩ := Option.map_eq_some_iff.mp hs
    exact .resume hc hp

theorem Move.of_step (hs : step s e = some s') : s.panicked = none ∧ Move s e s' := by
  obtain ⟨hp, hs⟩ := Option.ite_none_left_eq_some.mp hs
  refine ⟨not_not.mp hp, ?_⟩
  have hcpu : ∀ {x : Option C}, e.cpu = x → (x.bind fun c => stepAt s c (s.ctl c) e) = some s' → Move s e s' := by
    intro x hx hs
    obtain ⟨c, rfl, hs⟩ := Option.bind_eq_some_iff.mp hs
    exact .of_stepAt hx hs
  cases e with
  | wakeup chan =>
    obtain ⟨hl, hs⟩ := Option.ite_none_right_eq_some.mp hs
    exact Option.some.inj hs ▸ .wakeup chan hl
  | _ => exact hcpu rfl hs


/-- A pass of `wait` by process `p`, which may have cleared its `chan` before. -/
theorem turns_waitPass {s₁ : Sys C} (hst : ∀ q, (s₁.table.proc q).state = s.state q) (hsw : e.switches)
    (he : e.cpu = some c) (hp : s.proc c = some p) (hrun : s.state p = .running)
    (hc : s.ctl c = .free ∧ s.lock = none ∨ s.ctl c = .resumed) : Turns s e (waitPass s₁ c p).table.proc := by
  have hsame : Turns s e s₁.table.proc := fun q => .inl (hst q)
  unfold waitPass
  split
  · next q hscan =>
    have hz := (hst q).symm.trans (Ptable.scan_zombie hscan).2
    refine Turns.update hsame (.inr ?_)
    rw [hz]
    exact .reaped he hc
  · split_ifs
    · exact hsame
    · refine Turns.update hsame (.inr ?_)
      rw [hrun]
      exact .left hsw he hp .sleep

theorem Inv.turns (h : Inv s) (hm : Move s e s') : Turns s e s'.table.proc := by
  have hsame : Turns s e s.table.proc := Turns.refl s e
  cases hm with
  | acquire | back | initExits | noSlot => exact hsame
  | @look c i hc =>
    unfold look
    split_ifs with hi hrun
    · exact hsame
    · refine Turns.update hsame (.inr ?_)
      rw [not_not.mp hrun]
      exact .chosen hc
    · exact hsame
  | sched hc hp =>
    unfold sched
    split_ifs <;> exact hsame
  | @resume c p hc hp =>
    obtain ⟨hproc, hrun, -⟩ := h.resumed hc hp
    unfold resume
    split
    · exact hsame
    · exact hsame
    · have hchan : Turns s (.resume c) (s.setProc p fun q => { q with chan := none }).table.proc := hsame.update (.inl rfl)
      dsimp only
      split_ifs
      -- A process that slept in `wait` scans the table again, with its `chan` cleared.
      · refine turns_waitPass (fun q => ?_) rfl rfl hproc hrun (.inr hc)
        show (Function.update s.table.proc p _ q).state = _
        rcases eq_or_ne q p with rfl | hne
        · rw [Function.update_self]
          rfl
        · rw [Function.update_of_ne hne]
          rfl
      · exact hchan
    · exact hsame
  | @noProc c a hc hp =>
    have hok := h.cpu c
    rw [hc] at hok
    obtain ⟨p, hp', -⟩ := hok
    cases hp.symm.trans hp'
  | wakeup chan hl => exact turns_wakeup1 hsame hl (.wakeup chan) fun q hq => ⟨hq, rfl⟩
  | yield hc hl =>
    refine Turns.update hsame (.inr ?_)
    rw [(h.executes hc).2]
    exact .left rfl rfl hc.2 .yield
  | sleep a hc hl =>
    refine Turns.update hsame (.inr ?_)
    rw [(h.executes hc).2]
    exact .left rfl rfl hc.2 .sleep
  | exit hc hl =>
    refine Turns.update (turns_leave hc.2 hl) (.inr ?_)
    rw [(h.executes hc).2]
    exact .left rfl rfl hc.2 .exit
  | wait hc hl hpc => exact turns_waitPass (fun _ => rfl) rfl rfl hc.2 (h.executes hc).2 (.inl ⟨hc.1, hl⟩)
  | kill pid hc hl => exact turns_kill _ pid hl
  | fork hc ha =>
    obtain ⟨hun, rfl⟩ := Ptable.allocproc_eq_some ha
    refine Turns.update hsame (.inr ?_)
    rw [show s.state _ = .unused from hun]
    exact .claimed rfl
  | @noStack c p np hc hpc =>
    refine Turns.update hsame (.inr ?_)
    rw [show s.state np = .embryo from h.claims.claimed p np (by rw [hpc]; rfl)]
    exact .dropped rfl
  | stack k hc hpc => exact Turns.update hsame (.inl rfl)
  | @noPages c p np hc hpc =>
    refine Turns.update hsame (.inr ?_)
    rw [show s.state np = .embryo from h.claims.claimed p np (by rw [hpc]; rfl)]
    exact .dropped rfl
  | pages d hc hpc => exact Turns.update hsame (.inl rfl)
  | @forkEnd c p np hc hpc =>
    refine Turns.update hsame (.inr ?_)
    rw [show s.state np = .embryo from h.claims.claimed p np (by rw [hpc]; rfl)]
    exact .born rfl hpc

end
end Chameleon.Sched
