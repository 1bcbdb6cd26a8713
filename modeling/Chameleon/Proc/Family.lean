import Chameleon.Proc.Claims

/-! Parents and children. `exit` wakes the parent, hands its own children to init and becomes a
zombie in one stretch; `wait` looks for zombies and falls asleep in one stretch. Hence no parent
sleeps over a zombie, and only a parent takes one away. -/

namespace Chameleon.Ptable
open Machine

/-- A process that can still run. -/
def Alive (q : Proc) : Prop := q.state = .sleeping ∨ q.state = .runnable ∨ q.state = .running

/-- The process of slot `p` sleeps in `wait`. -/
def Waiting (p : Slot) (q : Proc) : Prop := q.state = .sleeping ∧ q.chan = some (.proc p)

structure Family (t : Table) : Prop where
  init : Alive (t.proc t.initproc)
  parent : ∀ p, p ≠ t.initproc → ¬ Fresh (t.proc p) →
    ∃ pp, (t.proc p).parent = some pp ∧ Alive (t.proc pp)
  orphan : (t.proc t.initproc).parent = none
  noSelf : ∀ p, (t.proc p).parent ≠ some p
  forked : ∀ p np, t.pc p = .forkEnd np → (t.proc np).parent = some p
  awake : ∀ p, Waiting p (t.proc p) → ∀ q, (t.proc q).state = .zombie →
    (t.proc q).parent ≠ some p

theorem not_fresh_iff (q : Proc) : ¬ Fresh q ↔ Alive q ∨ q.state = .zombie := by
  cases h : q.state <;> simp [Fresh, Alive, h]

theorem Alive.not_zombie {q : Proc} (h : Alive q) : q.state ≠ .zombie := by
  rcases h with h | h | h <;> simp [h]

/-- A slot that keeps its place in the family. -/
structure Quiet (p : Slot) (q q' : Proc) : Prop where
  alive : Alive q' ↔ Alive q
  zombie : q'.state = .zombie ↔ q.state = .zombie
  parent : q'.parent = q.parent
  waiting : Waiting p q' → Waiting p q

theorem Quiet.refl (p : Slot) (q : Proc) : Quiet p q q := ⟨.rfl, .rfl, rfl, id⟩

theorem Quiet.of_alive {p : Slot} {q q' : Proc} (h : Alive q) (h' : Alive q')
    (hp : q'.parent = q.parent) (hw : ¬ Waiting p q') : Quiet p q q' :=
  ⟨⟨fun _ => h, fun _ => h'⟩,
    ⟨fun hz => absurd hz h'.not_zombie, fun hz => absurd hz h.not_zombie⟩, hp, fun hx => absurd hx hw⟩

theorem Fresh.not_alive {q : Proc} (h : Fresh q) : ¬ Alive q ∧ q.state ≠ .zombie := by
  rcases h with h | h <;> simp [Alive, h]

theorem Quiet.of_fresh {p : Slot} {q q' : Proc} (h : Fresh q) (h' : Fresh q')
    (hp : q'.parent = q.parent) : Quiet p q q' := by
  refine ⟨iff_of_false h'.not_alive.1 h.not_alive.1, iff_of_false h'.not_alive.2 h.not_alive.2, hp,
    fun hw => absurd (.inl hw.1) h'.not_alive.1⟩

theorem Quiet.fresh_iff {p : Slot} {q q' : Proc} (h : Quiet p q q') : Fresh q' ↔ Fresh q := by
  rw [← not_iff_not, not_fresh_iff, not_fresh_iff, h.alive, h.zombie]

theorem Woken.quiet {q q' : Proc} (h : Woken q q') (p : Slot) : Quiet p q q' := by
  rcases h with rfl | ⟨hs, rfl⟩
  · exact .refl p _
  · exact .of_alive (.inl hs) (.inr (.inl rfl)) rfl fun hw => by cases hw.1

theorem quiet_update {proc : Slot → Proc} {p : Slot} {x : Proc} (h : Quiet p (proc p) x) (q : Slot) :
    Quiet q (proc q) (Function.update proc p x q) := by
  by_cases hq : q = p
  · subst hq; rwa [Function.update_self]
  · rw [Function.update_of_ne hq]; exact .refl q _

section Steps
variable {t t' : Table} {c : Fin NCPU} {cur : Slot}

theorem Family.of_quiet (h : Family t) (hq : ∀ p, Quiet p (t.proc p) (t'.proc p))
    (hinit : t'.initproc = t.initproc)
    (hpc : ∀ p np, t'.pc p = .forkEnd np → t.pc p = .forkEnd np) : Family t' where
  init := hinit ▸ (hq _).alive.mpr h.init
  parent p hp hf := by
    obtain ⟨pp, hpar, ha⟩ := h.parent p (hinit ▸ hp) (mt (hq p).fresh_iff.mpr hf)
    exact ⟨pp, (hq p).parent.trans hpar, (hq pp).alive.mpr ha⟩
  orphan := hinit.symm ▸ (hq _).parent.trans h.orphan
  noSelf p := (hq p).parent ▸ h.noSelf p
  forked p np hp := (hq np).parent.trans (h.forked p np (hpc p np hp))
  awake p hw q hz := by
    rw [(hq q).parent]
    exact h.awake p ((hq p).waiting hw) q ((hq q).zombie.mp hz)

theorem setPc_forkEnd {pc' : Pc} (hpc' : ∀ np, pc' ≠ .forkEnd np) (p np : Slot)
    (h : (t.setPc cur pc').pc p = .forkEnd np) : t.pc p = .forkEnd np := by
  by_cases hp : p = cur
  · subst hp
    exact absurd (by simpa [TableOf.setPc] using h) (hpc' np)
  · simpa [TableOf.setPc, Function.update_of_ne hp] using h

/-- One slot changes, and does not become a zombie. -/
theorem Family.of_slot {p : Slot} {x : Proc} (h : Family t) (hinit : t'.initproc = t.initproc)
    (hproc : t'.proc = Function.update t.proc p x) (halive : Alive (t.proc p) → Alive x)
    (hparent : p ≠ t.initproc → ¬ Fresh x → ∃ pp, x.parent = some pp ∧ Alive (t.proc pp))
    (horphan : p = t.initproc → x.parent = none) (hself : x.parent ≠ some p)
    (hforked : ∀ r np, t'.pc r = .forkEnd np → (Function.update t.proc p x np).parent = some r) (hzombie : x.state ≠ .zombie)
    (hawake : Waiting p x → ∀ q, (t.proc q).state = .zombie → (t.proc q).parent ≠ some p) : Family t' := by
  have hp : t'.proc p = x := by rw [hproc, Function.update_self]
  have hother : ∀ r, r ≠ p → t'.proc r = t.proc r := fun r hr => by rw [hproc, Function.update_of_ne hr]
  have hkept : ∀ r, Alive (t.proc r) → Alive (t'.proc r) := by
    intro r ha
    by_cases hr : r = p
    · rw [hr] at ha ⊢; exact hp ▸ halive ha
    · rwa [hother r hr]
  refine ⟨hinit ▸ hkept _ h.init, fun r hr hf => ?_, ?_, fun r => ?_, hproc ▸ hforked, fun r hw q hz => ?_⟩
  · obtain ⟨pp, hpp, ha⟩ : ∃ pp, (t'.proc r).parent = some pp ∧ Alive (t.proc pp) := by
      by_cases hrp : r = p
      · rw [hrp, hp] at hf ⊢; exact hparent (hrp ▸ hinit ▸ hr) hf
      · rw [hother r hrp] at hf ⊢; exact h.parent r (hinit ▸ hr) hf
    exact ⟨pp, hpp, hkept pp ha⟩
  · by_cases hip : t.initproc = p
    · rw [hinit, hip, hp]; exact horphan hip.symm
    · rw [hinit, hother _ hip]; exact h.orphan
  · by_cases hrp : r = p
    · rw [hrp, hp]; exact hself
    · rw [hother r hrp]; exact h.noSelf r
  · have hqp : q ≠ p := by rintro rfl; exact hzombie (hp ▸ hz)
    rw [hother q hqp] at hz ⊢
    by_cases hrp : r = p
    · rw [hrp, hp] at hw; exact hrp ▸ hawake hw q hz
    · rw [hother r hrp] at hw; exact h.awake r hw q hz

theorem update_parent {proc : Slot → Proc} {p : Slot} {x : Proc} (hx : x.parent = (proc p).parent) (q : Slot) :
    (Function.update proc p x q).parent = (proc q).parent := by
  by_cases hq : q = p
  · subst hq; rwa [Function.update_self]
  · rw [Function.update_of_ne hq]

/-- The zombie found by a pass of `wait` leaves the table; it was nobody's living parent. -/
theorem Family.reaped {p : Slot} (h : Family t) (hz : (t.proc p).state = .zombie)
    (hforked : ∀ r, t.pc r ≠ .forkEnd p) :
    Family ((t.setProc p reap).setPc cur .user) := by
  refine h.of_slot rfl rfl (fun ha => absurd hz ha.not_zombie) (fun _ hf => absurd (.inl rfl) hf) (fun _ => rfl) nofun
    (fun r np hr => ?_) nofun fun hw => by cases hw.1
  have hold := setPc_forkEnd (t := t.setProc p reap) (fun _ => by simp) r np hr
  rw [Function.update_of_ne (by rintro rfl; exact hforked r hold)]
  exact h.forked r np hold

theorem Family.waitPass (h : Family t) (hc : Claims t) (hcur : t.cpu c = some cur) :
    Family (waitPass t c cur).2 := by
  have hrun := hc.running c cur hcur
  unfold Ptable.waitPass
  split
  · next p hscan =>
    have hz := (scan_zombie hscan).2
    refine h.reaped hz fun r hr => ?_
    have he := hc.claimed r p (by rw [hr]; rfl)
    rw [hz] at he
    cases he
  · next hscan =>
    split_ifs
    · exact h.of_quiet (fun p => .refl p _) rfl (setPc_forkEnd fun _ => by simp)
    · -- the caller falls asleep in the stretch that has found no zombie child
      refine h.of_slot rfl rfl (fun _ => .inl rfl) (fun hne _ => h.parent cur hne (by simp [Fresh, hrun]))
        (fun heq => heq ▸ h.orphan) (h.noSelf cur) (fun r np hr => (update_parent (by rfl) np).trans (h.forked r np ?_)) nofun
        fun _ q hq => ?_
      · exact setPc_forkEnd (t := sleep t c cur (.proc cur)) (fun _ => by simp) r np hr
      · have hnone := List.find?_eq_none.mp hscan q (List.mem_finRange q)
        simpa only [hq, Bool.and_eq_true, beq_iff_eq, and_true] using hnone

theorem Family.schedule {p : Slot} (h : Family t) (hc : Claims t) (hidle : t.cpu c = none)
    (hrun : (t.proc p).state = .runnable) : Family (schedule t c p) := by
  have hq : Family (dispatch t c p) := by
    refine h.of_quiet (quiet_update ?_) rfl fun _ _ => id
    exact .of_alive (.inr (.inl hrun)) (.inr (.inr rfl)) rfl fun hw => by cases hw.1
  unfold Ptable.schedule
  split_ifs
  · exact hq.waitPass (hc.enter hidle hrun _ rfl) (Function.update_self ..)
  · exact hq

/-- A fork fills in its embryo, which has no part in the family yet. -/
theorem Family.pages {np : Slot} (h : Family t) (he : (t.proc np).state = .embryo) (d sz : Nat)
    (hcur : Alive (t.proc cur)) (hpc : ∀ r, t.pc r ≠ .forkEnd np) :
    Family ((t.setProc np fun q => { q with pgdir := some d, sz := sz, parent := some cur }).setPc
      cur (.forkEnd np)) := by
  have hne : ∀ r, Alive (t.proc r) → r ≠ np := by
    rintro r ha rfl
    exact (Fresh.not_alive (.inr he)).1 ha
  refine h.of_slot rfl rfl (fun ha => absurd rfl (hne np ha)) (fun _ hf => absurd (.inr he) hf)
    (fun heq => absurd heq.symm (hne _ h.init)) ?_ (fun r n hr => ?_) (Fresh.not_alive (.inr he)).2
    fun hw => absurd (.inl hw.1) (Fresh.not_alive (.inr he)).1
  · rw [Ne, Option.some.injEq]
    exact hne cur hcur
  · by_cases hrc : r = cur
    · obtain rfl : np = n := by simpa [TableOf.setPc, hrc] using hr
      rw [hrc, Function.update_self]
    · have hold : t.pc r = .forkEnd n := by
        simpa [TableOf.setPc, TableOf.setProc, Function.update_of_ne hrc] using hr
      rw [Function.update_of_ne (by rintro rfl; exact hpc r hold)]
      exact h.forked r n hold

/-- The end of a fork: the new process is the child of the running one. -/
theorem Family.forkEnd {np : Slot} (h : Family t) (hpar : (t.proc np).parent = some cur) (hcur : Alive (t.proc cur)) :
    Family ((t.setProc np fun q => { q with state := .runnable }).setPc cur .user) := by
  refine h.of_slot rfl rfl (fun _ => .inr (.inl rfl)) (fun _ _ => ⟨cur, hpar, hcur⟩) (fun heq => heq ▸ h.orphan)
    (h.noSelf np) (fun r n hr => (update_parent (by rfl) n).trans (h.forked r n ?_)) nofun fun hw => by cases hw.1
  exact setPc_forkEnd (t := t.setProc np _) (fun _ => by simp) r n hr

/-- After the wakeups of `exit` nobody sleeps on the parent's slot, and if a zombie has been
handed over, nobody sleeps on init's slot. -/
theorem exit_wakes (p : Slot) (hw : Waiting p ((reparent (wakeParent t cur) cur).proc p)) :
    (t.proc cur).parent ≠ some p ∧ (p = t.initproc → ∀ q, (t.proc q).parent = some cur →
      (t.proc q).state ≠ .zombie) := by
  have hasleep : ∀ {u : Table} {chan : Chan} {r : Slot}, Waiting r ((wakeup1 u chan).proc r) →
      chan ≠ .proc r := by
    rintro u _ r hr rfl
    simp only [wakeup1] at hr
    split_ifs at hr with hc
    · cases hr.1
    · exact hc hr
  obtain ⟨t₁, ht₁⟩ : ∃ t₁ : Table, t₁ = { wakeParent t cur with proc := fun p =>
      (if ((wakeParent t cur).proc p).parent = some cur then
        { (wakeParent t cur).proc p with parent := some (wakeParent t cur).initproc }
        else (wakeParent t cur).proc p) } := ⟨_, rfl⟩
  have hsame : Waiting p (t₁.proc p) → Waiting p ((wakeParent t cur).proc p) := by
    simp only [ht₁, Waiting]
    split_ifs <;> exact id
  rw [reparent_eq _ cur t₁ ht₁] at hw
  constructor
  · intro hpar
    have hw₁ : Waiting p ((wakeParent t cur).proc p) := by
      apply hsame
      split_ifs at hw
      · rcases wakeup1_woken t₁ (.proc (wakeParent t cur).initproc) p with heq | ⟨-, heq⟩
        · rwa [heq] at hw
        · rw [heq] at hw; cases hw.1
      · exact hw
    simp only [wakeParent, hpar] at hw₁
    exact hasleep hw₁ rfl
  · rintro rfl q hq hz
    have hz' : ∃ r, ((wakeParent t cur).proc r).parent = some cur ∧
        ((wakeParent t cur).proc r).state = .zombie := by
      refine ⟨q, (wakeParent_woken t cur q).parent_eq.trans hq, ?_⟩
      exact ((wakeParent_woken t cur q).quiet q).zombie.mpr hz
    rw [if_pos hz', wakeParent_initproc] at hw
    exact hasleep hw rfl

theorem Family.exit (h : Family t) (hc : Claims t) (hcur : t.cpu c = some cur)
    (hpc : t.pc cur = .user) (hne : cur ≠ t.initproc) : Family (Ptable.exit t c cur) := by
  have hrun : (t.proc cur).state = .running := hc.running c cur hcur
  have hleave : ∀ r, Quiet r (adopted t cur (t.proc r)) ((reparent (wakeParent t cur) cur).proc r) :=
    fun r => (leaving_woken t cur r).quiet r
  have hinit : (Ptable.exit t c cur).initproc = t.initproc := by
    simp [Ptable.exit, TableOf.setProc, TableOf.setCpu]
  have halive : ∀ r, r ≠ cur → Alive (t.proc r) → Alive ((Ptable.exit t c cur).proc r) := by
    intro r hr ha
    rw [exit_proc_of_ne t c hr]
    exact (hleave r).alive.mpr ha
  have hparent : ∀ r, ((Ptable.exit t c cur).proc r).parent =
      if (t.proc r).parent = some cur then some t.initproc else (t.proc r).parent := by
    intro r
    by_cases hr : r = cur
    · rw [hr, exit_proc_self]
      exact (hleave cur).parent
    · rw [exit_proc_of_ne t c hr]
      exact (hleave r).parent
  -- The children of `cur` now have `initproc` as their parent, which `exit` wakes if one of them is a zombie.
  refine ⟨hinit.symm ▸ halive _ (Ne.symm hne) h.init, fun r hr hf => ?_, ?_, fun r => ?_,
    fun r np hr => ?_, fun r hw q hz => ?_⟩
  · have hf' : ¬ Fresh (t.proc r) := by
      by_cases hrc : r = cur
      · simp [hrc, Fresh, hrun]
      · rw [exit_proc_of_ne t c hrc] at hf
        exact mt (hleave r).fresh_iff.mpr hf
    obtain ⟨pp, hpp, ha⟩ := h.parent r (hinit ▸ hr) hf'
    rw [hparent r]
    split_ifs with hk
    · exact ⟨t.initproc, rfl, halive _ (Ne.symm hne) h.init⟩
    · exact ⟨pp, hpp, halive pp (by rintro rfl; exact hk hpp) ha⟩
  · rw [hinit, hparent, h.orphan]
    simp
  · rw [hparent r]
    split_ifs with hk
    · rintro ⟨rfl⟩
      rw [h.orphan] at hk
      cases hk
    · exact h.noSelf r
  · have hold : t.pc r = .forkEnd np := by
      simpa [Ptable.exit, TableOf.setProc, TableOf.setCpu] using hr
    have hpar := h.forked r np hold
    rw [hparent np, if_neg, hpar]
    rw [hpar, Option.some.injEq]
    rintro rfl
    rw [hpc] at hold
    cases hold
  · have hrc : r ≠ cur := by
      rintro rfl
      rw [exit_proc_self] at hw
      cases hw.1
    rw [exit_proc_of_ne t c hrc] at hw
    obtain ⟨hpar, hadopt⟩ := exit_wakes r hw
    have hw' : Waiting r (t.proc r) := (hleave r).waiting hw
    rw [hparent q]
    by_cases hqc : q = cur
    · subst hqc
      rwa [if_neg (h.noSelf q)]
    · rw [exit_proc_of_ne t c hqc] at hz
      have hz' : (t.proc q).state = .zombie := (hleave q).zombie.mp hz
      split_ifs with hk
      · rintro ⟨rfl⟩
        exact hadopt rfl q hk hz'
      · exact h.awake r hw' q hz'

theorem Family.step {e : Event} (h : Family t) (hc : Claims t) (hs : step t e = some t') :
    Family t' := by
  have hembryo : ∀ {p np pc}, t.pc p = pc → pc.claim = some np → (t.proc np).state = .embryo :=
    fun hpc hcl => hc.claimed _ _ ((congrArg _ hpc).trans hcl)
  cases Move.of_step hs with
  | schedule hidle hrun => exact h.schedule hc hidle hrun
  | wakeup chan => exact h.of_quiet (fun p => (wakeup1_woken t chan p).quiet p) rfl fun _ _ => id
  | yield hcur =>
    refine h.of_quiet (quiet_update ?_) rfl fun _ _ => id
    exact .of_alive (.inr (.inr (hc.running _ _ hcur))) (.inr (.inl rfl)) rfl fun hw => by cases hw.1
  | sleep a hcur _ =>
    refine h.of_quiet (quiet_update ?_) rfl fun _ _ => id
    exact .of_alive (.inr (.inr (hc.running _ _ hcur))) (.inl rfl) rfl fun hw => by cases hw.2
  | noSlot => exact h
  | fork _ _ ha =>
    obtain ⟨hun, rfl⟩ := allocproc_eq_some ha
    refine h.of_quiet (quiet_update ?_) rfl fun p np => setPc_forkEnd (fun _ => by simp) p np
    exact .of_fresh (.inl hun) (.inr rfl) rfl
  | noStack _ hpc =>
    refine h.of_quiet (quiet_update ?_) rfl (setPc_forkEnd (t := t.setProc _ _) fun _ => by simp)
    exact .of_fresh (.inr (hembryo hpc rfl)) (.inl rfl) rfl
  | stack k _ hpc =>
    refine h.of_quiet (quiet_update ?_) rfl (setPc_forkEnd (t := t.setProc _ _) fun _ => by simp)
    exact .of_fresh (.inr (hembryo hpc rfl)) (.inr (hembryo hpc rfl)) rfl
  | noPages _ hpc =>
    refine h.of_quiet (quiet_update ?_) rfl (setPc_forkEnd (t := t.setProc _ _) fun _ => by simp)
    exact .of_fresh (.inr (hembryo hpc rfl)) (.inl rfl) rfl
  | pages d hcur hpc =>
    refine h.pages (hembryo hpc rfl) d _ (.inr (.inr (hc.running _ _ hcur))) fun r hr => ?_
    have hsame := hc.claimOne r _ _ (by rw [hr]; rfl) (by rw [hpc]; rfl)
    rw [hsame, hpc] at hr
    cases hr
  | forkEnd hcur hpc =>
    exact h.forkEnd (h.forked _ _ hpc) (.inr (.inr (hc.running _ _ hcur)))
  | exit hcur hpc hne => exact h.exit hc hcur hpc hne
  | wait hcur _ => exact h.waitPass hc hcur
  | kill pid _ _ =>
    unfold Ptable.kill
    split
    · exact h
    · next p _ =>
      refine h.of_quiet (quiet_update ?_) rfl fun _ _ => id
      by_cases hs : (t.proc p).state = .sleeping
      · exact .of_alive (.inl hs) (.inr (.inl (by simp [markKilled, hs]))) rfl
          fun hw => by simp [Waiting, markKilled, hs] at hw
      · exact ⟨by simp [Alive, markKilled, hs], by simp [markKilled, hs], rfl,
          by simp [Waiting, markKilled, hs]⟩
  | trap hcur _ =>
    refine h.of_quiet (quiet_update ?_) rfl fun _ _ => id
    exact ⟨.rfl, .rfl, rfl, id⟩

end Steps

theorem family_afterUserinit (d k : Nat) : Family (afterUserinit d k) := by
  have hother : ∀ p, p ≠ 0 → (afterUserinit d k : Table).proc p = Proc.zero := by
    intro p hp
    simp only [afterUserinit]
    exact Function.update_of_ne hp _ _
  refine ⟨.inr (.inl rfl), fun p hp hf => ?_, rfl, fun p => ?_, fun p np hp => ?_,
    fun p hw q hz => ?_⟩
  · exact absurd (.inl (by rw [hother p hp]; rfl)) hf
  · by_cases hp : p = 0
    · subst hp
      intro hc
      cases hc
    · rw [hother p hp]
      intro hc
      cases hc
  · cases hp
  · by_cases hq : q = 0
    · subst hq; cases hz
    · rw [hother q hq] at hz; cases hz

theorem family_of_reach {t : Table} {ok : Table → Event → Prop} (h : Reach step Init ok t) :
    Family t := by
  refine (h.invariant (I := fun t => Claims t ∧ Family t) ?_ ?_).2
  · rintro s ⟨d, k, rfl⟩
    exact ⟨claims_afterUserinit d k, family_afterUserinit d k⟩
  · exact fun s e s' hi _ hs => ⟨hi.1.step hs, hi.2.step hi.1 hs⟩

/-- The pass of `wait` that a step makes: the caller, and how the call returns if it does. The
step is the call, or the caller is scheduled again after its sleep. -/
def passOf (t : Table) : Event → Option (Slot × Option WaitResult)
  | .wait c => (t.cpu c).map fun cur => (cur, (waitPass t c cur).1)
  | .schedule c p => if t.pc p = .wait then some (p, (waitPass (dispatch t c p) c p).1) else none
  | _ => none

/-- The slot whose `pid` a step returns from `wait`. -/
def reapOf (t : Table) (e : Event) : Option Slot :=
  match passOf t e with
  | some (_, some (.reaped p _)) => some p
  | _ => none

/-- The process that exits in a step. -/
def exitOf (t : Table) : Event → Option Slot
  | .exit c => t.cpu c
  | _ => none

section Zombies
variable {t t' : Table} {c : Fin NCPU} {cur p : Slot} {pid : Int32} {e : Event}

theorem reapOf_eq_some :
    reapOf t e = some p ↔ ∃ cur pid, passOf t e = some (cur, some (.reaped p pid)) := by
  unfold reapOf
  split
  · next q pid hpass => simp [hpass]
  · next hnot =>
    refine ⟨fun h => (Option.some_ne_none p h.symm).elim, fun ⟨cur, pid, hpass⟩ => ?_⟩
    exact absurd hpass (hnot cur p pid)

/-- A slot that neither becomes a zombie nor stops being one. A zombie keeps its `pid`. -/
structure Kept (q q' : Proc) : Prop where
  zombie : q'.state = .zombie ↔ q.state = .zombie
  pid : q.state = .zombie → q'.pid = q.pid

theorem Kept.refl (q : Proc) : Kept q q := ⟨.rfl, fun _ => rfl⟩

theorem Kept.trans {q₁ q₂ q₃ : Proc} (h : Kept q₁ q₂) (h' : Kept q₂ q₃) : Kept q₁ q₃ :=
  ⟨h'.zombie.trans h.zombie, fun hz => (h'.pid (h.zombie.mpr hz)).trans (h.pid hz)⟩

theorem kept_update {proc : Slot → Proc} {r : Slot} {x : Proc} (hr : (proc r).state ≠ .zombie)
    (hx : x.state ≠ .zombie) (p : Slot) : Kept (proc p) (Function.update proc r x p) := by
  by_cases hp : p = r
  · subst hp
    rw [Function.update_self]
    exact ⟨⟨fun h => absurd h hx, fun h => absurd h hr⟩, fun h => absurd h hr⟩
  · rw [Function.update_of_ne hp]
    exact .refl _

theorem Woken.kept {q q' : Proc} (h : Woken q q') : Kept q q' := by
  rcases h with rfl | ⟨hs, rfl⟩
  · exact .refl _
  · exact ⟨by simp [hs], by simp [hs]⟩

theorem markKilled_kept (q : Proc) : Kept q (markKilled q) := by
  refine ⟨?_, fun _ => rfl⟩
  cases hs : q.state <;> simp [markKilled, hs]

theorem exit_kept (hne : p ≠ cur) : Kept (t.proc p) ((exit t c cur).proc p) := by
  have hadopt : Kept (t.proc p) (adopted t cur (t.proc p)) := ⟨.rfl, fun _ => rfl⟩
  rw [exit_proc_of_ne t c hne]
  exact hadopt.trans (leaving_woken t cur p).kept

theorem dispatch_proc (t : Table) (c : Fin NCPU) (p q : Slot) : (dispatch t c p).proc q =
    if q = p then { t.proc p with state := .running, chan := none } else t.proc q :=
  Function.update_apply ..

theorem dispatch_kept (hrun : (t.proc cur).state = .runnable) (p : Slot) :
    Kept (t.proc p) ((dispatch t c cur).proc p) :=
  kept_update (by simp [hrun]) (by simp) p

/-- A pass of `wait` leaves alone every slot but the one whose `pid` it returns. -/
theorem waitPass_kept (hrun : (t.proc cur).state = .running)
    (hp : ∀ pid, (waitPass t c cur).1 ≠ some (.reaped p pid)) :
    Kept (t.proc p) ((waitPass t c cur).2.proc p) := by
  unfold waitPass at hp ⊢
  cases hscan : t.scan fun q => q.parent == some cur && q.state == .zombie with
  | some r =>
    have hne : p ≠ r := by
      rintro rfl
      exact hp (t.proc p).pid (by rw [hscan])
    have hsame : (t.setProc r reap).proc p = t.proc p := Function.update_of_ne hne _ _
    exact hsame.symm ▸ Kept.refl (t.proc p)
  | none =>
    dsimp only
    split_ifs
    · exact .refl _
    · exact kept_update (by simp [hrun]) (by simp) p

/-- The slot whose `pid` a pass returns was a zombie child and is free now. -/
theorem waitPass_reaped (h : (waitPass t c cur).1 = some (.reaped p pid)) :
    (t.proc p).state = .zombie ∧ (t.proc p).parent = some cur ∧ (t.proc p).pid = pid ∧
      ((waitPass t c cur).2.proc p).state = .unused := by
  unfold waitPass at h ⊢
  cases hscan : t.scan fun q => q.parent == some cur && q.state == .zombie with
  | some r =>
    simp only [hscan, Option.some.injEq, WaitResult.reaped.injEq] at h
    obtain ⟨rfl, rfl⟩ := h
    obtain ⟨hpar, hz⟩ := scan_zombie hscan
    have hself : (t.setProc r reap).proc r = reap (t.proc r) := Function.update_self ..
    exact ⟨hz, hpar, rfl, congrArg Proc.state hself⟩
  | none =>
    simp only [hscan] at h
    split_ifs at h
    cases h

theorem waitPass_failed (h : (waitPass t c cur).1 = some .failed) :
    (∀ q, (t.proc q).parent ≠ some cur) ∨ (t.proc cur).killed = true := by
  unfold waitPass at h
  split at h
  · cases h
  · split_ifs at h with hc
    · rcases Bool.or_eq_true _ _ |>.mp hc with hnone | hk
      · refine .inl fun q => ?_
        have := List.find?_eq_none.mp (Option.isNone_iff_eq_none.mp hnone) q (List.mem_finRange q)
        simpa using this
      · exact .inr hk

/-- Zombies come from `exit` and go with `wait`, and no other step touches them. -/
theorem step_kept (hc : Claims t) (hs : step t e = some t') (hexit : exitOf t e ≠ some p)
    (hreap : reapOf t e ≠ some p) : Kept (t.proc p) (t'.proc p) := by
  have hembryo : ∀ {r np pc}, t.pc r = pc → pc.claim = some np → (t.proc np).state ≠ .zombie := by
    intro r np pc hpc hcl
    simp [hc.claimed _ _ ((congrArg _ hpc).trans hcl)]
  have hrunning : ∀ {c r}, t.cpu c = some r → (t.proc r).state ≠ .zombie := fun h => by
    simp [hc.running _ _ h]
  have hpass : ∀ cur pid, passOf t e ≠ some (cur, some (.reaped p pid)) :=
    fun cur pid h => hreap (reapOf_eq_some.mpr ⟨cur, pid, h⟩)
  cases Move.of_step hs with
  | @schedule c r hidle hrun =>
    unfold schedule
    split_ifs with hpc
    · have hself : ((dispatch t c r).proc r).state = .running := by
        rw [dispatch_proc, if_pos rfl]
      refine (dispatch_kept hrun p).trans (waitPass_kept hself fun pid h => hpass r pid ?_)
      simp only [passOf, if_pos hpc, h]
    · exact dispatch_kept hrun p
  | wakeup chan => exact (wakeup1_woken t chan p).kept
  | yield hcur => exact kept_update (hrunning hcur) (by simp) p
  | sleep a hcur _ => exact kept_update (hrunning hcur) (by simp) p
  | noSlot => exact .refl _
  | fork _ _ ha =>
    obtain ⟨hun, rfl⟩ := allocproc_eq_some ha
    exact kept_update (by simp [hun]) (by simp) p
  | noStack _ hpc => exact kept_update (hembryo hpc rfl) (by simp) p
  | @stack c cur np k _ hpc =>
    exact kept_update (x := { t.proc np with kstack := some k }) (hembryo hpc rfl)
      (hembryo hpc rfl) p
  | noPages _ hpc => exact kept_update (hembryo hpc rfl) (by simp) p
  | @pages c cur np d _ hpc =>
    exact kept_update
      (x := { t.proc np with sz := (t.proc cur).sz, pgdir := some d, parent := some cur })
      (hembryo hpc rfl) (hembryo hpc rfl) p
  | forkEnd _ hpc => exact kept_update (hembryo hpc rfl) (by simp) p
  | exit hcur _ _ => exact exit_kept fun hp => hexit (hp ▸ hcur)
  | @wait c r hcur _ =>
    refine waitPass_kept (hc.running _ _ hcur) fun pid h => hpass r pid ?_
    simp only [passOf, hcur, Option.map_some, h]
  | kill pid _ _ =>
    unfold Ptable.kill
    split
    · exact .refl _
    · next r _ =>
      by_cases hp : p = r
      · have hself : (t.setProc r markKilled).proc p = markKilled (t.proc p) := by
          rw [hp]; exact Function.update_self ..
        exact hself.symm ▸ markKilled_kept _
      · have hsame : (t.setProc r markKilled).proc p = t.proc p := Function.update_of_ne hp _ _
        exact hsame.symm ▸ Kept.refl (t.proc p)
  | @trap c cur hcur _ =>
    exact kept_update (x := { t.proc cur with killed := true }) (hrunning hcur) (hrunning hcur) p

theorem step_reaped (hs : step t e = some t') (h : passOf t e = some (cur, some (.reaped p pid))) :
    (t.proc p).state = .zombie ∧ (t.proc p).parent = some cur ∧ (t.proc p).pid = pid ∧
      (t'.proc p).state = .unused := by
  cases Move.of_step hs with
  | @schedule c r hidle hrun =>
    simp only [passOf] at h
    split_ifs at h with hpc
    obtain ⟨rfl, hret⟩ := Prod.mk.inj (Option.some.inj h)
    obtain ⟨hz, hpar, hpid, hfree⟩ := waitPass_reaped hret
    have hne : p ≠ r := by
      rintro rfl
      rw [dispatch_proc, if_pos rfl] at hz
      cases hz
    rw [dispatch_proc, if_neg hne] at hz hpar hpid
    unfold schedule
    rw [if_pos hpc]
    exact ⟨hz, hpar, hpid, hfree⟩
  | @wait c r hcur _ =>
    simp only [passOf, hcur, Option.map_some, Option.some.injEq, Prod.mk.injEq] at h
    obtain ⟨rfl, h⟩ := h
    exact waitPass_reaped h
  | _ => cases h

theorem step_exited (hc : Claims t) (hs : step t e = some t') (h : exitOf t e = some p) :
    (t.proc p).state = .running ∧ (t'.proc p).state = .zombie := by
  cases Move.of_step hs with
  | @exit c cur hcur _ _ =>
    obtain rfl : cur = p := Option.some.inj (hcur.symm.trans h)
    refine ⟨hc.running _ _ hcur, ?_⟩
    rw [exit_proc_self]
  | _ => cases h

/-- A resumed caller has the parent links and the kill flag it had before. -/
theorem passOf_failed (h : passOf t e = some (cur, some .failed)) :
    (∀ q, (t.proc q).parent ≠ some cur) ∨ (t.proc cur).killed = true := by
  cases e with
  | wait c =>
    obtain ⟨r, -, hr⟩ := Option.map_eq_some_iff.mp h
    obtain ⟨rfl, hfail⟩ := Prod.mk.inj hr
    exact waitPass_failed hfail
  | schedule c r =>
    simp only [passOf] at h
    split_ifs at h
    obtain ⟨rfl, hfail⟩ := Prod.mk.inj (Option.some.inj h)
    refine (waitPass_failed hfail).imp (fun hn q => ?_) fun hk => ?_
    · have hq := hn q
      rw [dispatch_proc] at hq
      split_ifs at hq with hqr
      · rwa [hqr]
      · exact hq
    · rwa [dispatch_proc, if_pos rfl] at hk
  | _ => cases h

end Zombies

/-- The exit and wait protocol in a state. -/
structure ExitWait (t : Table) : Prop where
  /-- A process past its fork has a parent that has not exited. -/
  parent : ∀ p, p ≠ t.initproc → (t.proc p).state ≠ .unused → (t.proc p).state ≠ .embryo →
    ∃ pp, (t.proc p).parent = some pp ∧ (t.proc pp).state ≠ .unused ∧ (t.proc pp).state ≠ .zombie
  /-- A zombie stays one, until a `wait` returns its `pid`. -/
  stays : ∀ e t' p, step t e = some t' → (t.proc p).state = .zombie →
    ((t'.proc p).state = .zombie ∧ (t'.proc p).pid = (t.proc p).pid) ∨
    ∃ cur, passOf t e = some (cur, some (.reaped p (t.proc p).pid))
  /-- The `pid` that `wait` returns is that of a zombie child of the caller, whose slot is free
  from then on. -/
  reaped : ∀ e t' cur p pid, step t e = some t' → passOf t e = some (cur, some (.reaped p pid)) →
    (t.proc p).state = .zombie ∧ (t.proc p).parent = some cur ∧ (t.proc p).pid = pid ∧
      (t'.proc p).state = .unused
  /-- A slot becomes a zombie by its own `exit`. -/
  exited : ∀ e t' p, step t e = some t' → (t'.proc p).state = .zombie →
    (t.proc p).state = .zombie ∨ exitOf t e = some p
  /-- `wait` fails only without children or when killed. -/
  failed : ∀ e cur, passOf t e = some (cur, some .failed) →
    (∀ q, (t.proc q).parent ≠ some cur) ∨ (t.proc cur).killed = true
  /-- Nobody sleeps in `wait` over a zombie child. -/
  awake : ∀ p q, Waiting p (t.proc p) → (t.proc q).parent = some p → (t.proc q).state ≠ .zombie

theorem exitWait_of (hc : Claims t) (hf : Family t) : ExitWait t where
  parent p hp hu he := by
    obtain ⟨pp, hpp, ha⟩ := hf.parent p hp (not_or.mpr ⟨hu, he⟩)
    exact ⟨pp, hpp, fun hun => absurd ha (Fresh.not_alive (.inl hun)).1, ha.not_zombie⟩
  stays e t' p hs hz := by
    by_cases hreap : reapOf t e = some p
    · obtain ⟨cur, pid, hpass⟩ := reapOf_eq_some.mp hreap
      rw [(step_reaped hs hpass).2.2.1]
      exact .inr ⟨cur, hpass⟩
    · have hexit : exitOf t e ≠ some p := fun h => by
        rw [(step_exited hc hs h).1] at hz
        cases hz
      have hkept := step_kept hc hs hexit hreap
      exact .inl ⟨hkept.zombie.mpr hz, hkept.pid hz⟩
  reaped e t' cur p pid hs hpass := step_reaped hs hpass
  exited e t' p hs hz := by
    by_cases hexit : exitOf t e = some p
    · exact .inr hexit
    · refine .inl ((step_kept hc hs hexit fun hreap => ?_).zombie.mp hz)
      obtain ⟨cur, pid, hpass⟩ := reapOf_eq_some.mp hreap
      rw [(step_reaped hs hpass).2.2.2] at hz
      cases hz
  failed e cur hpass := passOf_failed hpass
  awake p q hw hpar hz := hf.awake p hw q hz hpar

/-- Whether a slot is a zombie, as a number. -/
def zombies (p : Slot) (t : Table) : Nat := if (t.proc p).state = .zombie then 1 else 0

/-- A step that makes a zombie or takes one away, in numbers. -/
theorem zombies_step {t t' : Table} {e : Event} (hc : Claims t) (hs : step t e = some t') (p : Slot) :
    zombies p t + (exitOf t e == some p).toNat = (reapOf t e == some p).toNat + zombies p t' := by
  unfold zombies
  by_cases hexit : exitOf t e = some p
  · obtain ⟨hrun, hz⟩ := step_exited hc hs hexit
    have hreap : reapOf t e ≠ some p := fun h => by
      obtain ⟨cur, pid, hpass⟩ := reapOf_eq_some.mp h
      cases (step_reaped hs hpass).1.symm.trans hrun
    simp [hexit, hreap, hrun, hz]
  · by_cases hreap : reapOf t e = some p
    · obtain ⟨cur, pid, hpass⟩ := reapOf_eq_some.mp hreap
      obtain ⟨hz, -, -, hfree⟩ := step_reaped hs hpass
      simp [hreap, hz, hfree, hexit]
    · rw [beq_eq_false_iff_ne.mpr hexit, beq_eq_false_iff_ne.mpr hreap, Bool.toNat_false,
        Nat.zero_add, Nat.add_zero]
      simp only [(step_kept hc hs hexit hreap).zombie]

/-- In every run, after every step of it. Every process that has exited is reaped once, or is
still a zombie. -/
theorem exit_wait_protocol (d k : Nat) {es : List Event} {t : Table}
    (h : exec step (afterUserinit d k) es = some t) : ExitWait t ∧
      ∀ p, tally step (fun t e => exitOf t e == some p) (afterUserinit d k) es =
        tally step (fun t e => reapOf t e == some p) (afterUserinit d k) es + zombies p t := by
  have hreach : Reach step Init Any t := (Reach.start ⟨d, k, rfl⟩).exec es (.any _ _) h
  refine ⟨exitWait_of (claims_of_reach hreach) (family_of_reach hreach), fun p => ?_⟩
  have hbalance := tally_balance (n := zombies p) (fun _ _ _ hc hs => hc.step hs)
    (fun t e t' hc hs => zombies_step hc hs p) (claims_afterUserinit d k) h
  have hnone : zombies p (afterUserinit d k) = 0 := by
    refine if_neg fun hz => ?_
    simp only [afterUserinit, Function.update_apply] at hz
    split_ifs at hz
    cases hz
  rwa [hnone, Nat.zero_add] at hbalance

/-- init forks and waits; its child forks, exits and leaves its own child to init. init reaps
the first, and the second exits. -/
def orphaned : List Event :=
  [.schedule 0 0, .fork 0, .kalloc 0 (some 3), .copyuvm 0 (some 4), .forkEnd 0, .wait 0,
    .schedule 0 1, .fork 0, .kalloc 0 (some 5), .copyuvm 0 (some 6), .forkEnd 0, .exit 0,
    .schedule 0 0, .schedule 1 2, .exit 1]

theorem exit_wait_protocol_orphaned :
    ∃ t, exec step (afterUserinit 1 2) orphaned = some t ∧ (t.proc 2).parent = some 0 ∧
      (t.proc 2).state = .zombie ∧ ExitWait t ∧
      tally step (fun t e => exitOf t e == some 1) (afterUserinit 1 2) orphaned = 1 ∧
      tally step (fun t e => reapOf t e == some 1) (afterUserinit 1 2) orphaned = 1 := by
  have hrun : (exec step (afterUserinit 1 2) orphaned).any (fun t =>
      decide ((t.proc 2).parent = some 0 ∧ (t.proc 2).state = .zombie)) = true ∧
      tally step (fun t e => exitOf t e == some 1) (afterUserinit 1 2) orphaned = 1 ∧
      tally step (fun t e => reapOf t e == some 1) (afterUserinit 1 2) orphaned = 1 := by
    decide +kernel
  obtain ⟨t, ht, hp⟩ := (Option.any_eq_true _ _).mp hrun.1
  obtain ⟨hpar, hz⟩ := of_decide_eq_true hp
  exact ⟨t, ht, hpar, hz, (exit_wait_protocol 1 2 ht).1, hrun.2⟩

end Chameleon.Ptable
