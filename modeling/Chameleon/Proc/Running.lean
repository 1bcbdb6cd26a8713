import Chameleon.Proc.Turns

/-! A process runs on at most one CPU: every step of the scheduler machine keeps its invariant. -/

namespace Chameleon.Sched
open Machine
open Ptable (ProcState Slot Chan Proc TableOf Pc Claims Fresh)

section
variable {C : Type} [DecidableEq C] {s s' : Sys C} {c : C} {p : Slot} {e : Event C}

omit [DecidableEq C] in
/-- Whoever may take a step of CPU `c` under the lock, no other CPU holds it. -/
theorem lock_other {c c' : C} (hl : s.lock = none ∨ s.lock = some c) (hne : c' ≠ c) : s.lock ≠ some c' := by
  rcases hl with hl | hl <;> rw [hl]
  · exact (Option.some_ne_none c').symm
  · exact fun h => hne (Option.some.inj h).symm

theorem Local.goto {t : Sys C} (he : e.cpu = some c) (hctl : t.ctl = s.ctl) (hproc : t.proc = s.proc)
    (hstack : t.stack = s.stack) (hl : s.lock = none ∨ s.lock = some c) (x : Ctl) : Local s e (t.goto c x) := by
  have hne : ∀ {c'}, e.cpu ≠ some c' → c' ≠ c := fun h heq => h (heq ▸ he)
  refine ⟨fun c' hc => ?_, fun c' _ => congrFun hproc c', fun c' _ => congrFun hstack c', fun c' hc h => ?_⟩
  · rw [show (t.goto c x).ctl c' = t.ctl c' from Function.update_of_ne (hne hc) ..]
    exact congrFun hctl c'
  · exact absurd h (lock_other hl (hne hc))

theorem cpuOk_goto {t : Sys C} {x : Ctl} (h : x.Ok t.state (t.proc c) (t.stack c) (t.lock = some c)) :
    CpuOk (t.goto c x) c := by
  unfold CpuOk
  rw [show (t.goto c x).ctl c = x from Function.update_self ..]
  exact h

/-- A step of CPU `c` that goes on with `x` and leaves `c->proc` and the stack. -/
theorem Inv.goto (h : Inv s) {t : Sys C} {x : Ctl} (ht : Turns s e t.table.proc) (hl : s.lock = none ∨ s.lock = some c)
    (hc : e.cpu = some c) (he : e.forks = false) (hlook : ∀ c, e = .look c → t.table = s.table)
    (hrest : t.ctl = s.ctl ∧ t.proc = s.proc ∧ t.stack = s.stack ∧ t.ret = s.ret ∧ t.panicked = s.panicked)
    (hpc : ∀ q, t.table.pc q = s.table.pc q ∨ (t.table.pc q).claim = none)
    (hok : x.Ok t.state (s.proc c) (s.stack c) (t.lock = some c)) : Inv (t.goto c x) := by
  obtain ⟨hctl, hproc, hstack, hret, hpan⟩ := hrest
  refine h.keep ht he hlook (.goto hc hctl hproc hstack hl x) (fun c' hc' => ?_) hproc hpc
    (fun q => .inl (congrFun hret q)) (hpan ▸ h.panicked)
  obtain rfl : c = c' := Option.some.inj (hc.symm.trans hc')
  refine cpuOk_goto ?_
  rw [hproc, hstack]
  exact hok

theorem Inv.switch (h : Inv s) (hc : s.ctl c = .scan p) (hrun : s.state p = .runnable) : Inv (switch s c p) := by
  have ht : Turns s (.look c) (Sched.switch s c p).table.proc := by
    refine Turns.update (Turns.refl s _) (.inr ?_)
    rw [hrun]
    exact .chosen hc
  have hok := h.cpu c
  rw [hc] at hok
  obtain ⟨⟨hnone, -⟩, hl⟩ := hok
  have hother : ∀ c', s.proc c' ≠ some p := by
    intro c' hp
    rcases eq_or_ne c' c with rfl | hne
    · cases hnone.symm.trans hp
    · cases (h.state_of_lock hp (lock_other (.inr hl) hne)).symm.trans hrun
  have hproc : ∀ {c'}, c' ≠ c → (Sched.switch s c p).proc c' = s.proc c' := fun hne => Function.update_of_ne hne ..
  have hself : (Sched.switch s c p).proc c = some p := Function.update_self ..
  have hne : ∀ {c'}, (Event.look c).cpu ≠ some c' → c' ≠ c := fun h heq => h (heq ▸ rfl)
  have hloc : Local s (.look c) (Sched.switch s c p) :=
    ⟨fun c' h => Function.update_of_ne (hne h) .., fun c' h => hproc (hne h), fun c' h => Function.update_of_ne (hne h) ..,
      fun _ _ hl => hl⟩
  refine ⟨h.cpu_of_local ht hloc fun c' hc' => ?_, fun c₁ c₂ q h₁ h₂ => ?_, ?_,
    h.claims_of_turns ht rfl fun _ => .inl rfl, h.started, h.ended_of_turns ht fun _ hp => .inl hp, h.panicked⟩
  · obtain rfl : c = c' := Option.some.inj hc'
    refine cpuOk_goto ⟨⟨p, hself, Function.update_self .., ?_⟩, hl⟩
    show (Function.update s.table.proc p _ p).state = .running
    rw [Function.update_self]
  · rcases eq_or_ne c₁ c with rfl | hne₁
    · rcases eq_or_ne c₂ c₁ with rfl | hne₂
      · rfl
      · rw [hself] at h₁
        rw [hproc hne₂, ← Option.some.inj h₁] at h₂
        exact absurd h₂ (hother c₂)
    · rcases eq_or_ne c₂ c with rfl | hne₂
      · rw [hself] at h₂
        rw [hproc hne₁, ← Option.some.inj h₂] at h₁
        exact absurd h₁ (hother c₁)
      · exact h.one c₁ c₂ q (hproc hne₁ ▸ h₁) (hproc hne₂ ▸ h₂)
  · refine h.running_of_turns ht (fun c' q hq _ => ?_) fun c' q he hscan _ => ?_
    · rcases eq_or_ne c' c with rfl | hne'
      · cases hnone.symm.trans hq
      · exact (hproc hne').trans hq
    · obtain rfl : c = c' := Event.look.inj he
      obtain rfl : p = q := Fin.ext (Ctl.scan.inj (hc.symm.trans hscan))
      exact hself

theorem Inv.look (h : Inv s) {i : Nat} (hc : s.ctl c = .scan i) : Inv (look s c i) := by
  have hok := h.cpu c
  rw [hc] at hok
  obtain ⟨⟨hnone, hstack⟩, hl⟩ := hok
  unfold Sched.look
  split_ifs with hi hrun
  · exact h.goto (Turns.refl s _) (.inr hl) (e := .look c) rfl rfl (fun _ _ => rfl) ⟨rfl, rfl, rfl, rfl, rfl⟩
      (fun _ => .inl rfl) ⟨⟨hnone, hstack⟩, hl⟩
  · exact h.switch hc (not_not.mp hrun)
  · exact h.goto (Turns.refl s _) (.inr hl) (e := .look c) rfl rfl (fun _ _ => rfl) ⟨rfl, rfl, rfl, rfl, rfl⟩
      (fun _ => .inl rfl) ⟨hnone, hstack⟩

theorem Inv.back (h : Inv s) (hc : s.ctl c = .back) : Inv (back s c) := by
  have ht : Turns s (.back c) (Sched.back s c).table.proc := Turns.refl s _
  have hok := h.cpu c
  rw [hc] at hok
  obtain ⟨⟨p, hp, hstack, r, hleft⟩, hl⟩ := hok
  have hproc : ∀ {c'}, c' ≠ c → (Sched.back s c).proc c' = s.proc c' := fun hne => Function.update_of_ne hne ..
  have hself : (Sched.back s c).proc c = none := Function.update_self ..
  have hne : ∀ {c'}, (Event.back c).cpu ≠ some c' → c' ≠ c := fun h heq => h (heq ▸ rfl)
  have hold : ∀ c' q, (Sched.back s c).proc c' = some q → s.proc c' = some q := by
    intro c' q hq
    rcases eq_or_ne c' c with rfl | hne'
    · cases hself.symm.trans hq
    · exact hproc hne' ▸ hq
  have hloc : Local s (.back c) (Sched.back s c) :=
    ⟨fun c' h => Function.update_of_ne (hne h) .., fun c' h => hproc (hne h), fun _ _ => rfl, fun _ _ hl => hl⟩
  refine ⟨h.cpu_of_local ht hloc fun c' hc' => ?_, fun c₁ c₂ q h₁ h₂ => h.one c₁ c₂ q (hold _ _ h₁) (hold _ _ h₂), ?_,
    h.claims, h.started, h.ended, h.panicked⟩
  · obtain rfl : c = c' := Option.some.inj hc'
    exact cpuOk_goto ⟨⟨hself, hstack⟩, hl⟩
  · refine h.running_of_turns ht (fun c' q hq hrun => ?_) fun c' q he => nomatch he
    rcases eq_or_ne c' c with rfl | hne'
    · obtain rfl : p = q := Option.some.inj (hp.symm.trans hq)
      cases r <;> cases hleft.symm.trans hrun
    · exact (hproc hne').trans hq

theorem Ret.left_ne_running (r : Ret) : r.left ≠ .running := by
  cases r <;> exact ProcState.noConfusion

theorem Inv.sched (h : Inv s) {r : Ret} (hc : s.ctl c = .sched r) (hp : s.proc c = some p) : Inv (sched s c p r) := by
  obtain ⟨hstack, hleft, hl⟩ := h.leaving hc hp
  have hrun : s.state p ≠ .running := hleft ▸ r.left_ne_running
  unfold Sched.sched
  rw [if_neg (not_not.mpr hl), if_neg hrun]
  have hne : ∀ {c'}, (Event.sched c).cpu ≠ some c' → c' ≠ c := fun h heq => h (heq ▸ rfl)
  refine h.keep (e := .sched c) (Turns.refl s _) rfl (fun _ h => nomatch h)
    ⟨fun c' h => Function.update_of_ne (hne h) .., fun _ _ => rfl, fun c' h => Function.update_of_ne (hne h) ..,
      fun _ _ hl => hl⟩ (fun c' hc' => ?_) rfl (fun _ => .inl rfl) (fun q => ?_) h.panicked
  · obtain rfl : c = c' := Option.some.inj hc'
    exact cpuOk_goto ⟨⟨p, hp, Function.update_self .., r, hleft⟩, hl⟩
  · rcases eq_or_ne q p with rfl | hneq
    · refine .inr ⟨h.not_fresh hp, fun hr => ?_⟩
      change Function.update s.ret q r q = .exit at hr
      rw [Function.update_self] at hr
      exact hleft.trans (congrArg Ret.left hr)
    · exact .inl (Function.update_of_ne hneq ..)

/-- A process calls `sched`, in the state that goes with `r`. -/
theorem Inv.leave (h : Inv s) {t : Sys C} {r : Ret} {x : Proc} (ht : Turns s e (Function.update t.table.proc p x))
    (hl : s.lock = none ∨ s.lock = some c) (hp : s.proc c = some p) (hs : s.stack c = some p) (hc : e.cpu = some c)
    (hsw : e.switches) (hx : x.state = r.left)
    (hrest : t.ctl = s.ctl ∧ t.proc = s.proc ∧ t.stack = s.stack ∧ t.ret = s.ret ∧ t.panicked = s.panicked)
    (hpc : ∀ q, t.table.pc q = s.table.pc q ∨ (t.table.pc q).claim = none) :
    Inv ({ t with table := { t.table with proc := Function.update t.table.proc p x }, lock := some c }.goto c
      (.sched r)) := by
  refine h.goto ht hl hc ?_ ?_ hrest hpc ⟨⟨p, hp, hs, ?_⟩, rfl⟩
  · cases e <;> first | rfl | cases hsw
  · rintro c' rfl
    cases hsw
  · show (Function.update t.table.proc p x p).state = r.left
    rw [Function.update_self]
    exact hx

theorem setPc_noClaim (t : TableOf Empty) (q : Slot) {pc' : Pc} (h : pc'.claim = none) (q' : Slot) :
    (t.setPc q pc').pc q' = t.pc q' ∨ ((t.setPc q pc').pc q').claim = none := by
  rcases eq_or_ne q' q with rfl | hne
  · exact .inr ((congrArg Pc.claim (Function.update_self ..)).trans h)
  · exact .inl (Function.update_of_ne hne ..)

/-- One pass of `wait`, by a process that runs and holds the lock or may take it. -/
theorem Inv.waitPass (h : Inv s) {s₁ : Sys C} (ht : Turns s e (waitPass s₁ c p).table.proc)
    (hl : s.lock = none ∨ s.lock = some c) (hp : s.proc c = some p) (hs : s.stack c = some p) (hc : e.cpu = some c)
    (hsw : e.switches) (hrun : s₁.state p = .running)
    (hrest : s₁.ctl = s.ctl ∧ s₁.proc = s.proc ∧ s₁.stack = s.stack ∧ s₁.ret = s.ret ∧ s₁.panicked = s.panicked)
    (hpc : s₁.table.pc = s.table.pc) : Inv (waitPass s₁ c p) := by
  have hforks : e.forks = false := by cases e <;> first | rfl | cases hsw
  have hlook : ∀ c', e ≠ .look c' := by
    rintro c' rfl
    cases hsw
  have hclaim : ∀ t : TableOf Empty, t.pc = s₁.table.pc → ∀ pc' : Pc, pc'.claim = none → ∀ q,
      (t.setPc p pc').pc q = s.table.pc q ∨ ((t.setPc p pc').pc q).claim = none := by
    intro t ht pc' hn q
    rw [← hpc, ← ht]
    exact setPc_noClaim t p hn q
  unfold Sched.waitPass at ht ⊢
  split at ht
  · next q hscan =>
    have hz := (Ptable.scan_zombie hscan).2
    have hne : p ≠ q := by
      rintro rfl
      cases hz.symm.trans hrun
    refine h.goto ht hl hc hforks (fun c' he => absurd he (hlook c')) hrest (hclaim _ rfl .user rfl)
      ⟨p, hp, hs, ?_⟩
    show (Function.update s₁.table.proc q _ p).state = .running
    rw [Function.update_of_ne hne]
    exact hrun
  · split_ifs at ht ⊢
    · exact h.goto ht hl hc hforks (fun c' he => absurd he (hlook c')) hrest (hclaim _ rfl .user rfl)
        ⟨p, hp, hs, hrun⟩
    · exact h.leave (r := .sleep) ht hl hp hs hc hsw rfl hrest (hclaim _ rfl .wait rfl)

theorem Inv.resume (h : Inv s) (hc : s.ctl c = .resumed) (hs : s.stack c = some p) : Inv (resume s c p) := by
  obtain ⟨hp, hrun, hl⟩ := h.resumed hc hs
  have ht := h.turns (.resume hc hs)
  unfold Sched.resume at ht ⊢
  split at ht
  · exact h.goto (Turns.refl s (.resume c)) (.inr hl) rfl rfl (fun _ he => nomatch he) ⟨rfl, rfl, rfl, rfl, rfl⟩
      (setPc_noClaim s.table p rfl) ⟨p, hp, hs, hrun⟩
  · exact h.goto (Turns.refl s (.resume c)) (.inr hl) rfl rfl (fun _ he => nomatch he) ⟨rfl, rfl, rfl, rfl, rfl⟩
      (fun _ => .inl rfl) ⟨p, hp, hs, hrun⟩
  · have hstate : ((Function.update s.table.proc p { s.table.proc p with chan := none }) p).state = .running := by
      rw [Function.update_self]
      exact hrun
    dsimp only at ht ⊢
    split_ifs at ht ⊢
    · exact h.waitPass ht (.inr hl) hp hs rfl rfl hstate ⟨rfl, rfl, rfl, rfl, rfl⟩ rfl
    · exact h.goto ht (.inr hl) rfl rfl (fun _ he => nomatch he) ⟨rfl, rfl, rfl, rfl, rfl⟩
        (fun _ => .inl rfl) ⟨p, hp, hs, hstate⟩
  · next hret =>
    rcases h.ended p hret with hz | hf
    · cases hz.symm.trans hrun
    · exact absurd hf (h.not_fresh hp)

omit [DecidableEq C] in
/-- A step of `fork` that moves its claim. -/
theorem Inv.claimStep (h : Inv s) {t : TableOf Empty} {ret' : Slot → Ret} (hc : Executes s c p)
    (ht : Turns s e t.proc) (he : e.cpu = some c) (hsw : e.switches = false) (hlook : ∀ c, e ≠ .look c)
    (hclaims : Claims t)
    (hstart : ∀ q np, t.pc q = .copyuvm np ∨ t.pc q = .forkEnd np → ret' np = .forkret)
    (hret : ∀ q, ret' q = .exit → s.ret q = .exit) : Inv { s with table := t, ret := ret' } := by
  refine h.table ht hsw hlook (fun c' hc' => ?_) ⟨rfl, rfl, rfl, rfl, rfl⟩ hclaims hstart hret
  obtain rfl : c = c' := Option.some.inj (he.symm.trans hc')
  exact hc.1

omit [DecidableEq C] in
/-- Where one process of `fork` has moved on, the others stand where they stood. -/
theorem Inv.started_of_setPc (h : Inv s) {t : TableOf Empty} {pc' : Pc} {ret' : Slot → Ret} (ht : t.pc = s.table.pc)
    (hnew : ∀ np, pc' = .copyuvm np ∨ pc' = .forkEnd np → ret' np = .forkret)
    (hret : ∀ np, s.ret np = .forkret → ret' np = .forkret) (q np : Slot)
    (hq : (t.setPc p pc').pc q = .copyuvm np ∨ (t.setPc p pc').pc q = .forkEnd np) : ret' np = .forkret := by
  rcases eq_or_ne q p with rfl | hne
  · rw [show (t.setPc q pc').pc q = pc' from Function.update_self ..] at hq
    exact hnew np hq
  · rw [show (t.setPc p pc').pc q = t.pc q from Function.update_of_ne hne .., ht] at hq
    exact hret np (h.started q np hq)

theorem Inv.move (h : Inv s) (hm : Move s e s') : Inv s' := by
  have ht := h.turns hm
  have hleft : ∀ {pc' : Pc}, pc' = .user → ∀ np, pc' = .copyuvm np ∨ pc' = .forkEnd np → s.ret np = .forkret := by
    rintro _ rfl np (hnp | hnp) <;> cases hnp
  cases hm with
  | @acquire c hc hl =>
    have hok := h.cpu c
    rw [hc] at hok
    exact h.goto (e := .acquire c) (Turns.refl s _) (.inl hl) rfl rfl (fun _ he => nomatch he) ⟨rfl, rfl, rfl, rfl, rfl⟩
      (fun _ => .inl rfl) ⟨hok, rfl⟩
  | look hc => exact h.look hc
  | back hc => exact h.back hc
  | sched hc hp => exact h.sched hc hp
  | resume hc hs => exact h.resume hc hs
  | @noProc c a hc hp =>
    have hok := h.cpu c
    rw [hc] at hok
    obtain ⟨p, hp', -⟩ := hok
    cases hp.symm.trans hp'
  | wakeup chan hl =>
    exact h.table ht rfl (fun _ he => nomatch he) (fun _ he => nomatch he) ⟨rfl, rfl, rfl, rfl, rfl⟩
      (h.claims_of_turns ht rfl fun _ => .inl rfl) h.started fun _ hp => hp
  | yield hc hl =>
    exact h.leave (r := .yield) ht (.inl hl) hc.2 (h.executes hc).1 rfl rfl rfl ⟨rfl, rfl, rfl, rfl, rfl⟩
      fun _ => .inl rfl
  | sleep a hc hl =>
    exact h.leave (r := .sleep) ht (.inl hl) hc.2 (h.executes hc).1 rfl rfl rfl ⟨rfl, rfl, rfl, rfl, rfl⟩
      fun _ => .inl rfl
  | initExits => exact ⟨h.cpu, h.one, h.running, h.claims, h.started, h.ended, .inr rfl⟩
  | @exit c p hc hl =>
    have hpc : ∀ q, (Ptable.reparent (Ptable.wakeParent s.table p) p).pc q = s.table.pc q := by simp
    exact h.leave (t := s.setTable (Ptable.reparent (Ptable.wakeParent s.table p) p)) (r := .exit) ht (.inl hl) hc.2
      (h.executes hc).1 rfl rfl rfl ⟨rfl, rfl, rfl, rfl, rfl⟩ fun q => .inl (hpc q)
  | wait hc hl hpc =>
    exact h.waitPass ht (.inl hl) hc.2 (h.executes hc).1 rfl rfl (h.executes hc).2 ⟨rfl, rfl, rfl, rfl, rfl⟩ rfl
  | @kill c p pid hc hl =>
    have hpc : (Ptable.kill s.table pid).2.pc = s.table.pc := by
      unfold Ptable.kill
      split <;> rfl
    have hclaims : Claims (s.setTable (Ptable.kill s.table pid).2).table :=
      h.claims_of_turns ht rfl fun q => .inl (congrFun hpc q)
    exact h.claimStep hc ht rfl rfl (fun _ he => nomatch he) hclaims
      (fun q np hq => h.started q np (hpc ▸ hq)) fun _ hp => hp
  | noSlot => exact h
  | @fork c p np t hc ha =>
    obtain ⟨-, rfl⟩ := Ptable.allocproc_eq_some ha
    exact h.claimStep hc ht rfl rfl (fun _ he => nomatch he) (h.claims.allocproc ha)
      (h.started_of_setPc rfl (fun _ hnp => by rcases hnp with hnp | hnp <;> cases hnp) fun _ hr => hr) fun _ hp => hp
  | @noStack c p np hc hpc =>
    exact h.claimStep hc ht rfl rfl (fun _ he => nomatch he)
      (h.claims.claimStep (by rw [hpc]; rfl) (.inr ⟨ProcState.noConfusion, rfl⟩)) (h.started_of_setPc rfl (hleft rfl) fun _ hr => hr)
      fun _ hp => hp
  | @stack c p np k hc hpc =>
    have hemb := h.claims.claimed p np (by rw [hpc]; rfl)
    -- `allocproc` makes the first turn of the new process begin in `forkret`.
    have hret : ∀ q, Function.update s.ret np .forkret q = .forkret ∨ Function.update s.ret np .forkret q = s.ret q := by
      intro q
      rcases eq_or_ne q np with rfl | hne
      · exact .inl (Function.update_self ..)
      · exact .inr (Function.update_of_ne hne ..)
    refine h.claimStep hc ht rfl rfl (fun _ he => nomatch he)
      (h.claims.claimStep (by rw [hpc]; rfl) (.inl ⟨hemb, rfl⟩))
      (h.started_of_setPc rfl (fun np' hnp => ?_) fun q hq => (hret q).elim id fun hsame => hsame.trans hq) fun q hq => ?_
    · rcases hnp with hnp | hnp
      · obtain rfl := Pc.copyuvm.inj hnp
        exact Function.update_self ..
      · cases hnp
    · rcases hret q with hf | hsame
      · cases hf.symm.trans hq
      · exact hsame ▸ hq
  | @noPages c p np hc hpc =>
    exact h.claimStep hc ht rfl rfl (fun _ he => nomatch he)
      (h.claims.claimStep (by rw [hpc]; rfl) (.inr ⟨ProcState.noConfusion, rfl⟩)) (h.started_of_setPc rfl (hleft rfl) fun _ hr => hr)
      fun _ hp => hp
  | @pages c p np d hc hpc =>
    have hemb := h.claims.claimed p np (by rw [hpc]; rfl)
    refine h.claimStep hc ht rfl rfl (fun _ he => nomatch he)
      (h.claims.claimStep (by rw [hpc]; rfl) (.inl ⟨hemb, rfl⟩)) (h.started_of_setPc rfl (fun np' hnp => ?_) fun _ hr => hr) fun _ hp => hp
    rcases hnp with hnp | hnp
    · cases hnp
    · obtain rfl := Pc.forkEnd.inj hnp
      exact h.started p np (.inl hpc)
  | @forkEnd c p np hc hpc =>
    exact h.claimStep hc ht rfl rfl (fun _ he => nomatch he)
      (h.claims.claimStep (by rw [hpc]; rfl) (.inr ⟨ProcState.noConfusion, rfl⟩)) (h.started_of_setPc rfl (hleft rfl) fun _ hr => hr)
      fun _ hp => hp

omit [DecidableEq C] in
theorem inv_init (h : Init s) : Inv s := by
  obtain ⟨⟨d, k, ht⟩, hret, hproc, hstack, hctl, -, hpan⟩ := h
  have hrun : ∀ p, s.state p ≠ .running := by
    intro p
    rw [Sys.state, ht, Ptable.afterUserinit]
    dsimp only
    rcases eq_or_ne p 0 with rfl | hne
    · rw [Function.update_self]
      exact ProcState.noConfusion
    · rw [Function.update_of_ne hne]
      exact ProcState.noConfusion
  refine ⟨fun c => ?_, fun c c' p hp => ?_, fun p hp => absurd hp (hrun p), ht ▸ Ptable.claims_afterUserinit d k,
    fun p np _ => by rw [hret], fun p hp => ?_, .inl hpan⟩
  · rw [hctl, hproc, hstack]
    exact ⟨rfl, rfl⟩
  · rw [hproc] at hp
    cases hp
  · rw [hret] at hp
    cases hp

theorem inv_of_reach (h : Reach step Init Any s) : Inv s :=
  h.invariant (fun _ => inv_init) fun _ _ _ hi _ hs => hi.move (Move.of_step hs).2

/-! ### A process runs on at most one CPU -/

/-- While nobody holds `ptable.lock`, the CPUs and the running slots belong together. -/
structure Paired (s : Sys C) : Prop where
  running : ∀ p, s.state p = .running ↔ ∃! c, s.proc c = some p
  proc : ∀ c p, s.proc c = some p → s.state p = .running

/-- What a step may do to a slot: only a runnable one is chosen and runs, a sleeping one is woken on
its channel or killed, a zombie is reaped while no CPU is on its kernel stack. -/
structure Orderly (s : Sys C) (e : Event C) (s' : Sys C) : Prop where
  chosen : ∀ c p, s.proc c ≠ some p → s'.proc c = some p → s.state p = .runnable
  running : ∀ p, s.state p ≠ .running → s'.state p = .running → s.state p = .runnable
  sleeping : ∀ p, s.state p = .sleeping → s'.state p ≠ .sleeping →
    (∃ chan, Wakes s e chan ∧ (s.table.proc p).chan = some chan) ∨
      ∃ c, e = .kill c (s.table.proc p).pid
  zombie : ∀ p, s.state p = .zombie → s'.state p ≠ .zombie → ∀ c, s.stack c ≠ some p ∧ s'.stack c ≠ some p

omit [DecidableEq C] in
theorem Inv.paired (h : Inv s) (hl : s.lock = none) : Paired s := by
  have hrun : ∀ c p, s.proc c = some p → s.state p = .running := by
    intro c p hp
    exact h.state_of_lock hp (by rw [hl]; exact (Option.some_ne_none c).symm)
  refine ⟨fun p => ⟨fun hp => ?_, fun hp => hrun _ _ hp.choose_spec.1⟩, hrun⟩
  obtain ⟨c, hc⟩ := h.running p hp
  exact ⟨c, hc, fun c' hc' => h.one c' c p hc' hc⟩

omit [DecidableEq C] in
theorem Inv.proc_of_stack (h : Inv s) (hs : s.stack c = some p) : s.proc c = some p := by
  have hok := h.cpu c
  have hsame : ∀ {q}, s.proc c = some q → s.stack c = some q → s.proc c = some p := by
    intro q hq hsq
    rw [hq, ← hsq, hs]
  cases hc : s.ctl c with
  | idle =>
    rw [hc] at hok
    cases hok.2.symm.trans hs
  | scan i =>
    rw [hc] at hok
    cases hok.1.2.symm.trans hs
  | back =>
    rw [hc] at hok
    obtain ⟨⟨q, -, hsq, -⟩, -⟩ := hok
    cases hsq.symm.trans hs
  | free =>
    rw [hc] at hok
    obtain ⟨q, hq, hsq, -⟩ := hok
    exact hsame hq hsq
  | sched r =>
    rw [hc] at hok
    obtain ⟨⟨q, hq, hsq, -⟩, -⟩ := hok
    exact hsame hq hsq
  | resumed =>
    rw [hc] at hok
    obtain ⟨⟨q, hq, hsq, -⟩, -⟩ := hok
    exact hsame hq hsq

theorem waitPass_proc (s : Sys C) (c : C) (p : Slot) : (waitPass s c p).proc = s.proc := by
  unfold waitPass
  split
  · rfl
  · split_ifs <;> rfl

theorem resume_proc (s : Sys C) (c : C) (p : Slot) : (resume s c p).proc = s.proc := by
  unfold resume
  split
  · rfl
  · rfl
  · dsimp only
    split_ifs
    · exact waitPass_proc _ c p
    · rfl
  · rfl

/-- `c->proc` changes only where the scheduler chooses a runnable slot, or has taken a CPU back. -/
theorem Move.proc (hm : Move s e s') {c : C} {p : Slot} (hold : s.proc c ≠ some p) (hnew : s'.proc c = some p) :
    s.state p = .runnable := by
  cases hm with
  | @look c' i hc =>
    unfold Sched.look at hnew
    split_ifs at hnew with hi hrun
    · exact absurd hnew hold
    · change Function.update s.proc c' _ c = some p at hnew
      rcases eq_or_ne c c' with rfl | hne
      · rw [Function.update_self] at hnew
        exact Option.some.inj hnew ▸ not_not.mp hrun
      · rw [Function.update_of_ne hne] at hnew
        exact absurd hnew hold
    · exact absurd hnew hold
  | @back c' hc =>
    change Function.update s.proc c' _ c = some p at hnew
    rcases eq_or_ne c c' with rfl | hne
    · rw [Function.update_self] at hnew
      cases hnew
    · rw [Function.update_of_ne hne] at hnew
      exact absurd hnew hold
  | sched hc hp =>
    unfold Sched.sched at hnew
    split_ifs at hnew <;> exact absurd hnew hold
  | resume hc hp =>
    rw [resume_proc] at hnew
    exact absurd hnew hold
  | wait hc hl hpc =>
    rw [waitPass_proc] at hnew
    exact absurd hnew hold
  | _ => exact absurd hnew hold

theorem Inv.orderly (h : Inv s) (hm : Move s e s') : Orderly s e s' := by
  have ht := h.turns hm
  have h' := h.move hm
  refine ⟨fun c p => hm.proc, fun p hp hp' => ?_, fun p hp hp' => ?_, fun p hp hp' c => ?_⟩
  · rcases ht p with hsame | hturn
    · exact absurd (hsame.symm.trans hp') hp
    · rw [show (s'.table.proc p).state = .running from hp'] at hturn
      generalize s.state p = st at hturn
      generalize hst : ProcState.running = st' at hturn
      cases hturn with
      | chosen => rfl
      | left _ _ _ r => exact absurd hst.symm r.left_ne_running
      | woken | killed | reaped | claimed | dropped | born => cases hst
  · have hturn := (ht p).resolve_left fun hsame => hp' (hsame.trans hp)
    rw [hp] at hturn
    generalize (s'.table.proc p).state = st' at hturn
    generalize hst : ProcState.sleeping = st at hturn
    cases hturn with
    | woken _ hw hchan => exact .inl ⟨_, hw, hchan⟩
    | @killed c _ _ _ hpid => exact .inr ⟨c, hpid ▸ rfl⟩
    | chosen | left | reaped | claimed | dropped | born => cases hst
  · have hturn := (ht p).resolve_left fun hsame => hp' (hsame.trans hp)
    rw [hp] at hturn
    generalize hnew : (s'.table.proc p).state = st' at hturn
    generalize hst : ProcState.zombie = st at hturn
    cases hturn with
    | @reaped c' _ _ _ hctl =>
      refine ⟨fun hs => ?_, fun hs => h'.not_fresh (h'.proc_of_stack hs) (.inl hnew)⟩
      -- a zombie on a CPU has not yet been switched from, so that CPU has the lock
      rcases h.busy (h.proc_of_stack hs) with hrun | ⟨-, hl⟩
      · cases hp.symm.trans hrun
      · rcases hctl with ⟨-, hnone⟩ | hres
        · cases hnone.symm.trans hl
        · have hok := h.cpu c'
          rw [hres] at hok
          obtain rfl : c' = c := Option.some.inj (hok.2.symm.trans hl)
          cases hp.symm.trans (h.resumed hres hs).2.1
    | chosen | left | woken | killed | claimed | dropped | born => cases hst

/-- Whatever the CPUs do, a slot runs if and only if exactly one CPU has it, and no step breaks the
order of the states. The only panic that a run can end in is that of an exiting init. -/
theorem runs_on_one_cpu {C : Type} [DecidableEq C] {s : Sys C} (h : Reach step Init Any s) :
    (s.lock = none → Paired s) ∧ (∀ e s', step s e = some s' → Orderly s e s') ∧
      (s.panicked = none ∨ s.panicked = some "init exiting") :=
  have hinv := inv_of_reach h
  ⟨hinv.paired, fun _ _ hs => hinv.orderly (Move.of_step hs).2, hinv.panicked⟩

/-- Two CPUs after boot. -/
def twoCpus : Sys Bool where
  table := Ptable.afterUserinit 8192 4096
  ret := fun _ => .forkret
  proc := fun _ => none
  stack := fun _ => none
  loop := fun _ => 0
  ctl := fun _ => .idle
  lock := none
  panicked := none

/-- The first process forks, and the second CPU runs the child. -/
theorem runs_on_one_cpu_forked : ∃ s, exec step twoCpus [.acquire false, .look false, .resume false, .fork false,
    .kalloc false (some 12288), .copyuvm false (some 16384), .forkEnd false, .acquire true, .look true, .look true,
    .resume true] = some s ∧ Paired s := by
  have hrun : (exec step twoCpus [.acquire false, .look false, .resume false, .fork false,
    .kalloc false (some 12288), .copyuvm false (some 16384), .forkEnd false, .acquire true, .look true, .look true,
    .resume true]).map Sys.lock = some none := by decide +kernel
  obtain ⟨s, hs, hl⟩ := Option.map_eq_some_iff.mp hrun
  refine ⟨s, hs, (runs_on_one_cpu ((Reach.start ?_).exec _ (Meets.any _ _) hs)).1 hl⟩
  exact ⟨⟨_, _, rfl⟩, rfl, rfl, rfl, rfl, rfl, rfl⟩

end
end Chameleon.Sched
