import Mathlib.Data.Finset.Card
import Chameleon.Lib.Machine

/-! The spinlocks of `spinlock.c` on any number of CPUs, which take turns at each access to a lock. What a CPU does to its
own flags and counters no other CPU sees, so it goes with the access before or after it. -/

namespace Chameleon.Spinlock
open Machine

/-- `FL_IF` and the fields of `struct cpu`. -/
structure Cpu where
  intr : Bool
  ncli : Int
  intena : Bool

-- an interrupt between `readeflags` and `cli` returns with the flag as it was read
def pushcli (c : Cpu) : Cpu := ⟨false, c.ncli + 1, if c.ncli = 0 then c.intr else c.intena⟩

def popcli (c : Cpu) : Except String Cpu :=
  if c.intr then .error "popcli - interruptible"
  else if c.ncli - 1 < 0 then .error "popcli"
  else .ok ⟨decide (c.ncli - 1 = 0) && c.intena, c.ncli - 1, c.intena⟩

/-- `struct spinlock` -/
structure Lock (ι : Type) where
  locked : Bool
  cpu : Option ι

/-- Who calls `holding`. -/
inductive Caller
  | acquire
  | release
deriving DecidableEq

/-- The next access of a CPU. -/
inductive Pc (κ : Type)
  | run
  | locked (u : Caller) (k : κ)
  | owner (u : Caller) (k : κ)
  | xchg (k : κ)
  | mark (k : κ)
  | unmark (k : κ)
  | clear (k : κ)
  | pop
  | stop (msg : String) (k : Option κ)
deriving DecidableEq

/-- A CPU, with the locks that it has, the calls of `pushcli` that its code has not undone, and whether that code has
interrupts on when it is in none of them. -/
structure Core (κ : Type) where
  cpu : Cpu
  pc : Pc κ
  held : Finset κ
  pushes : Nat
  flag : Bool

structure State (ι κ : Type) where
  core : ι → Core κ
  lock : κ → Lock ι

inductive Op (κ : Type)
  | turn
  | acquire (k : κ)
  | release (k : κ)
  | pushcli
  | popcli
  | intr
  | sti
  | resume (intena : Bool)

section Step

variable {ι κ : Type} [DecidableEq ι] [DecidableEq κ]

def Core.goto (x : Core κ) (cpu : Cpu) (pc : Pc κ) : Core κ := ⟨cpu, pc, x.held, x.pushes, x.flag⟩

def Core.pop (x : Core κ) (pc : Pc κ) : Core κ :=
  match popcli x.cpu with
  | .ok cpu => x.goto cpu pc
  | .error msg => x.goto x.cpu (.stop msg none)

/-- What the caller does with the answer of `holding`. -/
def answered (k : κ) : Caller → Bool → Pc κ
  | .acquire, true => .stop "acquire" (some k)
  | .acquire, false => .xchg k
  | .release, true => .unmark k
  | .release, false => .stop "release" (some k)

def State.set (s : State ι κ) (c : ι) (x : Core κ) (k : κ) (l : Lock ι) : State ι κ :=
  ⟨Function.update s.core c x, Function.update s.lock k l⟩

def State.setCore (s : State ι κ) (c : ι) (x : Core κ) : State ι κ := ⟨Function.update s.core c x, s.lock⟩

def turn (s : State ι κ) (c : ι) (x : Core κ) : Pc κ → Option (State ι κ)
  | .run | .stop _ _ => none
  | .locked u k =>
    some (s.setCore c (if (s.lock k).locked then x.goto x.cpu (.owner u k) else x.pop (answered k u false)))
  | .owner u k => some (s.setCore c (x.pop (answered k u (decide ((s.lock k).cpu = some c)))))
  | .xchg k =>
    if (s.lock k).locked then some s
    else some (s.set c ⟨x.cpu, .mark k, insert k x.held, x.pushes, x.flag⟩ k ⟨true, (s.lock k).cpu⟩)
  | .mark k => some (s.set c (x.goto x.cpu .run) k ⟨(s.lock k).locked, some c⟩)
  | .unmark k => some (s.set c (x.goto x.cpu (.clear k)) k ⟨(s.lock k).locked, none⟩)
  | .clear k => some (s.set c ⟨x.cpu, .pop, x.held.erase k, x.pushes, x.flag⟩ k ⟨false, (s.lock k).cpu⟩)
  | .pop => some (s.setCore c (x.pop .run))

/-- What the code of a CPU may call: it undoes its own `pushcli` only, and turns interrupts on outside of them. The handler
of an interrupt runs with interrupts off and ends by `sti`; `resume` is the end of `sched`. -/
def call (x : Core κ) : Op κ → Option (Core κ)
  | .turn => none
  | .acquire k => some (x.goto (Spinlock.pushcli (Spinlock.pushcli x.cpu)) (.locked .acquire k))
  | .release k => some (x.goto (Spinlock.pushcli x.cpu) (.locked .release k))
  | .pushcli => some ⟨Spinlock.pushcli x.cpu, .run, x.held, x.pushes + 1, x.flag⟩
  | .popcli => if 0 < x.pushes then some (Core.pop ⟨x.cpu, .run, x.held, x.pushes - 1, x.flag⟩ .run) else none
  | .intr => if x.cpu.intr then some ⟨⟨false, x.cpu.ncli, x.cpu.intena⟩, .run, x.held, x.pushes, false⟩ else none
  | .sti => if x.cpu.ncli = 0 then some ⟨⟨true, x.cpu.ncli, x.cpu.intena⟩, .run, x.held, x.pushes, true⟩ else none
  | .resume b => if x.cpu.ncli = 1 then some ⟨⟨x.cpu.intr, x.cpu.ncli, b⟩, .run, x.held, x.pushes, b⟩ else none

def step (s : State ι κ) (e : ι × Op κ) : Option (State ι κ) :=
  match e.2 with
  | .turn => turn s e.1 (s.core e.1) (s.core e.1).pc
  | op => if (s.core e.1).pc = .run then (call (s.core e.1) op).map (s.setCore e.1) else none

/-- All locks are free. -/
def Init (s : State ι κ) : Prop :=
  (∀ c, (s.core c).pc = .run ∧ (s.core c).held = ∅ ∧ (s.core c).pushes = 0 ∧ (s.core c).cpu.ncli = 0 ∧
    (s.core c).cpu.intr = (s.core c).flag) ∧ ∀ k, s.lock k = ⟨false, none⟩

/-- `holding` at one moment. -/
def holding (s : State ι κ) (c : ι) (k : κ) : Bool := (s.lock k).locked && decide ((s.lock k).cpu = some c)

end Step

section Nesting

variable {c : Cpu} {b : Bool} {n : Nat}

/-- A CPU in `n` calls of `pushcli`, whose code has interrupts on outside of them if `b`. -/
structure Nested (c : Cpu) (b : Bool) (n : Nat) : Prop where
  ncli : c.ncli = n
  intr : c.intr = (decide (n = 0) && b)
  intena : n ≠ 0 → c.intena = b

theorem Nested.push (h : Nested c b n) : Nested (pushcli c) b (n + 1) where
  ncli := congrArg (· + 1) h.ncli
  intr := rfl
  intena _ := by
    by_cases hn : n = 0
    · subst hn
      exact (if_pos h.ncli).trans h.intr
    · have hne : c.ncli ≠ 0 := by
        rw [h.ncli]
        exact Int.natCast_ne_zero.mpr hn
      exact (if_neg hne).trans (h.intena hn)

/-- `popcli` does not panic, and the last one brings the flag back. -/
theorem Nested.pop (h : Nested c b (n + 1)) : ∃ c', popcli c = .ok c' ∧ Nested c' b n := by
  have hoff : c.intr = false := h.intr
  have hncli : c.ncli - 1 = n := by
    rw [h.ncli]
    omega
  refine ⟨⟨decide (n = 0) && b, n, b⟩, ?_, rfl, rfl, fun _ => rfl⟩
  rw [popcli, hoff, hncli, h.intena (Nat.succ_ne_zero n), if_neg Bool.false_ne_true,
    if_neg (Int.not_lt.mpr (Int.natCast_nonneg n))]
  simp only [Int.natCast_eq_zero]

end Nesting

section Safety

variable {ι κ : Type} {s s' : State ι κ} {c : ι} {k : κ} {x x' : Core κ} {u : Caller} {r : Bool}

/-- The calls of `pushcli` on the way, beyond one for each lock. -/
def Pc.extra : Pc κ → Nat
  | .locked .acquire _ | .owner .acquire _ => 2
  | .locked .release _ | .owner .release _ | .xchg _ | .pop => 1
  | .stop msg _ => if msg = "acquire" then 1 else 0
  | .run | .mark _ | .unmark _ | .clear _ => 0

/-- The lock whose `locked` is set while its `cpu` is not. -/
def Pc.between : Pc κ → Option κ
  | .mark k | .clear k => some k
  | _ => none

/-- What the locks of a CPU are where it stands: it panics only by its own mistake. -/
def Pc.Fits (held : Finset κ) : Pc κ → Prop
  | .mark k | .unmark k | .clear k => k ∈ held
  | .xchg k => k ∉ held
  | .stop msg o => ∃ k, o = some k ∧ (msg = "acquire" ∧ k ∈ held ∨ msg = "release" ∧ k ∉ held)
  | .run | .locked _ _ | .owner _ _ | .pop => True

structure Core.Ok (x : Core κ) : Prop where
  nested : Nested x.cpu x.flag (x.held.card + x.pushes + x.pc.extra)
  fits : x.pc.Fits x.held

structure Safe (s : State ι κ) : Prop where
  core : ∀ c, (s.core c).Ok
  exclusive : ∀ ⦃c c' k⦄, k ∈ (s.core c).held → k ∈ (s.core c').held → c = c'
  locked : ∀ k, (s.lock k).locked = true ↔ ∃ c, k ∈ (s.core c).held
  cpu : ∀ k c, (s.lock k).cpu = some c ↔ k ∈ (s.core c).held ∧ (s.core c).pc.between ≠ some k

theorem pop_eq {n : Nat} (h : Nested x.cpu x.flag (n + 1)) (pc : Pc κ) :
    ∃ cpu, x.pop pc = x.goto cpu pc ∧ Nested cpu x.flag n := by
  obtain ⟨cpu, hpop, hcpu⟩ := h.pop
  refine ⟨cpu, ?_, hcpu⟩
  rw [Core.pop, hpop]

theorem Core.Ok.call {op : Op κ} (hx : x.Ok) (hpc : x.pc = .run) (hs : call x op = some x') :
    x'.Ok ∧ x'.held = x.held ∧ x'.pc.between = none := by
  have hnested := hx.nested
  rw [hpc] at hnested
  cases op with
  | turn => cases hs
  | acquire k =>
    obtain rfl := Option.some.inj hs
    exact ⟨⟨hnested.push.push, trivial⟩, rfl, rfl⟩
  | release _ | pushcli =>
    obtain rfl := Option.some.inj hs
    exact ⟨⟨hnested.push, trivial⟩, rfl, rfl⟩
  | popcli =>
    obtain ⟨hpos, hs⟩ := Option.ite_none_right_eq_some.mp hs
    obtain rfl := Option.some.inj hs
    rw [← Nat.succ_pred_eq_of_pos hpos] at hnested
    obtain ⟨cpu, hpop, hcpu⟩ := pop_eq (x := ⟨x.cpu, .run, x.held, x.pushes - 1, x.flag⟩) hnested .run
    rw [hpop]
    exact ⟨⟨hcpu, trivial⟩, rfl, rfl⟩
  | intr =>
    obtain ⟨hon, hs⟩ := Option.ite_none_right_eq_some.mp hs
    obtain rfl := Option.some.inj hs
    -- interrupts are on in no call of `pushcli` only
    rw [hnested.intr, Bool.and_eq_true, decide_eq_true_iff] at hon
    exact ⟨⟨⟨hnested.ncli, (Bool.and_false _).symm, absurd hon.1⟩, trivial⟩, rfl, rfl⟩
  | sti =>
    obtain ⟨hncli, hs⟩ := Option.ite_none_right_eq_some.mp hs
    obtain rfl := Option.some.inj hs
    have hzero := Int.natCast_eq_zero.mp (hnested.ncli.symm.trans hncli)
    refine ⟨⟨⟨hnested.ncli, ?_, absurd hzero⟩, trivial⟩, rfl, rfl⟩
    exact ((Bool.and_true _).trans (decide_eq_true hzero)).symm
  | resume b =>
    obtain ⟨hncli, hs⟩ := Option.ite_none_right_eq_some.mp hs
    obtain rfl := Option.some.inj hs
    have hone := Int.natCast_inj.mp (hnested.ncli.symm.trans hncli : _ = ((1 : Nat) : Int))
    have hoff : ∀ b, (decide (x.held.card + x.pushes + (Pc.run : Pc κ).extra = 0) && b) = false := by
      rw [hone]
      exact fun _ => rfl
    exact ⟨⟨⟨hnested.ncli, hnested.intr.trans ((hoff _).trans (hoff b).symm), fun _ => rfl⟩, trivial⟩, rfl, rfl⟩

theorem Init.safe (h : Init s) : Safe s := by
  obtain ⟨hcore, hlock⟩ := h
  have hheld : ∀ c k, k ∉ (s.core c).held := by
    intro c k
    rw [(hcore c).2.1]
    exact Finset.notMem_empty k
  refine ⟨fun c => ?_, fun c _ k hk => absurd hk (hheld c k), fun k => ?_, fun k c => ?_⟩
  · obtain ⟨hpc, hempty, hpushes, hncli, hintr⟩ := hcore c
    refine ⟨?_, by rw [hpc]; exact trivial⟩
    rw [hpc, hempty, hpushes]
    exact ⟨hncli, hintr, fun hne => absurd rfl hne⟩
  · rw [hlock]
    exact iff_of_false Bool.false_ne_true fun hex => hex.elim fun c hk => hheld c k hk
  · rw [hlock]
    exact iff_of_false nofun fun hand => hheld c k hand.1

variable [DecidableEq ι]

theorem Safe.setCore (h : Safe s) (hx : x.Ok) (hheld : x.held = (s.core c).held) (hpc : x.pc.between = (s.core c).pc.between) :
    Safe (s.setCore c x) := by
  have hcore : ∀ c', (s.setCore c x).core c' = if c' = c then x else s.core c' := fun _ => Function.update_apply ..
  have hsame : ∀ c', ((s.setCore c x).core c').held = (s.core c').held ∧
      ((s.setCore c x).core c').pc.between = (s.core c').pc.between := by
    intro c'
    rw [hcore]
    split_ifs with hc
    · exact hc ▸ ⟨hheld, hpc⟩
    · exact ⟨rfl, rfl⟩
  refine ⟨fun c' => ?_, ?_, fun k => ?_, fun k c' => ?_⟩
  · rw [hcore]
    split_ifs
    · exact hx
    · exact h.core c'
  · simpa only [(hsame _).1] using h.exclusive
  · simp only [(hsame _).1]
    exact h.locked k
  · rw [(hsame c').1, (hsame c').2]
    exact h.cpu k c'

/-- `holding` returns, and its answer was right when it read the lock. -/
theorem Safe.answer (h : Safe s) (hpc : (s.core c).pc = .locked u k ∨ (s.core c).pc = .owner u k)
    (hr : r = true ↔ k ∈ (s.core c).held) : Safe (s.setCore c ((s.core c).pop (answered k u r))) := by
  have hextra : (s.core c).pc.extra = (answered k u r).extra + 1 := by
    rcases hpc with hpc | hpc <;> rw [hpc] <;> cases u <;> cases r <;> rfl
  have hnested := (h.core c).nested
  rw [hextra, ← Nat.add_assoc] at hnested
  obtain ⟨cpu, hpop, hcpu⟩ := pop_eq hnested (answered k u r)
  rw [hpop]
  refine h.setCore ⟨hcpu, ?_⟩ rfl ?_
  · change (answered k u r).Fits (s.core c).held
    cases u <;> cases r <;> simp [answered, Pc.Fits] at hr ⊢ <;> exact hr
  · change (answered k u r).between = _
    rcases hpc with hpc | hpc <;> rw [hpc] <;> cases u <;> cases r <;> rfl

variable [DecidableEq κ]

/-- A step of a CPU that changes lock `k`, which no other CPU has. -/
theorem Safe.set {l : Lock ι} (h : Safe s) (hx : x.Ok) (hheld : ∀ k', k' ≠ k → (k' ∈ x.held ↔ k' ∈ (s.core c).held))
    (hpc : ∀ k', x.pc.between = some k' → k' = k) (hpc' : ∀ k', (s.core c).pc.between = some k' → k' = k)
    (hothers : ∀ c', c' ≠ c → k ∉ (s.core c').held) (hlocked : l.locked = true ↔ k ∈ x.held)
    (hcpu : ∀ c', l.cpu = some c' ↔ c' = c ∧ k ∈ x.held ∧ x.pc.between ≠ some k) : Safe (s.set c x k l) := by
  have hcore : ∀ c', (s.set c x k l).core c' = if c' = c then x else s.core c' := fun _ => Function.update_apply ..
  have hlock : ∀ k', (s.set c x k l).lock k' = if k' = k then l else s.lock k' := fun _ => Function.update_apply ..
  have hmem : ∀ c' k', k' ∈ ((s.set c x k l).core c').held ↔
      if k' = k then c' = c ∧ k ∈ x.held else k' ∈ (s.core c').held := by grind
  refine ⟨fun c' => ?_, fun c₁ c₂ k' h₁ h₂ => ?_, fun k' => ?_, fun k' c' => ?_⟩
  · rw [hcore]
    split_ifs
    · exact hx
    · exact h.core c'
  · rw [hmem] at h₁ h₂
    split_ifs at h₁ h₂
    · exact h₁.1.trans h₂.1.symm
    · exact h.exclusive h₁ h₂
  · simp only [hlock, hmem]
    split_ifs
    · exact hlocked.trans ⟨fun hk => ⟨c, rfl, hk⟩, fun hex => hex.elim fun _ hand => hand.2⟩
    · exact h.locked k'
  · have hold := h.cpu k' c'
    grind

theorem Safe.turn (h : Safe s) (hs : turn s c (s.core c) (s.core c).pc = some s') : Safe s' := by
  have hnested := (h.core c).nested
  have hfits := (h.core c).fits
  have hmine : ∀ {k}, k ∈ (s.core c).held → ∀ c', c' ≠ c → k ∉ (s.core c').held := fun hk c' hne hk' =>
    hne (h.exclusive hk' hk)
  have hset : ∀ {k}, k ∈ (s.core c).held → ((s.lock k).locked = true ↔ k ∈ (s.core c).held) := fun hk =>
    iff_of_true ((h.locked _).mpr ⟨c, hk⟩) hk
  generalize hpc : (s.core c).pc = pc at hs hnested hfits
  have hinj : ∀ {k k' : κ}, some k = some k' → k' = k := fun heq => (Option.some.inj heq).symm
  cases pc with
  | run => cases hs
  | stop msg o => cases hs
  | locked u k =>
    obtain rfl := Option.some.inj hs
    by_cases hlocked : (s.lock k).locked = true
    · rw [if_pos hlocked]
      refine h.setCore ⟨?_, trivial⟩ rfl (by rw [hpc]; rfl)
      cases u <;> exact hnested
    · rw [if_neg hlocked]
      refine h.answer (Or.inl hpc) (iff_of_false Bool.false_ne_true fun hk => hlocked ?_)
      exact (h.locked k).mpr ⟨c, hk⟩
  | owner u k =>
    obtain rfl := Option.some.inj hs
    refine h.answer (Or.inr hpc) ?_
    rw [decide_eq_true_iff, h.cpu k c, hpc]
    exact and_iff_left nofun
  | xchg k =>
    -- `xchg` finds the lock taken and is tried again, or takes it for this CPU.
    by_cases hlocked : (s.lock k).locked = true
    · rw [Spinlock.turn, if_pos hlocked] at hs
      obtain rfl := Option.some.inj hs
      exact h
    · rw [Spinlock.turn, if_neg hlocked] at hs
      obtain rfl := Option.some.inj hs
      have hfree : ∀ c', k ∉ (s.core c').held := fun c' hk => hlocked ((h.locked k).mpr ⟨c', hk⟩)
      refine h.set ⟨?_, Finset.mem_insert_self ..⟩ ?_ (fun _ => hinj) (by rw [hpc]; exact nofun) (fun c' _ => hfree c')
        (iff_of_true rfl (Finset.mem_insert_self ..)) ?_
      · change Nested _ _ ((insert k (s.core c).held).card + _)
        rw [Finset.card_insert_of_notMem (hfree c), Nat.add_right_comm]
        exact hnested
      · exact fun k' hk => Finset.mem_insert.trans (or_iff_right hk)
      · exact fun c' => iff_of_false (fun heq => hfree c' ((h.cpu k c').mp heq).1) fun hand => hand.2.2 rfl
  | mark k =>
    obtain rfl := Option.some.inj hs
    refine h.set ⟨hnested, trivial⟩ (fun _ _ => Iff.rfl) nofun (by rw [hpc]; exact fun _ => hinj) (hmine hfits) (hset hfits) ?_
    exact fun c' => ⟨fun heq => ⟨(Option.some.inj heq).symm, hfits, nofun⟩, fun hand => congrArg some hand.1.symm⟩
  | unmark k =>
    obtain rfl := Option.some.inj hs
    refine h.set ⟨hnested, hfits⟩ (fun _ _ => Iff.rfl) (fun _ => hinj) (by rw [hpc]; exact nofun) (hmine hfits) (hset hfits) ?_
    exact fun c' => iff_of_false nofun fun hand => hand.2.2 rfl
  | clear k =>
    obtain rfl := Option.some.inj hs
    refine h.set ⟨?_, trivial⟩ ?_ nofun (by rw [hpc]; exact fun _ => hinj) (hmine hfits)
      (iff_of_false Bool.false_ne_true (Finset.notMem_erase k _)) ?_
    · change Nested _ _ (((s.core c).held.erase k).card + _ + 1)
      rw [Nat.add_right_comm, Finset.card_erase_add_one hfits]
      exact hnested
    · exact fun k' hk => Finset.mem_erase.trans (and_iff_right hk)
    · refine fun c' => iff_of_false (fun heq => ?_) fun hand => Finset.notMem_erase k _ hand.2.1
      obtain ⟨hk, hbetween⟩ := (h.cpu k c').mp heq
      obtain rfl := h.exclusive hk hfits
      rw [hpc] at hbetween
      exact hbetween rfl
  | pop =>
    obtain rfl := Option.some.inj hs
    obtain ⟨cpu, hpop, hcpu⟩ := pop_eq hnested .run
    rw [hpop]
    exact h.setCore ⟨hcpu, trivial⟩ rfl (by rw [hpc]; rfl)

theorem Safe.step {e : ι × Op κ} (h : Safe s) (hs : step s e = some s') : Safe s' := by
  obtain ⟨c, op⟩ := e
  by_cases hop : op = .turn
  · subst hop
    exact h.turn hs
  · have hcall : (if (s.core c).pc = .run then (call (s.core c) op).map (s.setCore c) else none) = some s' := by
      cases op <;> first | exact absurd rfl hop | exact hs
    obtain ⟨hpc, hsome⟩ := Option.ite_none_right_eq_some.mp hcall
    obtain ⟨x, hx, rfl⟩ := Option.map_eq_some_iff.mp hsome
    obtain ⟨hok, hheld, hbetween⟩ := (h.core c).call hpc hx
    exact h.setCore hok hheld (by rw [hbetween, hpc]; rfl)

/-- Whatever the CPUs call and in every interleaving of their accesses: no two CPUs have a lock at once, `popcli` never
panics, and interrupts come back on where `flag` has them on and not before. `holding` is right for the CPU that asks, so
`acquire` panics only for a lock that the CPU has, `release` only for one that it has not, and no CPU spins for its own lock.
A CPU that can be interrupted has no lock. -/
theorem spinlock_safe (h : Reach step Init Any s) : Safe s ∧
    (∀ c k, (s.core c).pc = .run → (holding s c k = true ↔ k ∈ (s.core c).held)) ∧
    ∀ c, (s.core c).cpu.intr = true → (s.core c).flag = true ∧ (s.core c).held = ∅ := by
  have hsafe : Safe s := h.invariant (fun _ => Init.safe) fun _ _ _ hs _ hstep => hs.step hstep
  refine ⟨hsafe, fun c k hpc => ?_, fun c hon => ?_⟩
  · have hcpu := hsafe.cpu k c
    rw [hpc, and_iff_left (nofun : Pc.run.between ≠ some k)] at hcpu
    rw [holding, Bool.and_eq_true, decide_eq_true_iff, hcpu]
    exact and_iff_right_of_imp fun hk => (hsafe.locked k).mpr ⟨c, hk⟩
  · rw [(hsafe.core c).nested.intr, Bool.and_eq_true, decide_eq_true_iff] at hon
    exact ⟨hon.2, Finset.card_eq_zero.mp (by omega)⟩

end Safety

section Example

/-- Two CPUs with interrupts on. -/
def quiet : State Bool Unit := ⟨fun _ => ⟨⟨true, 0, false⟩, .run, ∅, 0, true⟩, fun _ => ⟨false, none⟩⟩

/-- One CPU has taken the lock when the other one calls `acquire`. -/
def contest : List (Bool × Op Unit) :=
  [(false, .acquire ()), (false, .turn), (false, .turn), (true, .acquire ()), (false, .turn), (true, .turn), (true, .turn)]

theorem spinlock_safe_contest : ∃ s, Machine.exec step quiet contest = some s ∧ (s.core false).held = {()} ∧
    (s.core true).pc = .xchg () ∧ (s.core true).held = ∅ := by
  obtain ⟨s, hrun, hheld, hpc⟩ : ∃ s, Machine.exec step quiet contest = some s ∧ (s.core false).held = {()} ∧
      (s.core true).pc = .xchg () := ⟨_, rfl, rfl, rfl⟩
  have hreach : Reach step Init Any s := Reach.exec (.start ⟨fun _ => ⟨rfl, rfl, rfl, rfl, rfl⟩, fun _ => rfl⟩) contest
    (.any _ _) hrun
  have hwaits := ((spinlock_safe hreach).1.core true).fits
  rw [hpc] at hwaits
  exact ⟨s, hrun, hheld, hpc, Finset.eq_empty_of_forall_notMem fun _ => hwaits⟩

end Example

end Chameleon.Spinlock
