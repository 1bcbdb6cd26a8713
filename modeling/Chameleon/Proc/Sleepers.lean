import Chameleon.Proc.Sleep

/-! No wake-up is lost: whoever has tested its condition as false holds its lock, then
`ptable.lock`, until it is `SLEEPING`, and a waker holds both to find it. -/

namespace Chameleon.Sleep
open Machine
variable {L C D : Type} {n : Nat} {K : Conf L C D}
  {s s' : State L C D n} {p q : Fin n} {c : C} {f : D → D}

/-! ### Who holds which lock -/

/-- The locks a process holds at a line of a wait under `lk`. -/
def Waiting.Holds (ptable lk l : L) : Waiting → Prop
  | .acquire | .asleep | .relock => False
  | .test | .sleepAcquire | .update | .release => l = lk
  | .sleepRelease => l = lk ∨ l = ptable
  | .setChan | .setSleeping | .sched | .tidy | .sleepUnlock => l = ptable

def Waking.Holds (ptable lk l : L) : Waking n → Prop
  | .acquire => False
  | .update | .lock | .release => l = lk
  | .scan _ | .unlock => l = lk ∨ l = ptable

def Section.Holds (lk l : L) : Section → Prop
  | .acquire => False
  | .body | .release => l = lk

def Holds (K : Conf L C D) (l : L) : PC C D n → Prop
  | .user => False
  | .wait c _ w => w.Holds K.ptable (K.lk c) l
  | .wake c _ w => w.Holds K.ptable (K.lk c) l
  | .look c w => w.Holds (K.lk c) l
  | .kill _ w => w.Holds K.ptable l

/-- Lines that only a condition with a lock of its own leads to. -/
def Apart (K : Conf L C D) : PC C D n → Prop
  | .wait c _ .sleepAcquire | .wait c _ .sleepRelease | .wait c _ .sleepUnlock
  | .wait c _ .relock => K.lk c ≠ K.ptable
  | .wake c _ .lock | .wake c _ .unlock => K.lk c ≠ K.ptable
  | _ => True

structure LockInv (K : Conf L C D) (s : State L C D n) : Prop where
  holds : ∀ l p, s.lock l = some p ↔ Holds K l (s.proc p).pc
  apart : ∀ p, Apart K (s.proc p).pc

/-- Two processes do not hold one lock. -/
theorem LockInv.eq (h : LockInv K s) {l : L} (hp : Holds K l (s.proc p).pc)
    (hq : Holds K l (s.proc q).pc) : p = q :=
  Option.some.inj (((h.holds l p).mpr hp).symm.trans ((h.holds l q).mpr hq))

section Moves
variable {x : Proc C D n} (hproc : s'.proc = Function.update s.proc p x)
include hproc

theorem pc_self : (s'.proc p).pc = x.pc := by rw [hproc, Function.update_self]

theorem pc_of_ne (hq : q ≠ p) : (s'.proc q).pc = (s.proc q).pc := by
  rw [hproc, Function.update_of_ne hq]

theorem LockInv.move (h : LockInv K s) (hapart : Apart K x.pc)
    (hp : ∀ l, s'.lock l = some p ↔ Holds K l x.pc)
    (hq : ∀ l q, q ≠ p → (s'.lock l = some q ↔ s.lock l = some q)) : LockInv K s' := by
  refine ⟨fun l q => ?_, fun q => ?_⟩
  · by_cases hqp : q = p
    · subst hqp
      rw [pc_self hproc]
      exact hp l
    · rw [pc_of_ne hproc hqp, hq l q hqp]
      exact h.holds l q
  · by_cases hqp : q = p
    · subst hqp
      rw [pc_self hproc]
      exact hapart
    · rw [pc_of_ne hproc hqp]
      exact h.apart q

theorem LockInv.keep (h : LockInv K s) (hlock : s'.lock = s.lock) (hapart : Apart K x.pc)
    (hpc : ∀ l, Holds K l x.pc ↔ Holds K l (s.proc p).pc) : LockInv K s' := by
  refine h.move hproc hapart (fun l => ?_) fun l q _ => by rw [hlock]
  rw [hlock, hpc]
  exact h.holds l p

theorem LockInv.acquire [DecidableEq L] (h : LockInv K s) {l : L} (hfree : s.lock l = none)
    (hlock : s'.lock = Function.update s.lock l (some p)) (hapart : Apart K x.pc)
    (hpc : ∀ y, Holds K y x.pc ↔ Holds K y (s.proc p).pc ∨ y = l) : LockInv K s' := by
  refine h.move hproc hapart (fun y => ?_) fun y q hq => ?_ <;> rw [hlock]
  · by_cases hy : y = l
    · subst hy
      simp [hpc]
    · rw [hpc, or_iff_left hy, ← h.holds, Function.update_of_ne hy]
  · by_cases hy : y = l
    · subst hy
      simp [hfree, Ne.symm hq]
    · rw [Function.update_of_ne hy]

theorem LockInv.release [DecidableEq L] (h : LockInv K s) {l : L}
    (hlock : s'.lock = Function.update s.lock l none) (hl : Holds K l (s.proc p).pc)
    (hapart : Apart K x.pc) (hpc : ∀ y, Holds K y x.pc ↔ Holds K y (s.proc p).pc ∧ y ≠ l) :
    LockInv K s' := by
  have hheld := (h.holds l p).mpr hl
  refine h.move hproc hapart (fun y => ?_) fun y q hq => ?_ <;> rw [hlock]
  · by_cases hy : y = l
    · subst hy
      simp [hpc]
    · rw [hpc, and_iff_left hy, ← h.holds, Function.update_of_ne hy]
  · by_cases hy : y = l
    · subst hy
      simp [hheld, Ne.symm hq]
    · rw [Function.update_of_ne hy]

end Moves

theorem LockInv.same (h : LockInv K s) (hlock : s'.lock = s.lock)
    (hpc : ∀ q, (s'.proc q).pc = (s.proc q).pc) : LockInv K s' :=
  ⟨fun l q => by rw [hlock, hpc]; exact h.holds l q, fun q => by rw [hpc]; exact h.apart q⟩

/-- What a process may undergo while another runs: it is woken. -/
structure Woken (x y : Proc C D n) : Prop where
  pc : y.pc = x.pc
  chan : y.chan = x.chan
  status : y.status = .sleeping → x.status = .sleeping

theorem Woken.refl (x : Proc C D n) : Woken x x := ⟨rfl, rfl, id⟩

theorem woken_update {x : Proc C D n} (hproc : s'.proc = Function.update s.proc p x)
    (h : Woken (s.proc p) x) (q : Fin n) : Woken (s.proc q) (s'.proc q) := by
  rw [hproc]
  by_cases hq : q = p
  · subst hq
    rwa [Function.update_self]
  · rw [Function.update_of_ne hq]
    exact .refl _

theorem woken_kill (q : Fin n) : Woken (s.proc q) ((s.kill p).proc q) := by
  refine woken_update (p := p) rfl ?_ q
  refine ⟨rfl, rfl, fun h => ?_⟩
  dsimp only at h
  by_contra hs
  exact hs ((if_neg hs).symm.trans h)

theorem begin_eq {pc : PC C D n} (h : s.begin p pc = some s') :
    (s.proc p).pc = .user ∧ s' = s.goto p pc := by
  unfold State.begin at h
  split at h
  · rename_i hpc
    exact ⟨hpc, (Option.some.inj h).symm⟩
  · cases h

/-- The line at which a call begins. -/
def PC.entry : PC C D n → Prop
  | .wait _ _ .acquire | .wake _ _ .acquire | .look _ .acquire | .kill _ .acquire => True
  | _ => False

section Locks
variable [DecidableEq C]

theorem woken_wake (q : Fin n) : Woken (s.proc q) ((s.wake p c).proc q) := by
  unfold State.wake
  split
  · refine woken_update (p := p) rfl ?_ q
    exact ⟨rfl, rfl, fun h => by cases h⟩
  · exact .refl _

theorem lock_wake : (s.wake p c).lock = s.lock := by
  unfold State.wake
  split <;> rfl

variable [DecidableEq L]

omit [DecidableEq C] in
theorem acquire_eq {l : L} {pc : PC C D n} (h : s.acquire p l pc = some s') :
    s.lock l = none ∧
      s' = { s.goto p pc with lock := Function.update s.lock l (some p) } := by
  unfold State.acquire at h
  split at h
  · rename_i hfree
    exact ⟨hfree, (Option.some.inj h).symm⟩
  · cases h

theorem LockInv.runWait (h : LockInv K s) {w : Waiting} (hpc : (s.proc p).pc = .wait c f w)
    (hs : runWait K s p c f w = some s') : LockInv K s' := by
  have hap := h.apart p
  rw [hpc] at hap
  cases w with
  | acquire | relock =>
    obtain ⟨hfree, rfl⟩ := acquire_eq hs
    exact h.acquire rfl hfree rfl trivial fun x => by simp [hpc, Holds, Waiting.Holds]
  | test =>
    obtain rfl := Option.some.inj hs
    refine h.keep rfl rfl ?_ fun l => ?_ <;> dsimp only <;> split_ifs with hcond hlk
    · trivial
    · trivial
    · exact hlk
    · rw [hpc]; rfl
    · simp [hpc, Holds, Waiting.Holds, hlk]
    · rw [hpc]; rfl
  | sleepAcquire =>
    obtain ⟨hfree, rfl⟩ := acquire_eq hs
    exact h.acquire rfl hfree rfl hap fun x => by simp [hpc, Holds, Waiting.Holds]
  | sleepRelease =>
    obtain rfl := Option.some.inj hs
    refine h.release rfl rfl (by rw [hpc]; exact .inl rfl) trivial fun x => ?_
    simp only [hpc, Holds, Waiting.Holds]
    constructor
    · rintro rfl
      exact ⟨.inr rfl, Ne.symm hap⟩
    · rintro ⟨hx | hx, hne⟩
      · exact absurd hx hne
      · exact hx
  | setChan | setSleeping | update =>
    obtain rfl := Option.some.inj hs
    exact h.keep rfl rfl trivial fun l => by rw [hpc]; rfl
  | sched =>
    obtain rfl := Option.some.inj hs
    exact h.release rfl rfl (by rw [hpc]; rfl) trivial fun x => by simp [hpc, Holds, Waiting.Holds]
  | asleep =>
    simp only [Sleep.runWait] at hs
    split at hs
    · obtain ⟨hfree, rfl⟩ := acquire_eq hs
      have hi : LockInv K (s.setProc p { s.proc p with status := .running }) :=
        h.keep rfl rfl (h.apart p) fun _ => .rfl
      refine hi.acquire rfl hfree rfl trivial fun x => ?_
      simp [State.setProc, hpc, Holds, Waiting.Holds]
    · cases hs
  | tidy =>
    obtain rfl := Option.some.inj hs
    refine h.keep rfl rfl ?_ fun l => ?_ <;> dsimp only <;> split_ifs with hlk
    · trivial
    · exact hlk
    · simp [hpc, Holds, Waiting.Holds, hlk]
    · rw [hpc]; rfl
  | sleepUnlock =>
    obtain rfl := Option.some.inj hs
    exact h.release rfl rfl (by rw [hpc]; rfl) hap fun x => by simp [hpc, Holds, Waiting.Holds]
  | release =>
    obtain rfl := Option.some.inj hs
    exact h.release rfl rfl (by rw [hpc]; rfl) trivial fun x => by simp [hpc, Holds, Waiting.Holds]

theorem LockInv.runWake (h : LockInv K s) {w : Waking n} (hpc : (s.proc p).pc = .wake c f w)
    (hs : runWake K s p c f w = some s') : LockInv K s' := by
  have hap := h.apart p
  rw [hpc] at hap
  cases w with
  | acquire | lock =>
    obtain ⟨hfree, rfl⟩ := acquire_eq hs
    exact h.acquire rfl hfree rfl trivial fun x => by simp [hpc, Holds, Waking.Holds]
  | update =>
    obtain rfl := Option.some.inj hs
    refine h.keep rfl rfl ?_ fun l => ?_ <;> dsimp only <;> split_ifs with hlk
    · trivial
    · exact hlk
    · simp [hpc, Holds, Waking.Holds, hlk]
    · rw [hpc]; rfl
  | scan rest =>
    cases rest with
    | nil =>
      obtain rfl := Option.some.inj hs
      refine h.keep rfl rfl ?_ fun l => ?_ <;> dsimp only <;> split_ifs with hlk
      · trivial
      · exact hlk
      · simp [hpc, Holds, Waking.Holds, hlk]
      · rw [hpc]; rfl
    | cons q rest =>
      obtain rfl := Option.some.inj hs
      have hwake : LockInv K (s.wake q c) := h.same lock_wake fun r => (woken_wake r).pc
      exact hwake.keep rfl rfl trivial fun l => by rw [(woken_wake p).pc, hpc]; rfl
  | unlock =>
    obtain rfl := Option.some.inj hs
    refine h.release rfl rfl (by rw [hpc]; exact .inr rfl) trivial fun x => ?_
    simp only [hpc, Holds, Waking.Holds]
    constructor
    · rintro rfl
      exact ⟨.inl rfl, hap⟩
    · rintro ⟨hx | hx, hne⟩
      · exact hx
      · exact absurd hx hne
  | release =>
    obtain rfl := Option.some.inj hs
    exact h.release rfl rfl (by rw [hpc]; rfl) trivial fun x => by simp [hpc, Holds, Waking.Holds]

omit [DecidableEq C] in
theorem LockInv.runLook (h : LockInv K s) {w : Section} (hpc : (s.proc p).pc = .look c w)
    (hs : runLook K s p c w = some s') : LockInv K s' := by
  cases w with
  | acquire =>
    obtain ⟨hfree, rfl⟩ := acquire_eq hs
    exact h.acquire rfl hfree rfl trivial fun x => by simp [hpc, Holds, Section.Holds]
  | body =>
    obtain rfl := Option.some.inj hs
    exact h.keep rfl rfl trivial fun l => by rw [hpc]; rfl
  | release =>
    obtain rfl := Option.some.inj hs
    exact h.release rfl rfl (by rw [hpc]; rfl) trivial fun x => by simp [hpc, Holds, Section.Holds]

omit [DecidableEq C] in
theorem LockInv.runKill (h : LockInv K s) {w : Section} (hpc : (s.proc p).pc = .kill q w)
    (hs : runKill K s p q w = some s') : LockInv K s' := by
  cases w with
  | acquire =>
    obtain ⟨hfree, rfl⟩ := acquire_eq hs
    exact h.acquire rfl hfree rfl trivial fun x => by simp [hpc, Holds, Section.Holds]
  | body =>
    obtain rfl := Option.some.inj hs
    have hkill : LockInv K (s.kill q) := h.same rfl fun r => (woken_kill r).pc
    exact hkill.keep rfl rfl trivial fun l => by rw [(woken_kill p).pc, hpc]; rfl
  | release =>
    obtain rfl := Option.some.inj hs
    exact h.release rfl rfl (by rw [hpc]; rfl) trivial fun x => by simp [hpc, Holds, Section.Holds]

theorem LockInv.run (h : LockInv K s) (hs : run K s p = some s') : LockInv K s' := by
  unfold Sleep.run at hs
  split at hs
  · cases hs
  · rename_i hpc
    exact h.runWait hpc hs
  · rename_i hpc
    exact h.runWake hpc hs
  · rename_i hpc
    exact h.runLook hpc hs
  · rename_i hpc
    exact h.runKill hpc hs

omit [DecidableEq C] [DecidableEq L] in
/-- A call begins with no lock, before its first test or search. -/
theorem PC.entry.facts {pc : PC C D n} (h : pc.entry) :
    (∀ l, ¬ Holds K l pc) ∧ Apart K pc ∧ ∀ c f, pc ≠ .wait c f .update := by
  unfold PC.entry at h
  split at h
  · exact ⟨fun _ => id, trivial, by simp⟩
  · exact ⟨fun _ => id, trivial, by simp⟩
  · exact ⟨fun _ => id, trivial, by simp⟩
  · exact ⟨fun _ => id, trivial, by simp⟩
  · exact h.elim

/-- A step is a line of a process, or takes a process from user code into a call. -/
theorem step_cases {e : Event C D n} (h : step K s e = some s') :
    (∃ p, e = .run p ∧ run K s p = some s') ∨
    ∃ p pc, pc.entry ∧ (s.proc p).pc = .user ∧ s'.proc = Function.update s.proc p
      { s.proc p with pc := pc } ∧ s'.lock = s.lock ∧ s'.data = s.data := by
  cases e with
  | run p => exact .inl ⟨p, rfl, h⟩
  | wait p c f =>
    obtain ⟨hpc, rfl⟩ := begin_eq h
    exact .inr ⟨p, .wait c f .acquire, trivial, hpc, rfl, rfl, rfl⟩
  | wake p c f =>
    obtain ⟨hpc, rfl⟩ := begin_eq h
    exact .inr ⟨p, .wake c f .acquire, trivial, hpc, rfl, rfl, rfl⟩
  | look p c =>
    obtain ⟨hpc, rfl⟩ := begin_eq h
    exact .inr ⟨p, .look c .acquire, trivial, hpc, rfl, rfl, rfl⟩
  | kill p q =>
    obtain ⟨hpc, rfl⟩ := begin_eq h
    exact .inr ⟨p, .kill q .acquire, trivial, hpc, rfl, rfl, rfl⟩

end Locks

/-! ### Who is going to sleep -/

/-- The condition that the process has tested as false on its way to sleep. -/
def PC.window : PC C D n → Option C
  | .wait c _ .sleepAcquire | .wait c _ .sleepRelease | .wait c _ .setChan
  | .wait c _ .setSleeping => some c
  | _ => none

/-- A process that is `SLEEPING` on the channel, or will be without another test. -/
def Proc.Doomed (x : Proc C D n) (c : C) : Prop :=
  x.pc.window = some c ∨ x.status = .sleeping ∧ x.chan = some c

/-- A process is `SLEEPING` in `sched` only, and on the channel it has been told. -/
structure Proc.Ok (x : Proc C D n) : Prop where
  asleep : x.status = .sleeping → ∃ c f, x.pc = .wait c f .sched ∨ x.pc = .wait c f .asleep
  chan : ∀ {c f}, x.pc = .wait c f .setSleeping → x.chan = some c

theorem Proc.Ok.woken {x y : Proc C D n} (h : x.Ok) (hw : Woken x y) : y.Ok :=
  ⟨fun hs => by rw [hw.pc]; exact h.asleep (hw.status hs),
    fun hpc => by rw [hw.chan]; exact h.chan (hw.pc.symm.trans hpc)⟩

theorem Proc.Doomed.of_woken {x y : Proc C D n} (hw : Woken x y) (h : y.Doomed c) : x.Doomed c := by
  rcases h with h | ⟨hs, hc⟩
  · exact .inl (by rw [← hw.pc]; exact h)
  · exact .inr ⟨hw.status hs, by rw [← hw.chan]; exact hc⟩

/-- Whoever is on its way to sleep holds the lock of its condition or `ptable.lock`. -/
theorem holds_of_window {pc : PC C D n} (h : pc.window = some c) :
    Holds K (K.lk c) pc ∨ Holds K K.ptable pc := by
  unfold PC.window at h
  split at h
  · cases h
    exact .inl rfl
  · cases h
    exact .inl (.inl rfl)
  · cases h
    exact .inr rfl
  · cases h
    exact .inr rfl
  · cases h

/-- The process is between its update and the end of its search for sleepers. -/
def PC.Wakes (c : C) : PC C D n → Prop
  | .wake c' _ .lock | .wake c' _ (.scan _) => c' = c
  | _ => False

/-- `wakeup` is done with its search, or has returned. -/
def PC.Woke (c : C) : PC C D n → Prop
  | .wake c' _ .unlock | .wake c' _ .release => c' = c
  | _ => False

/-- The process tests the condition and finds it false. -/
def Fails (K : Conf L C D) (s : State L C D n) (p : Fin n) (c : C) : Prop :=
  ∃ f, (s.proc p).pc = .wait c f .test ∧ K.cond c (s.data c) = false

/-- What a line does to its process, which it leaves as `x`, and to the data. -/
structure Line (K : Conf L C D) (s : State L C D n) (p : Fin n) (x : Proc C D n) (d : C → D) :
    Prop where
  ok : x.Ok
  doomed : ∀ {c}, x.Doomed c → (s.proc p).Doomed c ∨ Fails K s p c
  update : ∀ {c f}, x.pc = .wait c f .update → K.cond c (d c) = true
  data : ∀ {c}, d c = s.data c ∨ ∃ f, (s.proc p).pc = .wait c f .update ∨
    (s.proc p).pc = .wake c f .update ∧ x.pc.Wakes c
  wakes : ∀ {c}, (s.proc p).pc.Wakes c → x.pc.Wakes c ∨ ∃ f, (s.proc p).pc = .wake c f (.scan [])
  scan : ∀ {c f rest}, x.pc = .wake c f (.scan rest) →
    rest = List.finRange n ∨ ∃ q, (s.proc p).pc = .wake c f (.scan (q :: rest))
  woke : ∀ {c}, x.pc.Woke c → (s.proc p).pc.Woke c ∨ ∃ f, (s.proc p).pc = .wake c f (.scan [])

theorem Proc.Ok.awake {x : Proc C D n} (h : x.Ok)
    (hpc : ∀ c f, x.pc ≠ .wait c f .sched ∧ x.pc ≠ .wait c f .asleep) : x.status ≠ .sleeping := by
  intro hs
  obtain ⟨c, f, h | h⟩ := h.asleep hs
  · exact (hpc c f).1 h
  · exact (hpc c f).2 h

/-- A line that leaves its process on its way, in no search for sleepers. -/
theorem Line.calm {x : Proc C D n} {d : C → D} (hx : x.status ≠ .sleeping)
    (hwin : x.pc.window = none) (hup : ∀ c f, x.pc ≠ .wait c f .update)
    (hto : ∀ c, ¬ x.pc.Wakes c ∧ ¬ x.pc.Woke c) (hfrom : ∀ c, ¬ (s.proc p).pc.Wakes c)
    (hdata : ∀ c, d c = s.data c ∨ ∃ f, (s.proc p).pc = .wait c f .update) :
    Line K s p x d where
  ok := ⟨fun hs => absurd hs hx, fun hpc => by rw [hpc] at hwin; cases hwin⟩
  doomed hd := by
    rcases hd with hd | hd
    · rw [hwin] at hd
      cases hd
    · exact absurd hd.1 hx
  update hpc := absurd hpc (hup _ _)
  data := (hdata _).imp_right fun ⟨f, hf⟩ => ⟨f, .inl hf⟩
  wakes hw := absurd hw (hfrom _)
  scan hpc := absurd (by rw [hpc]; rfl) (hto _).1
  woke hw := absurd hw (hto _).2

/-- A line of `sleep` before its process is `SLEEPING`. -/
theorem Line.window {x : Proc C D n} (hx : x.status ≠ .sleeping) (hwin : x.pc.window = some c)
    (hfrom : (s.proc p).pc.window = some c ∨ Fails K s p c)
    (hwakes : ∀ c, ¬ (s.proc p).pc.Wakes c)
    (hchan : ∀ {c f}, x.pc = .wait c f .setSleeping → x.chan = some c) :
    Line K s p x s.data where
  ok := ⟨fun hs => absurd hs hx, hchan⟩
  doomed hd := by
    rcases hd with hd | hd
    · obtain rfl := Option.some.inj (hwin.symm.trans hd)
      exact hfrom.imp_left .inl
    · exact absurd hd.1 hx
  update hpc := by rw [hpc] at hwin; cases hwin
  data := .inl rfl
  wakes hw := absurd hw (hwakes _)
  scan hpc := by rw [hpc] at hwin; cases hwin
  woke hw := by
    unfold PC.Woke at hw
    split at hw
    · rename_i h
      rw [h] at hwin
      cases hwin
    · rename_i h
      rw [h] at hwin
      cases hwin
    · exact hw.elim

theorem PC.entry.quiet {pc : PC C D n} (h : pc.entry) :
    pc.window = none ∧ ∀ c, ¬ pc.Wakes c ∧ ¬ pc.Woke c := by
  unfold PC.entry at h
  split at h
  · exact ⟨rfl, fun _ => ⟨id, id⟩⟩
  · exact ⟨rfl, fun _ => ⟨id, id⟩⟩
  · exact ⟨rfl, fun _ => ⟨id, id⟩⟩
  · exact ⟨rfl, fun _ => ⟨id, id⟩⟩
  · exact h.elim

variable [DecidableEq L] [DecidableEq C]

theorem runWait_line (hok : (s.proc p).Ok) {w : Waiting} (hpc : (s.proc p).pc = .wait c f w)
    (h : runWait K s p c f w = some s') : Line K s p (s'.proc p) s'.data := by
  have hwakes : ∀ c, ¬ (s.proc p).pc.Wakes c := fun c' => by rw [hpc]; exact id
  cases w with
  | acquire | relock =>
    have hx := hok.awake fun c f => by rw [hpc]; simp
    obtain ⟨-, rfl⟩ := acquire_eq h
    refine .calm ?_ ?_ ?_ ?_ hwakes fun _ => .inl rfl <;>
      simp [State.goto, State.setProc, hx, PC.window, PC.Wakes, PC.Woke]
  | test =>
    have hx := hok.awake fun c f => by rw [hpc]; simp
    obtain rfl := Option.some.inj h
    by_cases hc : K.cond c (s.data c) = true
    · -- The loop ends: the condition holds, and nobody changes it while this process has `lk`.
      simp only [State.goto, State.setProc, hc, if_true, Function.update_self]
      refine ⟨⟨fun hs => absurd hs hx, fun hpc => by cases hpc⟩, fun hd => ?_, fun hpc => ?_,
        .inl rfl, fun hw => absurd hw (hwakes _), fun hpc => (by cases hpc), fun hw => hw.elim⟩
      · exact hd.elim (fun hd => by cases hd) fun hd => absurd hd.1 hx
      · cases hpc
        exact hc
    · have hfails : Fails K s p c := ⟨f, hpc, by simpa using hc⟩
      refine .window (c := c) ?_ ?_ (.inr hfails) hwakes ?_ <;>
        simp only [State.goto, State.setProc, hc, Bool.false_eq_true, if_false,
          Function.update_self]
      · exact hx
      · split_ifs <;> rfl
      · split_ifs <;> intro hpc <;> cases hpc
  | sleepAcquire =>
    have hx := hok.awake fun c f => by rw [hpc]; simp
    obtain ⟨-, rfl⟩ := acquire_eq h
    refine .window (c := c) ?_ ?_ (.inl (by rw [hpc]; rfl)) hwakes ?_ <;>
      simp [State.goto, State.setProc, hx, PC.window]
  | sleepRelease =>
    have hx := hok.awake fun c f => by rw [hpc]; simp
    obtain rfl := Option.some.inj h
    refine .window (c := c) ?_ ?_ (.inl (by rw [hpc]; rfl)) hwakes ?_ <;>
      simp [State.release, State.goto, State.setProc, hx, PC.window]
  | setChan =>
    have hx := hok.awake fun c f => by rw [hpc]; simp
    obtain rfl := Option.some.inj h
    refine .window (c := c) ?_ ?_ (.inl (by rw [hpc]; rfl)) hwakes ?_ <;>
      simp +contextual [State.setProc, hx, PC.window]
  | setSleeping =>
    -- Until now the process was about to sleep; from here on a wakeup on `c` finds it.
    have hchan := hok.chan hpc
    obtain rfl := Option.some.inj h
    simp only [State.setProc, Function.update_self]
    refine ⟨⟨fun _ => ⟨c, f, .inl rfl⟩, fun hpc => by cases hpc⟩, fun hd => ?_,
      fun hpc => (by cases hpc), .inl rfl, fun hw => absurd hw (hwakes _),
      fun hpc => (by cases hpc), fun hw => hw.elim⟩
    rcases hd with hd | hd
    · cases hd
    · refine .inl (.inl ?_)
      rw [hpc, ← hd.2, hchan]
      rfl
  | sched =>
    obtain rfl := Option.some.inj h
    simp only [State.release, State.goto, State.setProc, Function.update_self]
    refine ⟨⟨fun _ => ⟨c, f, .inr rfl⟩, fun hpc => by cases hpc⟩, fun hd => ?_,
      fun hpc => (by cases hpc), .inl rfl, fun hw => absurd hw (hwakes _),
      fun hpc => (by cases hpc), fun hw => hw.elim⟩
    exact hd.elim (fun hd => by cases hd) fun hd => .inl (.inr hd)
  | asleep =>
    -- A sleeping process moves on only when somebody has changed its status.
    simp only [runWait] at h
    split at h
    · obtain ⟨-, rfl⟩ := acquire_eq h
      refine .calm ?_ ?_ ?_ ?_ hwakes fun _ => .inl rfl <;>
        simp [State.goto, State.setProc, PC.window, PC.Wakes, PC.Woke]
    · cases h
  | tidy =>
    have hx := hok.awake fun c f => by rw [hpc]; simp
    obtain rfl := Option.some.inj h
    refine .calm ?_ ?_ ?_ ?_ hwakes fun _ => .inl rfl <;>
      simp only [State.setProc, Function.update_self]
    · exact hx
    · split_ifs <;> rfl
    · split_ifs <;> simp
    · split_ifs <;> simp [PC.Wakes, PC.Woke]
  | sleepUnlock | release =>
    have hx := hok.awake fun c f => by rw [hpc]; simp
    obtain rfl := Option.some.inj h
    refine .calm ?_ ?_ ?_ ?_ hwakes fun _ => .inl rfl <;>
      simp [State.release, State.goto, State.setProc, hx, PC.window, PC.Wakes, PC.Woke]
  | update =>
    have hx := hok.awake fun c f => by rw [hpc]; simp
    obtain rfl := Option.some.inj h
    refine .calm ?_ ?_ ?_ ?_ hwakes fun c' => ?_
    any_goals simp [State.update, State.goto, State.setProc, hx, PC.window, PC.Wakes, PC.Woke]
    by_cases hc : c' = c
    · subst hc
      exact .inr ⟨f, hpc⟩
    · exact .inl (Function.update_of_ne hc _ _)

theorem runWake_line (hok : (s.proc p).Ok) {w : Waking n} (hpc : (s.proc p).pc = .wake c f w)
    (h : runWake K s p c f w = some s') : Line K s p (s'.proc p) s'.data := by
  have hx : (s.proc p).status ≠ .sleeping := hok.awake fun c f => by rw [hpc]; simp
  cases w with
  | acquire =>
    obtain ⟨-, rfl⟩ := acquire_eq h
    refine .calm ?_ ?_ ?_ ?_ (fun c' => by rw [hpc]; exact id) fun _ => .inl rfl <;>
      simp [State.goto, State.setProc, hx, PC.window, PC.Wakes, PC.Woke]
  | update =>
    obtain rfl := Option.some.inj h
    simp only [State.update, State.goto, State.setProc, Function.update_self]
    refine ⟨⟨fun hs => absurd hs hx, fun hpc => by cases hpc⟩, fun hd => ?_,
      fun hpc => (by cases hpc), fun {c'} => ?_, fun hw => ?_, fun hpc => ?_, fun hw => ?_⟩
    · exact hd.elim (fun hd => by cases hd) fun hd => absurd hd.1 hx
    · by_cases hc : c' = c
      · subst hc
        refine .inr ⟨f, .inr ⟨hpc, ?_⟩⟩
        split_ifs <;> rfl
      · exact .inl (Function.update_of_ne hc _ _)
    · rw [hpc] at hw
      exact hw.elim
    · split_ifs at hpc
      · cases hpc
        exact .inl rfl
      · cases hpc
    · split_ifs at hw <;> exact hw.elim
  | lock =>
    obtain ⟨-, rfl⟩ := acquire_eq h
    simp only [State.goto, State.setProc, Function.update_self]
    refine ⟨⟨fun hs => absurd hs hx, fun hpc => by cases hpc⟩, fun hd => ?_,
      fun hpc => (by cases hpc), .inl rfl, fun hw => ?_, fun hpc => ?_, fun hw => hw.elim⟩
    · exact hd.elim (fun hd => by cases hd) fun hd => absurd hd.1 hx
    · rw [hpc] at hw
      exact .inl hw
    · cases hpc
      exact .inl rfl
  | scan rest =>
    cases rest with
    | nil =>
      obtain rfl := Option.some.inj h
      simp only [State.goto, State.setProc, Function.update_self]
      refine ⟨⟨fun hs => absurd hs hx, fun hpc => by cases hpc⟩, fun hd => ?_,
        fun hpc => (by cases hpc), .inl rfl, fun hw => ?_, fun hpc => ?_, fun hw => ?_⟩
      · exact hd.elim (fun hd => by cases hd) fun hd => absurd hd.1 hx
      · rw [hpc] at hw
        obtain rfl : c = _ := hw
        exact .inr ⟨f, hpc⟩
      · split_ifs at hpc <;> cases hpc
      · obtain rfl : c = _ := by split_ifs at hw <;> exact hw
        exact .inr ⟨f, hpc⟩
    | cons q rest =>
      obtain rfl := Option.some.inj h
      have hx' : ((s.wake q c).proc p).status ≠ .sleeping := fun hs =>
        hx ((woken_wake p).status hs)
      have hdata : (s.wake q c).data = s.data := by
        unfold State.wake
        split <;> rfl
      simp only [State.goto, State.setProc, Function.update_self, hdata]
      refine ⟨⟨fun hs => absurd hs hx', fun hpc => by cases hpc⟩, fun hd => ?_,
        fun hpc => (by cases hpc), .inl rfl, fun hw => ?_, fun hpc => ?_, fun hw => hw.elim⟩
      · exact hd.elim (fun hd => by cases hd) fun hd => absurd hd.1 hx'
      · rw [hpc] at hw
        exact .inl hw
      · cases hpc
        exact .inr ⟨q, ‹_›⟩
  | unlock =>
    obtain rfl := Option.some.inj h
    simp only [State.release, State.goto, State.setProc, Function.update_self]
    refine ⟨⟨fun hs => absurd hs hx, fun hpc => by cases hpc⟩, fun hd => ?_,
      fun hpc => (by cases hpc), .inl rfl, fun hw => ?_, fun hpc => (by cases hpc), fun hw => ?_⟩
    · exact hd.elim (fun hd => by cases hd) fun hd => absurd hd.1 hx
    · rw [hpc] at hw
      exact hw.elim
    · rw [hpc]
      exact .inl hw
  | release =>
    obtain rfl := Option.some.inj h
    refine .calm ?_ ?_ ?_ ?_ (fun c' => by rw [hpc]; exact id) fun _ => .inl rfl <;>
      simp [State.release, State.goto, State.setProc, hx, PC.window, PC.Wakes, PC.Woke]

omit [DecidableEq C] in
theorem runLook_line (hok : (s.proc p).Ok) {w : Section} (hpc : (s.proc p).pc = .look c w)
    (h : runLook K s p c w = some s') : Line K s p (s'.proc p) s'.data := by
  have hx : (s.proc p).status ≠ .sleeping := hok.awake fun c f => by rw [hpc]; simp
  have hwakes : ∀ c, ¬ (s.proc p).pc.Wakes c := fun c' => by rw [hpc]; exact id
  cases w with
  | acquire =>
    obtain ⟨-, rfl⟩ := acquire_eq h
    refine .calm ?_ ?_ ?_ ?_ hwakes fun _ => .inl rfl <;>
      simp [State.goto, State.setProc, hx, PC.window, PC.Wakes, PC.Woke]
  | body | release =>
    obtain rfl := Option.some.inj h
    refine .calm ?_ ?_ ?_ ?_ hwakes fun _ => .inl rfl <;>
      simp [State.release, State.goto, State.setProc, hx, PC.window, PC.Wakes, PC.Woke]

omit [DecidableEq C] in
theorem runKill_line (hok : (s.proc p).Ok) {w : Section} (hpc : (s.proc p).pc = .kill q w)
    (h : runKill K s p q w = some s') : Line K s p (s'.proc p) s'.data := by
  have hx : (s.proc p).status ≠ .sleeping := hok.awake fun c f => by rw [hpc]; simp
  have hwakes : ∀ c, ¬ (s.proc p).pc.Wakes c := fun c' => by rw [hpc]; exact id
  cases w with
  | acquire =>
    obtain ⟨-, rfl⟩ := acquire_eq h
    refine .calm ?_ ?_ ?_ ?_ hwakes fun _ => .inl rfl <;>
      simp [State.goto, State.setProc, hx, PC.window, PC.Wakes, PC.Woke]
  | body =>
    obtain rfl := Option.some.inj h
    have hx' : ((s.kill q).proc p).status ≠ .sleeping := fun hs => hx ((woken_kill p).status hs)
    refine .calm ?_ ?_ ?_ ?_ hwakes fun _ => .inl rfl <;>
      simp [State.goto, State.setProc, hx', PC.window, PC.Wakes, PC.Woke]
  | release =>
    obtain rfl := Option.some.inj h
    refine .calm ?_ ?_ ?_ ?_ hwakes fun _ => .inl rfl <;>
      simp [State.release, State.goto, State.setProc, hx, PC.window, PC.Wakes, PC.Woke]

theorem run_line (hok : (s.proc p).Ok) (h : run K s p = some s') :
    Line K s p (s'.proc p) s'.data := by
  unfold Sleep.run at h
  split at h
  · cases h
  · rename_i hpc
    exact runWait_line hok hpc h
  · rename_i hpc
    exact runWake_line hok hpc h
  · rename_i hpc
    exact runLook_line hok hpc h
  · rename_i hpc
    exact runKill_line hok hpc h

omit [DecidableEq C] [DecidableEq L] in
theorem woken_of_update {t : State L C D n} {x : Proc C D n}
    (ht : ∀ q, Woken (s.proc q) (t.proc q)) (hproc : s'.proc = Function.update t.proc p x)
    (hq : q ≠ p) : Woken (s.proc q) (s'.proc q) := by
  rw [hproc, Function.update_of_ne hq]
  exact ht q

theorem run_others (h : run K s p = some s') (hq : q ≠ p) : Woken (s.proc q) (s'.proc q) := by
  have hrefl : ∀ q, Woken (s.proc q) (s.proc q) := fun q => .refl _
  unfold Sleep.run at h
  split at h
  · cases h
  · rename_i c f w hpc
    cases w with
    | acquire | relock | sleepAcquire =>
      obtain ⟨-, rfl⟩ := acquire_eq h
      exact woken_of_update hrefl rfl hq
    | asleep =>
      simp only [runWait] at h
      split at h
      · obtain ⟨-, rfl⟩ := acquire_eq h
        exact woken_of_update (t := s) hrefl (Function.update_idem _ _ _) hq
      · cases h
    | _ =>
      obtain rfl := Option.some.inj h
      exact woken_of_update hrefl rfl hq
  · rename_i c f w hpc
    cases w with
    | acquire | lock =>
      obtain ⟨-, rfl⟩ := acquire_eq h
      exact woken_of_update hrefl rfl hq
    | scan rest =>
      cases rest with
      | nil =>
        obtain rfl := Option.some.inj h
        exact woken_of_update hrefl rfl hq
      | cons r rest =>
        obtain rfl := Option.some.inj h
        exact woken_of_update woken_wake rfl hq
    | _ =>
      obtain rfl := Option.some.inj h
      exact woken_of_update hrefl rfl hq
  · rename_i c w hpc
    cases w with
    | acquire =>
      obtain ⟨-, rfl⟩ := acquire_eq h
      exact woken_of_update hrefl rfl hq
    | _ =>
      obtain rfl := Option.some.inj h
      exact woken_of_update hrefl rfl hq
  · rename_i r w hpc
    cases w with
    | acquire =>
      obtain ⟨-, rfl⟩ := acquire_eq h
      exact woken_of_update hrefl rfl hq
    | body =>
      obtain rfl := Option.some.inj h
      exact woken_of_update woken_kill rfl hq
    | release =>
      obtain rfl := Option.some.inj h
      exact woken_of_update hrefl rfl hq

/-- The process at which `wakeup1` has looked does not sleep on the channel. -/
theorem run_scan {rest : List (Fin n)} (hpc : (s.proc p).pc = .wake c f (.scan (q :: rest)))
    (hq : q ≠ p) (h : run K s p = some s') : ¬ s'.SleepingOn q c := by
  unfold Sleep.run at h
  rw [hpc] at h
  obtain rfl := Option.some.inj h
  unfold State.SleepingOn
  simp only [State.goto, State.setProc, Function.update_of_ne hq]
  unfold State.wake
  split
  · simp [State.setProc]
  · assumption

/-! ### The invariant -/

structure Inv (K : Conf L C D) (s : State L C D n) : Prop extends LockInv K s where
  ok : ∀ p, (s.proc p).Ok
  tested : ∀ {p c f}, (s.proc p).pc = .wait c f .update → K.cond c (s.data c) = true
  covered : ∀ {q c}, K.cond c (s.data c) = true → (s.proc q).Doomed c →
    ∃ p, (s.proc p).pc.Wakes c
  scan : ∀ {p q c f rest}, (s.proc p).pc = .wake c f (.scan rest) → (s.proc q).Doomed c → q ∈ rest
  woke : ∀ {p q c}, (s.proc p).pc.Woke c → ¬ (s.proc q).Doomed c

omit [DecidableEq L] [DecidableEq C] in
/-- A waker holds the lock of its condition from its update on. -/
theorem holds_of_wakes {pc : PC C D n} (h : pc.Wakes c ∨ pc.Woke c) : Holds K (K.lk c) pc := by
  rcases h with h | h
  · unfold PC.Wakes at h
    split at h
    · exact congrArg K.lk h.symm
    · exact .inl (congrArg K.lk h.symm)
    · exact h.elim
  · unfold PC.Woke at h
    split at h
    · exact .inl (congrArg K.lk h.symm)
    · exact congrArg K.lk h.symm
    · exact h.elim

section Preserved
variable (hi : Inv K s) (hlock : LockInv K s') (hl : Line K s p (s'.proc p) s'.data)
  (hw : ∀ q, q ≠ p → Woken (s.proc q) (s'.proc q))

omit [DecidableEq L] [DecidableEq C]

include hl hw in
/-- A process is on its way to sleep only if it was, or has just tested its condition. -/
theorem doomed_or_fails (hd : (s'.proc q).Doomed c) :
    (s.proc q).Doomed c ∨ q = p ∧ Fails K s p c := by
  by_cases hq : q = p
  · subst hq
    exact (hl.doomed hd).imp_right fun hf => ⟨rfl, hf⟩
  · exact .inl (hd.of_woken (hw q hq))

include hi in
/-- Nobody else is waking while a process tests. -/
theorem Inv.not_wakes_of_fails (hf : Fails K s p c) :
    ¬ ((s.proc q).pc.Wakes c ∨ (s.proc q).pc.Woke c) := by
  intro hq
  obtain ⟨f, hpc, -⟩ := hf
  have hp : Holds K (K.lk c) (s.proc p).pc := by rw [hpc]; rfl
  obtain rfl := hi.eq hp (holds_of_wakes hq)
  rw [hpc] at hq
  exact hq.elim id id

include hi hl hw in
theorem Inv.tested_step {f : D → D} (hpc : (s'.proc q).pc = .wait c f .update) :
    K.cond c (s'.data c) = true := by
  by_cases hq : q = p
  · subst hq
    exact hl.update hpc
  · rw [(hw q hq).pc] at hpc
    have hheld : Holds K (K.lk c) (s.proc q).pc := by rw [hpc]; rfl
    -- Whoever changes the data holds the same lock.
    rcases hl.data (c := c) with hd | ⟨g, hp | ⟨hp, -⟩⟩
    · rw [hd]
      exact hi.tested hpc
    · exact absurd (hi.eq hheld (by rw [hp]; rfl)) hq
    · exact absurd (hi.eq hheld (by rw [hp]; rfl)) hq

include hi hl hw in
theorem Inv.covered_step (hc : K.cond c (s'.data c) = true) (hd : (s'.proc q).Doomed c) :
    ∃ r, (s'.proc r).pc.Wakes c := by
  rcases doomed_or_fails hl hw hd with hold | ⟨rfl, f, hpc, hfalse⟩
  · by_cases hbefore : K.cond c (s.data c) = true
    · obtain ⟨r, hr⟩ := hi.covered hbefore hold
      by_cases hrp : r = p
      · subst hrp
        rcases hl.wakes hr with hr' | ⟨f, hpc⟩
        · exact ⟨r, hr'⟩
        · exact absurd (hi.scan hpc hold) (by simp)
      · exact ⟨r, by rw [(hw r hrp).pc]; exact hr⟩
    · rcases hl.data (c := c) with hdata | ⟨f, hpc | ⟨-, hwakes⟩⟩
      · exact absurd (hdata ▸ hc) hbefore
      · exact absurd (hi.tested hpc) hbefore
      · exact ⟨p, hwakes⟩
  · rcases hl.data (c := c) with hdata | ⟨g, hpc' | ⟨hpc', -⟩⟩
    · rw [hdata, hfalse] at hc
      cases hc
    · rw [hpc] at hpc'
      cases hpc'
    · rw [hpc] at hpc'
      cases hpc'

include hi hl hw in
theorem Inv.scan_step {r : Fin n} {f : D → D} {rest : List (Fin n)}
    (hscan : ∀ {q c f rest}, (s.proc p).pc = .wake c f (.scan (q :: rest)) → q ≠ p →
      ¬ s'.SleepingOn q c)
    (hr : (s'.proc r).pc = .wake c f (.scan rest)) (hd : (s'.proc q).Doomed c) : q ∈ rest := by
  have hsplit := doomed_or_fails hl hw hd
  by_cases hrp : r = p
  · subst hrp
    rcases hl.scan hr with rfl | ⟨q₀, hpc⟩
    · exact List.mem_finRange q
    · have hwakes : (s.proc r).pc.Wakes c := by rw [hpc]; rfl
      have hold : (s.proc q).Doomed c := hsplit.resolve_right fun hf =>
        hi.not_wakes_of_fails hf.2 (.inl hwakes)
      rcases List.mem_cons.mp (hi.scan hpc hold) with rfl | hmem
      · exfalso
        by_cases hqr : q = r
        · subst hqr
          have hx := (hi.ok q).awake fun c f => by rw [hpc]; simp
          exact hold.elim (fun h => by rw [hpc] at h; cases h) fun h => hx h.1
        · rcases hd with hwin | hsleep
          · -- It would hold one of the two locks that the waker holds.
            rw [(hw q hqr).pc] at hwin
            refine (holds_of_window (K := K) hwin).elim (fun h => hqr ?_) fun h => hqr ?_
            · exact hi.eq h (by rw [hpc]; exact .inl rfl)
            · exact hi.eq h (by rw [hpc]; exact .inr rfl)
          · exact hscan hpc hqr hsleep
      · exact hmem
  · rw [(hw r hrp).pc] at hr
    refine hi.scan hr (hsplit.resolve_right fun hf => ?_)
    exact hi.not_wakes_of_fails (q := r) hf.2 (.inl (by rw [hr]; rfl))

include hi hl hw in
theorem Inv.woke_step {r : Fin n} (hr : (s'.proc r).pc.Woke c) : ¬ (s'.proc q).Doomed c := by
  intro hd
  have hsplit := doomed_or_fails hl hw hd
  by_cases hrp : r = p
  · subst hrp
    rcases hl.woke hr with hwoke | ⟨f, hpc⟩
    · refine hi.woke hwoke (hsplit.resolve_right fun hf => ?_)
      exact hi.not_wakes_of_fails hf.2 (.inr hwoke)
    · have hold : (s.proc q).Doomed c := hsplit.resolve_right fun hf =>
        hi.not_wakes_of_fails hf.2 (.inl (by rw [hpc]; rfl))
      exact absurd (hi.scan hpc hold) (by simp)
  · rw [(hw r hrp).pc] at hr
    refine hi.woke hr (hsplit.resolve_right fun hf => ?_)
    exact hi.not_wakes_of_fails hf.2 (.inr hr)

include hi hlock hl hw in
theorem Inv.of_line
    (hscan : ∀ {q c f rest}, (s.proc p).pc = .wake c f (.scan (q :: rest)) → q ≠ p →
      ¬ s'.SleepingOn q c) : Inv K s' where
  toLockInv := hlock
  ok q := by
    by_cases hq : q = p
    · subst hq
      exact hl.ok
    · exact (hi.ok q).woken (hw q hq)
  tested := hi.tested_step hl hw
  covered := hi.covered_step hl hw
  scan := hi.scan_step hl hw hscan
  woke := hi.woke_step hl hw

end Preserved

/-- What a step does to the process that takes it and to the others. -/
theorem step_line {e : Event C D n} (hok : ∀ p, (s.proc p).Ok) (h : step K s e = some s') :
    ∃ p, (∀ c, Fails K s p c → e = .run p) ∧ Line K s p (s'.proc p) s'.data ∧
      (∀ q, q ≠ p → Woken (s.proc q) (s'.proc q)) ∧
      ∀ {q c f rest}, (s.proc p).pc = .wake c f (.scan (q :: rest)) → q ≠ p →
        ¬ s'.SleepingOn q c := by
  rcases step_cases h with ⟨p, rfl, hrun⟩ | ⟨p, pc, hentry, huser, hproc, -, hdata⟩
  · exact ⟨p, fun _ _ => rfl, run_line (hok p) hrun, fun q hq => run_others hrun hq,
      fun hpc hq => run_scan hpc hq hrun⟩
  · have hx : (s.proc p).status ≠ .sleeping := (hok p).awake fun c f => by rw [huser]; simp
    have hself : s'.proc p = { s.proc p with pc := pc } := by rw [hproc, Function.update_self]
    have hno : ∀ {pc'}, pc' ≠ .user → (s.proc p).pc ≠ pc' := fun hne hpc =>
      hne (hpc.symm.trans huser)
    refine ⟨p, fun c ⟨f, hpc, _⟩ => absurd hpc (hno (by simp)), ?_,
      fun q hq => woken_of_update (fun _ => .refl _) hproc hq,
      fun hpc => absurd hpc (hno (by simp))⟩
    rw [hself, hdata]
    exact .calm hx hentry.quiet.1 (hentry.facts (K := K)).2.2 hentry.quiet.2
      (fun c => by rw [huser]; exact id) fun _ => .inl rfl

theorem LockInv.step {e : Event C D n} (h : LockInv K s) (hs : step K s e = some s') :
    LockInv K s' := by
  rcases step_cases hs with ⟨p, rfl, hrun⟩ | ⟨p, pc, hentry, huser, hproc, hlk, -⟩
  · exact h.run hrun
  · refine h.keep hproc hlk hentry.facts.2.1 fun l => ?_
    rw [huser]
    exact iff_of_false (hentry.facts.1 l) id

theorem Inv.step {e : Event C D n} (hi : Inv K s) (h : step K s e = some s') : Inv K s' := by
  obtain ⟨p, -, hl, hw, hscan⟩ := step_line hi.ok h
  exact hi.of_line (hi.toLockInv.step h) hl hw hscan

omit [DecidableEq L] [DecidableEq C] in
theorem Inv.init (h : Init s) : Inv K s := by
  have hpc : ∀ p, (s.proc p).pc = .user := fun p => (h.2.1 p).1
  have hnot : ∀ q c, ¬ (s.proc q).Doomed c := by
    rintro q c (hd | hd)
    · rw [hpc] at hd
      cases hd
    · exact (h.2.1 q).2 hd.1
  refine ⟨⟨fun l p => ?_, fun p => ?_⟩, fun p => ⟨fun hs => absurd hs (h.2.1 p).2, fun hu => ?_⟩,
    fun hu => ?_, fun _ hd => absurd hd (hnot _ _), fun _ hd => absurd hd (hnot _ _),
    fun _ => hnot _ _⟩
  · rw [h.1, hpc]
    exact iff_of_false (by simp) id
  · rw [hpc]
    trivial
  · rw [hpc] at hu
    cases hu
  · rw [hpc] at hu
    cases hu

theorem Inv.of_reach {ok : State L C D n → Event C D n → Prop}
    (h : Reach (Sleep.step K) Init ok s) : Inv K s :=
  h.invariant (fun _ => Inv.init) fun _ _ _ hi _ hs => hi.step hs

/-- Runs in which a process does not test a condition again. -/
def NoTest (q : Fin n) (c : C) (s : State L C D n) : Event C D n → Prop
  | .run p => p = q → ∀ f, (s.proc p).pc ≠ .wait c f .test
  | _ => True

/-- A process that is not on its way to sleep stays so until it tests its condition. -/
theorem not_doomed_of_reach (hi : Inv K s) (hd : ¬ (s.proc q).Doomed c)
    (h : Reach (Sleep.step K) (· = s) (NoTest q c) s') : ¬ (s'.proc q).Doomed c := by
  have hinv : Inv K s' ∧ ¬ (s'.proc q).Doomed c := by
    refine h.invariant (I := fun t => Inv K t ∧ ¬ (t.proc q).Doomed c) (fun t ht => ?_)
      fun t e t' ht hok hs => ⟨ht.1.step hs, fun hd' => ?_⟩
    · subst ht
      exact ⟨hi, hd⟩
    · obtain ⟨p, hrun, hl, hw, -⟩ := step_line ht.1.ok hs
      rcases doomed_or_fails hl hw hd' with hold | ⟨rfl, hf⟩
      · exact ht.2 hold
      · obtain rfl := hrun c hf
        obtain ⟨f, hpc, -⟩ := hf
        exact hok rfl f hpc
  exact hinv.2

/-- `wakeup(chan)` has just returned to the process, which still holds the lock. -/
def PC.returned (c : C) : PC C D n → Bool
  | .wake c' _ .release => decide (c' = c)
  | _ => false

omit [DecidableEq L] in
theorem not_doomed_of_returned (hi : Inv K s) (hpc : (s.proc p).pc.returned c = true) :
    ¬ (s.proc q).Doomed c := by
  refine hi.woke (p := p) ?_
  unfold PC.returned at hpc
  split at hpc
  · rename_i h
    rw [h]
    exact (decide_eq_true_iff.mp hpc : _ = c)
  · cases hpc

omit [DecidableEq L] [DecidableEq C] in
/-- While its lock is free, nobody sleeps on a condition that holds. -/
theorem not_doomed_of_free (hi : Inv K s) (hfree : s.lock (K.lk c) = none)
    (hc : K.cond c (s.data c) = true) : ¬ (s.proc q).Doomed c := by
  intro hd
  obtain ⟨p, hp⟩ := hi.covered hc hd
  have hheld := (hi.holds (K.lk c) p).mpr (holds_of_wakes (.inl hp))
  rw [hfree] at hheld
  cases hheld

end Chameleon.Sleep
