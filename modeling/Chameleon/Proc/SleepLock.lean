import Chameleon.Proc.Sleepers

/-! The sleep-locks of `sleeplock.c` as an instance of waiting and waking: `acquiresleep` waits for
`locked` to be 0, `releasesleep` clears it and wakes. -/

namespace Chameleon.Sleep
open Machine

/-- `locked` and `pid`; 0 is the `pid` of a free lock. -/
structure SleepLock (n : Nat) where
  locked : Bool
  pid : Option (Fin n)
  deriving DecidableEq

/-- Each sleep-lock is protected by a spinlock of its own; `none` is `ptable.lock`. -/
def sleepLocks (C : Type) (n : Nat) : Conf (Option C) C (SleepLock n) where
  ptable := none
  lk := some
  cond := fun _ d => !d.locked

inductive Call (C : Type) (n : Nat)
  | run (p : Fin n)
  | acquiresleep (p : Fin n) (c : C)
  | releasesleep (p : Fin n) (c : C)
  | holdingsleep (p : Fin n) (c : C)
  | kill (p q : Fin n)

def take {n : Nat} (p : Fin n) (_ : SleepLock n) : SleepLock n := ⟨true, some p⟩

def drop {n : Nat} (_ : SleepLock n) : SleepLock n := ⟨false, none⟩

def Call.event {C : Type} {n : Nat} : Call C n → Event C (SleepLock n) n
  | .run p => .run p
  | .acquiresleep p c => .wait p c (take p)
  | .releasesleep p c => .wake p c drop
  | .holdingsleep p c => .look p c
  | .kill p q => .kill p q

variable {C : Type} [DecidableEq C] {n : Nat}

abbrev Locks (C : Type) (n : Nat) := State (Option C) C (SleepLock n) n

def lockStep (s : Locks C n) (e : Call C n) : Option (Locks C n) :=
  step (sleepLocks C n) s e.event

/-- A process calls `releasesleep` for a lock that it holds. -/
def Paired (s : Locks C n) : Call C n → Prop
  | .releasesleep p c => s.past p c = true
  | _ => True

instance Paired.decidable (s : Locks C n) : (e : Call C n) → Decidable (Paired s e)
  | .releasesleep _ _ => inferInstanceAs (Decidable (_ = true))
  | .run _ | .acquiresleep _ _ | .holdingsleep _ _ | .kill _ _ => inferInstanceAs (Decidable True)

/-- All locks are free. -/
def LocksInit (s : Locks C n) : Prop := Init s ∧ ∀ c, s.data c = ⟨false, none⟩

variable {s s' : Locks C n} {p q : Fin n} {c : C}

/-- From the update in `acquiresleep` to the one in `releasesleep`. -/
def Owns (s : Locks C n) (p : Fin n) (c : C) : Prop :=
  s.past p c = true ∨ ∃ f, (s.proc p).pc = .wait c f .release ∨
    (s.proc p).pc = .wake c f .acquire ∨ (s.proc p).pc = .wake c f .update

structure OwnInv (s : Locks C n) : Prop where
  take : ∀ {p c f w}, (s.proc p).pc = .wait c f w → f = take p
  drop : ∀ {p c f w}, (s.proc p).pc = .wake c f w → f = Sleep.drop
  away : ∀ {p c f w}, (s.proc p).pc = .wake c f w → s.past p c = false
  owner : ∀ {p c}, Owns s p c → s.data c = ⟨true, some p⟩

section Lines
variable {L C D : Type} [DecidableEq L] [DecidableEq C] {n : Nat} {K : Conf L C D}
  {s s' : State L C D n} {p : Fin n}

/-- A line belongs to the call of the line before it, and what it takes to be past the update. -/
structure Follows (pc pc' : PC C D n) : Prop where
  wait : ∀ {c f w'}, pc' = .wait c f w' → ∃ w, pc = .wait c f w ∧ (w' = .release → w = .update)
  wake : ∀ {c f w'}, pc' = .wake c f w' →
    ∃ w, pc = .wake c f w ∧ w' ≠ .acquire ∧ (w' = .update → w = .acquire)

omit [DecidableEq C] in
theorem follows_wait {c : C} {f : D → D} {w w' : Waiting} (h : w' = .release → w = .update) :
    Follows (n := n) (.wait c f w) (.wait c f w') :=
  ⟨fun hpc => by cases hpc; exact ⟨w, rfl, h⟩, fun hpc => by cases hpc⟩

omit [DecidableEq C] in
theorem follows_wake {c : C} {f : D → D} {w w' : Waking n} (hne : w' ≠ .acquire)
    (h : w' = .update → w = .acquire) : Follows (.wake c f w) (.wake c f w') :=
  ⟨fun hpc => (by cases hpc), fun hpc => by cases hpc; exact ⟨w, rfl, hne, h⟩⟩

theorem runWait_follows {c : C} {f : D → D} {w : Waiting} (h : runWait K s p c f w = some s') :
    Follows (.wait c f w) (s'.proc p).pc := by
  cases w with
  | acquire | relock | sleepAcquire =>
    obtain ⟨-, rfl⟩ := acquire_eq h
    rw [pc_self rfl]
    exact follows_wait (by simp)
  | asleep =>
    simp only [runWait] at h
    split at h
    · obtain ⟨-, rfl⟩ := acquire_eq h
      rw [pc_self rfl]
      exact follows_wait (by simp)
    · cases h
  | release =>
    obtain rfl := Option.some.inj h
    rw [pc_self (s := s) rfl]
    exact ⟨by simp, by simp⟩
  | test =>
    obtain rfl := Option.some.inj h
    rw [pc_self (s := s) rfl]
    refine follows_wait ?_
    split_ifs <;> simp
  | tidy =>
    obtain rfl := Option.some.inj h
    rw [pc_self (s := s) rfl]
    refine follows_wait ?_
    split_ifs <;> simp
  | _ =>
    obtain rfl := Option.some.inj h
    rw [pc_self (s := s) rfl]
    exact follows_wait (by simp)

theorem runWake_follows {c : C} {f : D → D} {w : Waking n} (h : runWake K s p c f w = some s') :
    Follows (.wake c f w) (s'.proc p).pc := by
  cases w with
  | acquire | lock =>
    obtain ⟨-, rfl⟩ := acquire_eq h
    rw [pc_self rfl]
    exact follows_wake (by simp) (by simp)
  | update =>
    obtain rfl := Option.some.inj h
    rw [pc_self (s := s) rfl]
    refine follows_wake ?_ ?_ <;> split_ifs <;> simp
  | scan rest =>
    cases rest with
    | nil =>
      obtain rfl := Option.some.inj h
      rw [pc_self (s := s) rfl]
      refine follows_wake ?_ ?_ <;> split_ifs <;> simp
    | cons q rest =>
      obtain rfl := Option.some.inj h
      rw [pc_self (s := s.wake q c) rfl]
      exact follows_wake (by simp) (by simp)
  | unlock =>
    obtain rfl := Option.some.inj h
    rw [pc_self (s := s) rfl]
    exact follows_wake (by simp) (by simp)
  | release =>
    obtain rfl := Option.some.inj h
    rw [pc_self (s := s) rfl]
    exact ⟨by simp, by simp⟩

theorem run_follows (h : run K s p = some s') : Follows (s.proc p).pc (s'.proc p).pc := by
  have hout : ∀ {pc pc' : PC C D n}, pc = .user ∨ (∃ c w, pc = .look c w) ∨
      (∃ q w, pc = .kill q w) → Follows pc' pc := by
    rintro pc pc' (rfl | ⟨c, w, rfl⟩ | ⟨q, w, rfl⟩) <;> exact ⟨by simp, by simp⟩
  unfold Sleep.run at h
  split at h
  · cases h
  · rename_i hpc
    rw [hpc]
    exact runWait_follows h
  · rename_i hpc
    rw [hpc]
    exact runWake_follows h
  · rename_i c w hpc
    refine hout ?_
    cases w with
    | acquire =>
      obtain ⟨-, rfl⟩ := acquire_eq h
      rw [pc_self rfl]
      exact .inr (.inl ⟨_, _, rfl⟩)
    | body =>
      obtain rfl := Option.some.inj h
      rw [pc_self (s := s) rfl]
      exact .inr (.inl ⟨_, _, rfl⟩)
    | release =>
      obtain rfl := Option.some.inj h
      rw [pc_self (s := s) rfl]
      exact .inl rfl
  · rename_i q w hpc
    refine hout ?_
    cases w with
    | acquire =>
      obtain ⟨-, rfl⟩ := acquire_eq h
      rw [pc_self rfl]
      exact .inr (.inr ⟨_, _, rfl⟩)
    | body =>
      obtain rfl := Option.some.inj h
      rw [pc_self (s := s.kill q) rfl]
      exact .inr (.inr ⟨_, _, rfl⟩)
    | release =>
      obtain rfl := Option.some.inj h
      rw [pc_self (s := s) rfl]
      exact .inl rfl

/-- Only the end of a wait makes its process past it. -/
theorem run_past (h : run K s p = some s') : s'.past = s.past ∨
    ∃ c f, (s.proc p).pc = .wait c f .release ∧ (s'.proc p).pc = .user ∧ s'.data = s.data ∧
      s'.past = Function.update s.past p (Function.update (s.past p) c true) := by
  unfold Sleep.run at h
  split at h
  · cases h
  · rename_i c f w hpc
    cases w with
    | acquire | relock | sleepAcquire =>
      obtain ⟨-, rfl⟩ := acquire_eq h
      exact .inl rfl
    | asleep =>
      simp only [runWait] at h
      split at h
      · obtain ⟨-, rfl⟩ := acquire_eq h
        exact .inl rfl
      · cases h
    | release =>
      obtain rfl := Option.some.inj h
      refine .inr ⟨c, f, hpc, ?_, rfl, rfl⟩
      rw [pc_self (s := s) rfl]
    | _ =>
      obtain rfl := Option.some.inj h
      exact .inl rfl
  · rename_i c f w hpc
    cases w with
    | acquire | lock =>
      obtain ⟨-, rfl⟩ := acquire_eq h
      exact .inl rfl
    | scan rest =>
      cases rest with
      | nil =>
        obtain rfl := Option.some.inj h
        exact .inl rfl
      | cons q rest =>
        obtain rfl := Option.some.inj h
        refine .inl ?_
        simp only [State.goto, State.setProc, State.wake]
        split <;> rfl
    | _ =>
      obtain rfl := Option.some.inj h
      exact .inl rfl
  · rename_i c w hpc
    cases w with
    | acquire =>
      obtain ⟨-, rfl⟩ := acquire_eq h
      exact .inl rfl
    | _ =>
      obtain rfl := Option.some.inj h
      exact .inl rfl
  · rename_i q w hpc
    cases w with
    | acquire =>
      obtain ⟨-, rfl⟩ := acquire_eq h
      exact .inl rfl
    | _ =>
      obtain rfl := Option.some.inj h
      exact .inl rfl

theorem run_update {c : C} {f : D → D} (hpc : (s.proc p).pc = .wait c f .update)
    (h : run K s p = some s') : s'.data c = f (s.data c) := by
  unfold Sleep.run at h
  rw [hpc] at h
  obtain rfl := Option.some.inj h
  exact Function.update_self _ _ _

end Lines

section Owner
variable (hi : Inv (sleepLocks C n) s) (ho : OwnInv s)
include hi ho

omit [DecidableEq C] in
/-- Nobody takes the lock of another process away. -/
theorem owner_of_ne (hq : q ≠ p) (hl : Line (sleepLocks C n) s p (s'.proc p) s'.data)
    (hown : Owns s q c) : s'.data c = ⟨true, some q⟩ := by
  have hdata := ho.owner hown
  rcases hl.data (c := c) with hd | ⟨f, hpc | ⟨hpc, -⟩⟩
  · rw [hd]
    exact hdata
  · have hfree := hi.tested hpc
    simp [sleepLocks, hdata] at hfree
  · have hmine := ho.owner (p := p) (.inr ⟨f, .inr (.inr hpc)⟩)
    rw [hdata] at hmine
    exact absurd (Option.some.inj (SleepLock.mk.inj hmine).2) hq

omit [DecidableEq C] in
/-- A process that has returned from `acquiresleep` leaves the lock alone until it calls
`releasesleep`. -/
theorem owner_of_past (hl : Line (sleepLocks C n) s p (s'.proc p) s'.data)
    (hpast : s.past p c = true) : s'.data c = ⟨true, some p⟩ := by
  have hdata := ho.owner (.inl hpast)
  rcases hl.data (c := c) with hd | ⟨f, hpc | ⟨hpc, -⟩⟩
  · rw [hd]
    exact hdata
  · have hfree := hi.tested hpc
    simp [sleepLocks, hdata] at hfree
  · rw [ho.away hpc] at hpast
    cases hpast

theorem owner_run (hs : Sleep.run (sleepLocks C n) s p = some s') (hown : Owns s' p c) :
    s'.data c = ⟨true, some p⟩ := by
  have hl := run_line (hi.ok p) hs
  have hfollows := run_follows hs
  rcases hown with hpast | ⟨f, hpc | hpc | hpc⟩
  · rcases run_past hs with hsame | ⟨c₀, f, hpc, -, hdata, hpast'⟩
    · rw [hsame] at hpast
      exact owner_of_past hi ho hl hpast
    · by_cases hc : c = c₀
      · subst hc
        rw [hdata]
        exact ho.owner (.inr ⟨f, .inl hpc⟩)
      · refine owner_of_past hi ho hl ?_
        rw [hpast', Function.update_self, Function.update_of_ne hc] at hpast
        exact hpast
  · obtain ⟨w, hwait, hw⟩ := hfollows.wait hpc
    obtain rfl := hw rfl
    rw [run_update hwait hs, ho.take hwait]
    rfl
  · obtain ⟨w, -, hne, -⟩ := hfollows.wake hpc
    exact absurd rfl hne
  · obtain ⟨w, hwake, -, hw⟩ := hfollows.wake hpc
    obtain rfl := hw rfl
    have hdata := ho.owner (.inr ⟨f, .inr (.inl hwake)⟩)
    rcases hl.data (c := c) with hd | ⟨g, hpc' | ⟨hpc', -⟩⟩
    · rw [hd]
      exact hdata
    · rw [hwake] at hpc'
      cases hpc'
    · rw [hwake] at hpc'
      cases hpc'

theorem OwnInv.run (hs : Sleep.run (sleepLocks C n) s p = some s') : OwnInv s' := by
  have hpcs : ∀ q, q ≠ p → (s'.proc q).pc = (s.proc q).pc := fun q hq => (run_others hs hq).pc
  have hpast : ∀ q, q ≠ p → s'.past q = s.past q := by
    intro q hq
    rcases run_past hs with hsame | ⟨c, f, -, -, -, hpast⟩
    · rw [hsame]
    · rw [hpast, Function.update_of_ne hq]
  have hfollows := run_follows hs
  refine ⟨fun {q} {c} {f} {w} hpc => ?_, fun {q} {c} {f} {w} hpc => ?_,
    fun {q} {c} {f} {w} hpc => ?_, fun {q} {c} hown => ?_⟩ <;> by_cases hq : q = p
  · subst hq
    obtain ⟨w', hwait, -⟩ := hfollows.wait hpc
    exact ho.take hwait
  · rw [hpcs q hq] at hpc
    exact ho.take hpc
  · subst hq
    obtain ⟨w', hwake, -⟩ := hfollows.wake hpc
    exact ho.drop hwake
  · rw [hpcs q hq] at hpc
    exact ho.drop hpc
  · subst hq
    obtain ⟨w', hwake, -⟩ := hfollows.wake hpc
    rcases run_past hs with hsame | ⟨c', f', hwait, -⟩
    · rw [hsame]
      exact ho.away hwake
    · rw [hwait] at hwake
      cases hwake
  · rw [hpcs q hq] at hpc
    rw [hpast q hq]
    exact ho.away hpc
  · subst hq
    exact owner_run hi ho hs hown
  · refine owner_of_ne hi ho hq (run_line (hi.ok p) hs) ?_
    unfold Owns at hown ⊢
    rwa [hpcs q hq, hpast q hq] at hown

omit hi

omit [DecidableEq C] in
/-- A process begins a call; with `releasesleep` it gives up being past `acquiresleep`. -/
theorem OwnInv.begin {pc : PC C (SleepLock n) n} (huser : (s.proc p).pc = .user)
    (hproc : s'.proc = Function.update s.proc p { s.proc p with pc := pc })
    (hdata : s'.data = s.data) (hpast : ∀ {q c}, s'.past q c = true → s.past q c = true)
    (htake : ∀ {c f w}, pc = .wait c f w → f = Sleep.take p ∧ w = .acquire)
    (hdrop : ∀ {c f w}, pc = .wake c f w →
      f = Sleep.drop ∧ s'.past p c = false ∧ s.past p c = true) : OwnInv s' := by
  have hself := pc_self hproc
  have hpcs : ∀ q, q ≠ p → (s'.proc q).pc = (s.proc q).pc := fun q hq => pc_of_ne hproc hq
  refine ⟨fun {q} {c} {f} {w} hpc => ?_, fun {q} {c} {f} {w} hpc => ?_,
    fun {q} {c} {f} {w} hpc => ?_, fun {q} {c} hown => ?_⟩ <;> by_cases hq : q = p
  · subst hq
    exact (htake (hself.symm.trans hpc)).1
  · exact ho.take ((hpcs q hq).symm.trans hpc)
  · subst hq
    exact (hdrop (hself.symm.trans hpc)).1
  · exact ho.drop ((hpcs q hq).symm.trans hpc)
  · subst hq
    exact (hdrop (hself.symm.trans hpc)).2.1
  · have hfalse := ho.away ((hpcs q hq).symm.trans hpc)
    exact Bool.eq_false_iff.mpr fun h => by rw [hpast h] at hfalse; cases hfalse
  · subst hq
    rw [hdata]
    refine ho.owner (.inl ?_)
    rcases hown with h | ⟨f, h | h | h⟩
    · exact hpast h
    · cases (htake (hself.symm.trans h)).2
    · exact (hdrop (hself.symm.trans h)).2.2
    · exact (hdrop (hself.symm.trans h)).2.2
  · rw [hdata]
    refine ho.owner (hown.imp hpast fun ⟨f, h⟩ => ⟨f, ?_⟩)
    rwa [hpcs q hq] at h

end Owner

theorem OwnInv.step {e : Call C n} (hi : Inv (sleepLocks C n) s) (ho : OwnInv s)
    (hp : Paired s e) (hs : lockStep s e = some s') : OwnInv s' := by
  cases e with
  | run p => exact ho.run hi hs
  | acquiresleep p c =>
    obtain ⟨huser, rfl⟩ := begin_eq hs
    refine ho.begin huser rfl rfl id (fun h => ?_) fun h => by cases h
    cases h
    exact ⟨rfl, rfl⟩
  | releasesleep p c =>
    obtain ⟨huser, rfl⟩ := begin_eq hs
    refine ho.begin huser rfl rfl (fun {q c'} h => ?_) (fun h => by cases h) fun h => ?_
    · by_cases hq : q = p
      · subst hq
        by_cases hc : c' = c
        · subst hc
          exact hp
        · simpa [State.goto, State.setProc, hc] using h
      · simpa [State.goto, State.setProc, hq] using h
    · cases h
      exact ⟨rfl, by simp [State.goto, State.setProc], hp⟩
  | holdingsleep p c =>
    obtain ⟨huser, rfl⟩ := begin_eq hs
    exact ho.begin huser rfl rfl id (fun h => by cases h) fun h => by cases h
  | kill p q =>
    obtain ⟨huser, rfl⟩ := begin_eq hs
    exact ho.begin huser rfl rfl id (fun h => by cases h) fun h => by cases h

omit [DecidableEq C] in
theorem OwnInv.init (h : LocksInit s) : OwnInv s := by
  have hpc : ∀ p, (s.proc p).pc = .user := fun p => (h.1.2.1 p).1
  refine ⟨fun hw => ?_, fun hw => ?_, fun _ => h.1.2.2 _ _, fun {p c} hown => ?_⟩
  · rw [hpc] at hw
    cases hw
  · rw [hpc] at hw
    cases hw
  · simp [Owns, h.1.2.2 p c, hpc p] at hown

theorem locks_of_reach (h : Reach lockStep LocksInit Paired s) :
    Inv (sleepLocks C n) s ∧ OwnInv s :=
  h.invariant (I := fun s => Inv (sleepLocks C n) s ∧ OwnInv s)
    (fun _ hinit => ⟨.init hinit.1, .init hinit⟩)
    fun _ _ _ hi hok hs => ⟨hi.1.step hs, hi.2.step hi.1 hok hs⟩

theorem reach_step (h : Reach lockStep LocksInit Paired s) :
    Reach (step (sleepLocks C n)) Init Any s := by
  induction h with
  | start hinit => exact .start hinit.1
  | next _ _ hs ih => exact .next ih trivial hs

/-- When `wakeup` returns, whatever process has tested the condition before is not `SLEEPING` on
the channel, and will not be before it tests the condition again. Two processes are never both
past `acquiresleep`, and nobody sleeps on a free sleep-lock. -/
theorem no_lost_wakeup :
    (∀ (L C D : Type) [DecidableEq L] [DecidableEq C] (n : Nat) (K : Conf L C D)
      (s : State L C D n), Reach (step K) Init Any s →
      ∀ p c, (s.proc p).pc.returned c = true → ∀ q, ¬ s.SleepingOn q c ∧
        ∀ s', Reach (step K) (· = s) (NoTest q c) s' → ¬ s'.SleepingOn q c) ∧
    ∀ (C : Type) [DecidableEq C] (n : Nat) (s : Locks C n), Reach lockStep LocksInit Paired s →
      (∀ c p q, s.past p c = true → s.past q c = true → p = q) ∧
      ∀ c, (s.data c).locked = false → s.lock (some c) = none → ∀ q, ¬ s.SleepingOn q c := by
  refine ⟨fun L C D _ _ n K s h p c hpc q => ?_, fun C _ n s h => ?_⟩
  · have hi := Inv.of_reach h
    have hd : ¬ (s.proc q).Doomed c := not_doomed_of_returned hi hpc
    exact ⟨fun hs => hd (.inr hs), fun s' h' hs => not_doomed_of_reach hi hd h' (.inr hs)⟩
  · obtain ⟨hi, ho⟩ := locks_of_reach h
    refine ⟨fun c p q hp hq => ?_, fun c hl hfree q hs => ?_⟩
    · have hdata := (ho.owner (.inl hp)).symm.trans (ho.owner (.inl hq))
      exact Option.some.inj (SleepLock.mk.inj hdata).2
    · exact not_doomed_of_free hi hfree (by simp [sleepLocks, hl]) (.inr hs)

section Runs

local instance threeNeZero : NeZero 3 := ⟨Nat.succ_ne_zero 2⟩

/-- One sleep-lock and three processes. -/
def threeProcs : Locks Unit 3 where
  lock := fun _ => none
  proc := fun _ => ⟨.user, .running, none, false⟩
  data := fun _ => ⟨false, none⟩
  past := fun _ _ => false

theorem threeProcs_init : LocksInit threeProcs :=
  ⟨⟨fun _ => rfl, fun _ => ⟨rfl, by simp [threeProcs]⟩, fun _ _ => rfl⟩, fun _ => rfl⟩

/-- Process 0 takes the lock and process 1 goes to sleep on it; then 0 releases it, up to the
return of `wakeup`. -/
def handOver : List (Call Unit 3) :=
  [.acquiresleep 0 ()] ++ List.replicate 4 (.run 0) ++ [.acquiresleep 1 ()] ++
    List.replicate 7 (.run 1) ++ [.releasesleep 0 ()] ++ List.replicate 8 (.run 0)

def handed : Locks Unit 3 := (Machine.exec lockStep threeProcs handOver).getD threeProcs

theorem reach_handed : Reach lockStep LocksInit Paired handed := by
  have hrun : (Machine.exec lockStep threeProcs handOver).isSome = true := by decide +kernel
  have hmeets : Meets lockStep Paired threeProcs handOver := by decide +kernel
  obtain ⟨s, hs⟩ := Option.isSome_iff_exists.mp hrun
  rw [handed, hs, Option.getD_some]
  exact (Reach.start threeProcs_init).exec handOver hmeets hs

theorem no_lost_wakeup_handed :
    (handed.proc 0).pc.returned () = true ∧ (handed.proc 1).chan = some () ∧
      (handed.data ()).locked = false ∧ ¬ handed.SleepingOn 1 () ∧
      ∀ p q, handed.past p () = true → handed.past q () = true → p = q := by
  have hpc : (handed.proc 0).pc.returned () = true := by decide +kernel
  refine ⟨hpc, by decide +kernel, by decide +kernel, ?_, ?_⟩
  · exact (no_lost_wakeup.1 _ _ _ _ _ _ (reach_step reach_handed) 0 () hpc 1).1
  · exact (no_lost_wakeup.2 _ _ _ reach_handed).1 ()

end Runs

end Chameleon.Sleep
