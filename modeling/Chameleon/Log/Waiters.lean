import Chameleon.Log.Crash

/-! The counters of the log and the processes that sleep in `begin_op`, whatever the size of the
log and whatever the operations write. -/

namespace Chameleon.Log
open Conc Logic Prog Machine
variable {La : Area} {p q : Pid} {s s' : State} {g g' : Option Pid} {α : Type}

/-- The panic a program has ended in. -/
def panicked : M Unit → Option String
  | .panic msg => some msg
  | _ => none

/-- The steps of `log_write`. -/
def Act.logs : {β : Type} → Act β → Bool
  | _, .lhN => true
  | _, .outstanding => true
  | _, .append _ => true
  | _, _ => false

/-- An action that leaves the counters of the log alone. -/
def Act.plain : {β : Type} → Act β → Bool
  | _, .lhN => false
  | _, .outstanding => false
  | _, .append _ => false
  | _, .beginOp => false
  | _, .endOp => false
  | _, .endCommit => false
  | _, .setLh _ => false
  | _, .ready => false
  | _, _ => true

/-- Processes between `begin_op` and `end_op`. -/
def State.inOp (s : State) : Finset Pid := Finset.univ.filter fun p => s.hist.op p ≠ none

theorem mem_inOp : p ∈ s.inOp ↔ s.hist.op p ≠ none := by simp [State.inOp]

namespace Waiters

/-- What the counters mean, where `g` is the process that commits or recovers. -/
structure Inv (s : State) (g : Option Pid) : Prop where
  ops : s.outstanding = s.inOp.card
  who : g.isSome = (s.committing || !s.up)
  down : s.up = false → s.committing = false
  idle : g ≠ none → s.inOp = ∅
  settled : g = none → s.outstanding = 0 → s.lh = []
  sleepers : ∀ p, s.asleep p = true → s.up = true ∧ s.full = true ∧ p ∉ s.inOp ∧ g ≠ some p

/-- A process keeps its place in or out of an operation, and the one that commits or recovers
finds the log as it left it. -/
structure Rely (p : Pid) (s : State) (g : Option Pid) (s' : State) (g' : Option Pid) : Prop where
  op : p ∈ s'.inOp ↔ p ∈ s.inOp
  who : g' = some p ↔ g = some p
  lh : g = some p → s'.lh = s.lh ∧ s'.up = s.up
  up : s.up = true → s'.up = true

theorem Rely.refl (p : Pid) (s : State) (g : Option Pid) : Rely p s g s g :=
  ⟨.rfl, .rfl, fun _ => ⟨rfl, rfl⟩, id⟩

theorem Rely.trans {s₁ s₂ : State} {g₁ g₂ : Option Pid} (h : Rely p s g s₁ g₁)
    (h' : Rely p s₁ g₁ s₂ g₂) : Rely p s g s₂ g₂ where
  op := h'.op.trans h.op
  who := h'.who.trans h.who
  lh hg := ⟨(h'.lh (h.who.mpr hg)).1.trans (h.lh hg).1, (h'.lh (h.who.mpr hg)).2.trans (h.lh hg).2⟩
  up hu := h'.up (h.up hu)

/-- `log_write` is called in an operation only, and `end_op` finds no commit under way. -/
def logic (La : Area) : Logic State (Option Pid) Pid Act where
  sem := sem La
  ok _ _ _ _ := True
  Must p _ a s _ := a.logs = true → p ∈ s.inOp
  Inv := Inv
  Rely := Rely
  Allowed msg := msg ≠ "log.committing"
  refl := Rely.refl
  trans := Rely.trans

/-- Where a process stands. -/
inductive Place
  /-- Neither in an operation nor with the log in its hands. -/
  | out
  | inside
  /-- The log belongs to this process: it recovers before `up`, and commits after. -/
  | owner (up : Bool) (lh : List Nat)

def At (p : Pid) : Place → State → Option Pid → Prop
  | .out, s, g => p ∉ s.inOp ∧ g ≠ some p ∧ s.up = true
  | .inside, s, _ => p ∈ s.inOp ∧ s.up = true
  | .owner up lh, s, g => g = some p ∧ s.up = up ∧ s.lh = lh

def Idle (p : Pid) (s : State) (g : Option Pid) : Prop := p ∉ s.inOp ∧ g ≠ some p

theorem At.rely {x : Place} (hr : Rely p s g s' g') (h : At p x s g) : At p x s' g' := by
  cases x with
  | out => exact ⟨fun hin => h.1 (hr.op.mp hin), fun hg => h.2.1 (hr.who.mp hg), hr.up h.2.2⟩
  | inside => exact ⟨hr.op.mpr h.1, hr.up h.2⟩
  | owner up lh => exact ⟨hr.who.mpr h.1, (hr.lh h.1).2.trans h.2.1, (hr.lh h.1).1.trans h.2.2⟩

theorem at_stable (x : Place) : (logic La).Stable p (At p x) := fun _ _ _ _ hr _ h => h.rely hr

theorem idle_stable : (logic La).Stable p (Idle p) := fun _ _ _ _ hr _ h =>
  ⟨fun hin => h.1 (hr.op.mp hin), fun hg => h.2 (hr.who.mp hg)⟩

/-! ### Actions that leave the counters alone -/

/-- The part of the state that the invariant speaks of is the same. -/
structure Same (s s' : State) : Prop where
  op : s'.hist.op = s.hist.op
  lh : s'.lh = s.lh
  outstanding : s'.outstanding = s.outstanding
  committing : s'.committing = s.committing
  asleep : s'.asleep = s.asleep
  up : s'.up = s.up

theorem Same.inOp (h : Same s s') : s'.inOp = s.inOp := by simp only [State.inOp, h.op]

theorem Same.full (h : Same s s') : s'.full = s.full := by
  simp only [State.full, h.committing, h.lh, h.outstanding]

theorem Same.inv (h : Same s s') (hi : Inv s g) : Inv s' g where
  ops := by rw [h.outstanding, h.inOp]; exact hi.ops
  who := by rw [h.committing, h.up]; exact hi.who
  down := by rw [h.committing, h.up]; exact hi.down
  idle := by rw [h.inOp]; exact hi.idle
  settled := by rw [h.outstanding, h.lh]; exact hi.settled
  sleepers := by rw [h.asleep, h.up, h.full, h.inOp]; exact hi.sleepers

theorem Same.rely (h : Same s s') : Rely q s g s' g :=
  ⟨by rw [h.inOp], .rfl, fun _ => ⟨h.lh, h.up⟩, fun hu => h.up.trans hu⟩

theorem written_op {h : Hist} {b : Nat} {d : Block} : (h.written La b d).op = h.op := by
  unfold Hist.written
  split <;> rfl

theorem transfer_same {i : Fin NBUF} : Same s (transfer La s i) := by
  unfold transfer
  split
  · exact ⟨written_op, rfl, rfl, rfl, rfl, rfl⟩
  · exact ⟨rfl, rfl, rfl, rfl, rfl, rfl⟩

theorem plain_same {β : Type} {a : Act β} {r : Option β} (ha : a.plain = true)
    (h : sem La p a s = some (r, s')) : Same s s' := by
  have hrfl : ∀ {c : Bio.Bcache}, Same s { s with cache := c } := ⟨rfl, rfl, rfl, rfl, rfl, rfl⟩
  cases a with
  | bget b =>
    simp only [sem] at h
    split at h <;> (obtain ⟨-, rfl⟩ := Prod.mk.inj (Option.some.inj h); exact hrfl)
  | acquiresleep i =>
    simp only [sem] at h
    split at h
    · obtain ⟨-, rfl⟩ := Prod.mk.inj (Option.some.inj h)
      exact hrfl
    · cases h
  | transfer i =>
    obtain ⟨-, rfl⟩ := Prod.mk.inj (Option.some.inj h)
    exact transfer_same
  | lhN | outstanding | append _ | beginOp | endOp | endCommit | setLh _ | ready => cases ha
  | holdingsleep _ | releasesleep _ | put _ | flags _ | setDirty _ | data _ | setData _ _ | lh =>
    obtain ⟨-, rfl⟩ := Prod.mk.inj (Option.some.inj h)
    exact hrfl

theorem plain_logs {β : Type} {a : Act β} (ha : a.plain = true) : a.logs = false := by
  cases a <;> first | rfl | cases ha

theorem unlogged {β : Type} {a : Act β} {P : State → Option Pid → Prop} (ha : a.logs = false) (s : State) (g : Option Pid)
    (_ : (logic La).Inv s g) (_ : P s g) : (logic La).Must p a s g :=
  fun hlogs => absurd (ha.symm.trans hlogs) Bool.false_ne_true

theorem plain_spec {β : Type} {a : Act β} (ha : a.plain = true) (x : Place) :
    (logic La).Triple p (At p x) (lift a) fun _ => At p x := by
  refine Triple.act (unlogged (plain_logs ha)) (at_stable x) (fun s g s' hi _ _ hs => ?_) fun s g b s' hi h _ hs => ?_
  · have hsame := plain_same ha hs
    exact ⟨g, hsame.inv hi, fun q => hsame.rely⟩
  · have hsame := plain_same ha hs
    exact ⟨g, hsame.inv hi, fun q _ => hsame.rely, h.rely hsame.rely⟩

/-- A program that leaves the counters of the log alone. -/
def Plain (x : M α) : Prop := x.All (fun a => a.plain = true) (· ≠ "log.committing")

theorem Plain.spec {x : M α} (hx : Plain x) (y : Place) :
    (logic La).Triple p (At p y) x fun _ => At p y :=
  Triple.all hx fun _ ha => plain_spec ha y

theorem plain_lift {β : Type} {a : Act β} (ha : a.plain = true) : Plain (lift a) := All.lift ha

theorem plain_iderw (i : Fin NBUF) : Plain (iderw i) := by
  refine All.bind (plain_lift rfl) fun held => ?_
  split
  · refine All.bind (plain_lift rfl) fun flags => ?_
    split
    · exact show _ ≠ _ by decide
    · exact plain_lift rfl
  · exact show _ ≠ _ by decide

theorem plain_bread (b : Nat) : Plain (bread b) := by
  refine All.bind (plain_lift rfl) fun found => ?_
  cases found with
  | none => exact show _ ≠ _ by decide
  | some i =>
    refine All.bind (plain_lift rfl) fun _ => All.bind (plain_lift rfl) fun flags => ?_
    split
    · trivial
    · exact All.bind (plain_iderw i) fun _ => trivial

theorem plain_bwrite (i : Fin NBUF) : Plain (bwrite i) := by
  refine All.bind (plain_lift rfl) fun held => ?_
  split
  · exact All.bind (plain_lift rfl) fun _ => plain_iderw i
  · exact show _ ≠ _ by decide

theorem plain_brelse (i : Fin NBUF) : Plain (brelse i) := by
  refine All.bind (plain_lift rfl) fun held => ?_
  split
  · exact All.bind (plain_lift rfl) fun _ => plain_lift rfl
  · exact show _ ≠ _ by decide

theorem plain_memmove (dst src : Fin NBUF) : Plain (memmove dst src) :=
  All.bind (plain_lift rfl) fun _ => plain_lift rfl

theorem plain_writeLogFrom (l : List Nat) (tail : Nat) : Plain (writeLogFrom La tail l) := by
  induction l generalizing tail with
  | nil => trivial
  | cons b bs ih =>
    refine All.bind (plain_bread _) fun dst => All.bind (plain_bread b) fun src => ?_
    refine All.bind (plain_memmove dst src) fun _ => All.bind (plain_bwrite dst) fun _ => ?_
    exact All.bind (plain_brelse src) fun _ => All.bind (plain_brelse dst) fun _ => ih (tail + 1)

theorem plain_installFrom (l : List Nat) (tail : Nat) : Plain (installFrom La tail l) := by
  induction l generalizing tail with
  | nil => trivial
  | cons b bs ih =>
    refine All.bind (plain_bread _) fun lbuf => All.bind (plain_bread b) fun dbuf => ?_
    refine All.bind (plain_memmove dbuf lbuf) fun _ => All.bind (plain_bwrite dbuf) fun _ => ?_
    exact All.bind (plain_brelse lbuf) fun _ => All.bind (plain_brelse dbuf) fun _ => ih (tail + 1)

theorem plain_writeLog : Plain (writeLog La) :=
  All.bind (plain_lift rfl) fun l => plain_writeLogFrom l 0

theorem plain_installTrans : Plain (installTrans La) :=
  All.bind (plain_lift rfl) fun l => plain_installFrom l 0

theorem plain_writeHead : Plain (writeHead La) := by
  refine All.bind (plain_bread _) fun i => All.bind (plain_lift rfl) fun l => ?_
  refine All.bind (plain_lift rfl) fun d => All.bind (plain_lift rfl) fun _ => ?_
  exact All.bind (plain_bwrite i) fun _ => plain_brelse i

/-! ### The sections under `log.lock` -/

theorem Inv.who_none (hi : Inv s g) (h : p ∈ s.inOp) : g = none := by
  by_contra hg
  rw [hi.idle hg] at h
  cases h

theorem Inv.not_committing (hi : Inv s g) (hg : g = none) : s.committing = false := by
  have hw := hi.who
  subst hg
  cases hc : s.committing with
  | false => rfl
  | true => simp [hc] at hw

theorem full_mono (hc : s.committing = true → s'.committing = true)
    (hl : s.lh.length ≤ s'.lh.length) (ho : s.outstanding ≤ s'.outstanding)
    (h : s.full = true) : s'.full = true := by
  simp only [State.full, Bool.or_eq_true, decide_eq_true_eq] at h ⊢
  rcases h with h | h
  · exact .inl (hc h)
  · have hmul := Nat.mul_le_mul_right MAXOPBLOCKS (Nat.succ_le_succ ho)
    exact .inr (lt_of_lt_of_le h (Nat.add_le_add hl hmul))

theorem count_spec {β : Type} {a : Act β} (hread : ∀ s r s', sem La p a s = some (r, s') → s' = s) :
    (logic La).Triple p (At p .inside) (lift a) fun _ => At p .inside :=
  Triple.read (fun _ _ _ h _ => h.1) (at_stable _) hread fun _ _ _ _ h _ => h

theorem append_spec (i : Fin NBUF) :
    (logic La).Triple p (At p .inside) (lift (.append i)) fun _ => At p .inside := by
  refine Triple.once (fun _ _ _ h _ => h.1) (at_stable _) (fun _ _ => answer_ne) fun s g b s' hi h _ hs => ?_
  obtain ⟨-, rfl⟩ := answer_eq hs
  have hg := hi.who_none h.1
  have hlen : s.lh.length ≤ (append p s i).lh.length := by
    simp only [append]
    split <;> simp
  have hin : (append p s i).inOp = s.inOp := rfl
  have hrely : ∀ q, Rely q s g (append p s i) g := fun q =>
    ⟨.rfl, .rfl, fun he => absurd (hg.symm.trans he) (by simp), id⟩
  refine ⟨g, ⟨hi.ops, hi.who, hi.down, hi.idle, fun _ h0 => ?_, fun q hq => ?_⟩,
    fun q _ => hrely q, h.rely (hrely p)⟩
  · have hcard : s.inOp.card = 0 := hi.ops.symm.trans h0
    exact absurd h.1 (by simp [Finset.card_eq_zero.mp hcard])
  · obtain ⟨hup, hfull, hrest⟩ := hi.sleepers q hq
    exact ⟨hup, full_mono (s := s) id hlen le_rfl hfull, hrest⟩

theorem logWrite_spec (i : Fin NBUF) :
    (logic La).Triple p (At p .inside) (logWrite La i) fun _ => At p .inside := by
  have hpanic : ∀ msg : String, msg ≠ "log.committing" →
      (logic La).Triple p (At p .inside) (.panic msg : M Unit) fun _ => At p .inside :=
    fun msg hm => Triple.panic fun _ _ _ _ => hm
  have hlhN : (logic La).Triple p (At p .inside) (lift .lhN) fun _ => At p .inside :=
    count_spec fun s r s' h => (Prod.mk.inj (Option.some.inj h)).2.symm
  refine hlhN.bind fun n => ?_
  split
  · exact hpanic _ (by decide)
  · refine hlhN.bind fun n => ?_
    split
    · exact hpanic _ (by decide)
    · refine Triple.bind (count_spec (a := .outstanding) fun s r s' h =>
        (Prod.mk.inj (Option.some.inj h)).2.symm) fun out => ?_
      split
      · exact hpanic _ (by decide)
      · exact append_spec i

theorem inOp_enterOp : (enterOp p s).inOp = insert p s.inOp := by
  ext q
  by_cases hq : q = p
  · subst hq
    simp [mem_inOp, enterOp]
  · simp [mem_inOp, enterOp, hq]

theorem inOp_leave : (leave p s).inOp = s.inOp.erase p := by
  ext q
  by_cases hq : q = p
  · subst hq
    simp [mem_inOp, leave]
  · simp [mem_inOp, leave, hq]

theorem Inv.sleepOn (hi : Inv s g) (h : At p .out s g) (hfull : s.full = true) :
    Inv (s.sleepOn p) g := by
  refine ⟨hi.ops, hi.who, hi.down, hi.idle, hi.settled, fun q hq => ?_⟩
  by_cases hqp : q = p
  · subst hqp
    exact ⟨h.2.2, hfull, h.1, h.2.1⟩
  · refine hi.sleepers q ?_
    simpa [State.sleepOn, Function.update_of_ne hqp] using hq

theorem Inv.enterOp (hi : Inv s g) (h : At p .out s g) (hfull : s.full = false) :
    g = none ∧ Inv (enterOp p s) g := by
  have hc : s.committing = false := by
    simp only [State.full, Bool.or_eq_false_iff] at hfull
    exact hfull.1
  have hg : g = none := by
    have hw := hi.who
    rw [hc, h.2.2] at hw
    simpa using hw
  refine ⟨hg, ?_, hi.who, hi.down, fun hne => absurd hg hne, fun _ h0 => ?_, fun q hq => ?_⟩
  · rw [inOp_enterOp, Finset.card_insert_of_notMem h.1, ← hi.ops]
    rfl
  · exact absurd h0 (Nat.succ_ne_zero _)
  · rw [(hi.sleepers q hq).2.1] at hfull
    cases hfull

theorem beginOp_spec :
    (logic La).Triple p (At p .out) (lift .beginOp) fun _ => At p .inside := by
  refine Triple.act (unlogged rfl) (at_stable _) (fun s g s' hi h _ hs => ?_) fun s g b s' hi h _ hs => ?_
  · simp only [logic, sem] at hs
    split at hs
    · cases hs
    · split at hs
      · rename_i hfull
        obtain ⟨-, rfl⟩ := Prod.mk.inj (Option.some.inj hs)
        exact ⟨g, hi.sleepOn h hfull, fun q => ⟨.rfl, .rfl, fun _ => ⟨rfl, rfl⟩, id⟩⟩
      · exact absurd hs answer_ne
  · simp only [logic, sem] at hs
    split at hs
    · cases hs
    · split at hs
      · cases hs
      · rename_i hfull
        obtain ⟨-, rfl⟩ := answer_eq hs
        obtain ⟨hg, hi'⟩ := hi.enterOp h (Bool.eq_false_iff.mpr hfull)
        refine ⟨g, hi', fun q hq => ⟨?_, .rfl, fun _ => ⟨rfl, rfl⟩, id⟩, ?_, h.2.2⟩
        · rw [inOp_enterOp, Finset.mem_insert, or_iff_right hq]
        · rw [inOp_enterOp]
          exact Finset.mem_insert_self _ _

/-- Where `end_op` leaves its caller. -/
def Left (p : Pid) : Option Bool → State → Option Pid → Prop
  | none, _, _ => False
  | some false, s, g => At p .out s g
  | some true, s, g => ∃ lh, At p (.owner true lh) s g

theorem Inv.leave_last (hi : Inv s g) (h : At p .inside s g) (hlast : s.outstanding - 1 = 0) :
    Inv (leave p s) (some p) := by
  have hempty : (leave p s).inOp = ∅ := by
    rw [inOp_leave, ← Finset.card_eq_zero, Finset.card_erase_of_mem h.1, ← hi.ops]
    exact hlast
  have hcom : (leave p s).committing = true := by simp [leave, hlast]
  refine ⟨?_, ?_, fun hd => ?_, fun _ => hempty, by simp, fun q hq => ?_⟩
  · rw [hempty]
    exact hlast
  · rw [hcom]
    rfl
  · exact absurd (h.2.symm.trans hd) (by simp)
  · have hq' : s.asleep q = true := by simpa [leave, hlast] using hq
    obtain ⟨hup, -, hout, -⟩ := hi.sleepers q hq'
    refine ⟨hup, by simp [State.full, hcom], by simp [hempty], fun hqp => hout ?_⟩
    rw [← Option.some.inj hqp]
    exact h.1

theorem Inv.leave_more (hi : Inv s g) (h : At p .inside s g) (hmore : s.outstanding - 1 ≠ 0) :
    Inv (leave p s) g := by
  have hg := hi.who_none h.1
  have hcom : (leave p s).committing = s.committing := by simp [leave, hmore]
  refine ⟨?_, ?_, ?_, fun hne => absurd hg hne, fun _ h0 => absurd h0 hmore, fun q hq => ?_⟩
  · rw [inOp_leave, Finset.card_erase_of_mem h.1, ← hi.ops]
    rfl
  · rw [hcom]
    exact hi.who
  · rw [hcom]
    exact hi.down
  · simp [leave, hmore] at hq

theorem endOp_act_spec : (logic La).Triple p (At p .inside) (lift .endOp) (Left p) := by
  refine Triple.once (unlogged rfl) (at_stable _) (fun s s' hs => ?_) fun s g b s' hi h _ hs => ?_
  · simp only [logic, sem] at hs
    split at hs <;> exact absurd hs answer_ne
  have hg := hi.who_none h.1
  have hmem : ∀ q, q ≠ p → (q ∈ (leave p s).inOp ↔ q ∈ s.inOp) := fun q hq => by
    rw [inOp_leave, Finset.mem_erase, and_iff_right hq]
  have hnot : p ∉ (leave p s).inOp := by
    rw [inOp_leave]
    exact Finset.notMem_erase p s.inOp
  simp only [logic, sem, hi.not_committing hg, Bool.false_eq_true, if_false] at hs
  obtain ⟨rfl, rfl⟩ := answer_eq hs
  by_cases hlast : s.outstanding - 1 = 0
  · refine ⟨some p, hi.leave_last h hlast, fun q hq => ⟨hmem q hq, ?_, fun he => ?_, id⟩, ?_⟩
    · simp [hg, Ne.symm hq]
    · exact absurd (hg.symm.trans he) (by simp)
    · rw [decide_eq_true hlast]
      exact ⟨s.lh, rfl, h.2, rfl⟩
  · refine ⟨g, hi.leave_more h hlast, fun q hq => ⟨hmem q hq, .rfl, fun _ => ⟨rfl, rfl⟩, id⟩, ?_⟩
    rw [decide_eq_false hlast]
    exact ⟨hnot, by simp [hg], h.2⟩

theorem lh_spec (up : Bool) (l : List Nat) :
    (logic La).Triple p (At p (.owner up l)) (lift .lh)
      fun r s g => r = l ∧ At p (.owner up l) s g :=
  Triple.read (unlogged rfl) (at_stable _) (fun _ _ _ hs => (Prod.mk.inj (Option.some.inj hs)).2.symm)
    fun _ _ _ _ h hs => ⟨(answer_eq hs).1.trans h.2.2, h⟩

theorem setLh_spec (up : Bool) (l l' : List Nat) :
    (logic La).Triple p (At p (.owner up l)) (lift (.setLh l'))
      fun _ => At p (.owner up l') := by
  refine Triple.once (unlogged rfl) (at_stable _) (fun _ _ => answer_ne) fun s g b s' hi h _ hs => ?_
  obtain ⟨-, rfl⟩ := answer_eq hs
  have hg : g ≠ none := by simp [h.1]
  refine ⟨g, ⟨hi.ops, hi.who, hi.down, hi.idle, fun hn => absurd hn hg, fun q hq => ?_⟩,
    fun q hq => ⟨.rfl, .rfl, fun he => ?_, id⟩, h.1, h.2.1, rfl⟩
  · obtain ⟨hup, -, hout⟩ := hi.sleepers q hq
    -- Past `initlog` only a commit owns the log, and a commit keeps `begin_op` out.
    have hcom : s.committing = true := by
      have hw := hi.who
      rw [h.1, hup] at hw
      simpa using hw.symm
    exact ⟨hup, by simp [State.full, hcom], hout⟩
  · exact absurd (Option.some.inj (h.1.symm.trans he)).symm hq

theorem commit_spec (l : List Nat) :
    (logic La).Triple p (At p (.owner true l)) (commit La)
      fun _ => At p (.owner true []) := by
  refine (lh_spec true l).bind fun r => Triple.given ?_
  rintro rfl
  split
  · rename_i hnil
    subst hnil
    exact Triple.ret fun _ _ _ h => h
  · refine (plain_writeLog.spec _).bind fun _ => (plain_writeHead.spec _).bind fun _ => ?_
    refine (plain_installTrans.spec _).bind fun _ => (setLh_spec true r []).bind fun _ => ?_
    exact plain_writeHead.spec _

theorem endCommit_spec :
    (logic La).Triple p (At p (.owner true [])) (lift .endCommit) fun _ => At p .out := by
  refine Triple.once (unlogged rfl) (at_stable _) (fun _ _ => answer_ne) fun s g b s' hi h _ hs => ?_
  obtain ⟨-, rfl⟩ := answer_eq hs
  have hout : s.inOp = ∅ := hi.idle (by simp [h.1])
  have hup : s.up = true := h.2.1
  refine ⟨none, ⟨hi.ops, by simp [hup], fun _ => rfl, fun hn => absurd rfl hn,
    fun _ _ => h.2.2, fun q hq => by cases hq⟩, fun q hq => ⟨.rfl, ?_, fun he => ?_, id⟩,
    ?_, by simp, hup⟩
  · simp [h.1, Ne.symm hq]
  · exact absurd (Option.some.inj (h.1.symm.trans he)).symm hq
  · exact fun hin => absurd (hout ▸ hin : p ∈ (∅ : Finset Pid)) (by simp)

theorem endOp_spec : (logic La).Triple p (At p .inside) (endOp La) fun _ => At p .out := by
  refine endOp_act_spec.bind fun r => ?_
  cases r with
  | none => exact fun _ _ _ h => h.elim
  | some last =>
    cases last with
    | false => exact Triple.ret fun _ _ _ h => h
    | true => exact Triple.exists fun l => (commit_spec l).bind fun _ => endCommit_spec

theorem opBody_spec (cs : List Cmd) (held : List (Nat × Fin NBUF)) :
    (logic La).Triple p (At p .inside) (opBody La cs held) fun _ => At p .out := by
  have hpanic : (logic La).Triple p (At p .inside) (.panic "block not held" : M Unit)
      fun _ => At p .out := Triple.panic fun _ _ _ _ => show _ ≠ _ by decide
  induction cs generalizing held with
  | nil => exact endOp_spec
  | cons c cs ih =>
    cases c with
    | bread b => exact ((plain_bread b).spec _).bind fun i => ih _
    | modify b f =>
      simp only [opBody]
      split
      · exact hpanic
      · exact ((plain_lift rfl).spec _).bind fun d => ((plain_lift rfl).spec _).bind fun _ => ih _
    | logWrite b =>
      simp only [opBody]
      split
      · exact hpanic
      · exact (logWrite_spec _).bind fun _ => ih _
    | brelse b =>
      simp only [opBody]
      split
      · exact hpanic
      · exact ((plain_brelse _).spec _).bind fun _ => ih _

theorem ready_spec :
    (logic La).Triple p (At p (.owner false [])) (lift .ready) fun _ => At p .out := by
  refine Triple.once (unlogged rfl) (at_stable _) (fun _ _ => answer_ne) fun s g b s' hi h _ hs => ?_
  obtain ⟨-, rfl⟩ := answer_eq hs
  have hout : s.inOp = ∅ := hi.idle (by simp [h.1])
  have hdown : s.up = false := h.2.1
  have hcom := hi.down hdown
  refine ⟨none, ⟨hi.ops, by simp [hcom], fun _ => hcom, fun hn => absurd rfl hn,
    fun _ _ => h.2.2, fun q hq => ?_⟩, fun q hq => ⟨.rfl, ?_, fun he => ?_, fun _ => rfl⟩,
    ?_, by simp, rfl⟩
  · exact absurd ((hi.sleepers q hq).1.symm.trans hdown) (by simp)
  · simp [h.1, Ne.symm hq]
  · exact absurd (Option.some.inj (h.1.symm.trans he)).symm hq
  · exact fun hin => absurd (hout ▸ hin : p ∈ (∅ : Finset Pid)) (by simp)

theorem initlog_spec :
    (logic La).Triple p (At p (.owner false [])) (initlog La) fun _ => At p .out := by
  have hread : (logic La).Triple p (At p (.owner false [])) (readHead La)
      fun _ s g => ∃ l, At p (.owner false l) s g := by
    refine ((plain_bread _).spec _).bind fun i => ((plain_lift rfl).spec _).bind fun d => ?_
    refine (setLh_spec false [] (header d)).bind fun _ => ?_
    exact ((plain_brelse i).spec _).post fun _ _ _ _ h => ⟨_, h⟩
  refine Triple.bind ?_ fun _ => ready_spec
  refine hread.bind fun _ => Triple.exists fun l => ?_
  refine (plain_installTrans.spec _).bind fun _ => (setLh_spec false l []).bind fun _ => ?_
  exact plain_writeHead.spec _

theorem At.idle (h : At p .out s g) : Idle p s g := ⟨h.1, h.2.1⟩

theorem body_spec (j : Job) (hj : may La j s = true) (hi : Inv s g) (h : Idle p s g) :
    (logic La).Safe p (body La j) (fun _ => Idle p) s g := by
  have hup : s.up = true := by
    cases j <;> exact (Bool.and_eq_true_iff.mp hj).1
  have hout : At p .out s g := ⟨h.1, h.2, hup⟩
  cases j with
  | op cs =>
    exact ((beginOp_spec.bind fun _ => opBody_spec cs []).post fun _ _ _ _ => At.idle) s g hi hout
  | read b =>
    refine ((((plain_bread b).spec .out).bind fun i => ?_).post fun _ _ _ _ => At.idle) s g hi hout
    exact (plain_brelse i).spec .out

theorem crash_good (w : World) : Good (logic La) Idle (World.crash La w) := by
  have hin : w.st.reboot.inOp = ∅ := by
    ext q
    simp [mem_inOp, State.reboot]
  have hi : Inv w.st.reboot (some boot) := by
    refine ⟨?_, rfl, fun _ => rfl, fun _ => hin, by simp, fun q hq => by cases hq⟩
    rw [hin]
    rfl
  refine ⟨some boot, hi, fun p => ?_⟩
  by_cases hp : p = boot
  · subst hp
    simp only [World.crash, if_pos]
    exact (initlog_spec.post fun _ _ _ _ => At.idle) _ _ hi ⟨rfl, rfl, rfl⟩
  · simp only [World.crash, if_neg hp]
    exact ⟨by simp [hin], fun he => hp (Option.some.inj he).symm⟩

end Waiters

/-- Power-on over any disk. -/
def PowerOn (La : Area) (w : World) : Prop := ∃ disk, w = powerOn La disk

theorem waiters_good {w : World} (h : Reach (step La) (PowerOn La) Any w) :
    Good (Waiters.logic La) Waiters.Idle w := by
  have hok : Reach (step La) (PowerOn La) (Acts (Waiters.logic La).ok) w :=
    h.mono fun c e _ => Acts.of_forall (fun _ _ _ _ => trivial) c e
  refine Good.of_reach (S := system La) rfl (fun p => Waiters.idle_stable)
    (fun p j s g hi hj hP => Waiters.body_spec j hj hi hP) (fun e w w' _ he => ?_)
    (fun w hw => ?_) hok
  · obtain rfl := Option.some.inj he
    exact Waiters.crash_good w
  · obtain ⟨disk, rfl⟩ := hw
    exact Waiters.crash_good _

/-- A process that is in a system call, and has not panicked in it. -/
def Running : M Unit → Prop
  | .act _ _ => True
  | _ => False

/-- The next step of a process is one of `log_write`. -/
def inLogWrite : M Unit → Bool
  | .act a _ => a.logs
  | _ => false

section Good
variable {w : World} (hi : Waiters.Inv w.st g)
  (hsafe : ∀ p, (Waiters.logic La).Safe p (w.thr p) (fun _ => Waiters.Idle p) w.st g)
include hsafe

theorem running_of_place (h : p ∈ w.st.inOp ∨ g = some p) :
    Running (w.thr p) ∨ panicked (w.thr p) ≠ none := by
  have hp := hsafe p
  cases hthr : w.thr p with
  | ret u =>
    rw [hthr] at hp
    exact h.elim (fun hin => absurd hin hp.1) fun hg => absurd hg hp.2
  | act a k => exact .inl trivial
  | panic msg => exact .inr (Option.some_ne_none msg)

include hi

theorem inOp_of_inLogWrite (h : inLogWrite (w.thr p) = true) : p ∈ w.st.inOp := by
  have hp := hsafe p
  cases hthr : w.thr p with
  | ret u => simp [hthr, inLogWrite] at h
  | panic msg => simp [hthr, inLogWrite] at h
  | act a k =>
    rw [hthr] at hp h
    exact (hp _ _ (Waiters.Rely.refl p w.st g) hi trivial).1 h

/-- Somebody will wake a process that sleeps in `begin_op`. -/
theorem waker_of_asleep (h : w.st.asleep p = true) :
    ∃ q, q ≠ p ∧ (Running (w.thr q) ∨ panicked (w.thr q) ≠ none) ∧
      (w.st.committing = true ∨ q ∈ w.st.inOp) := by
  obtain ⟨hup, hfull, hout, hnot⟩ := hi.sleepers p h
  cases hg : g with
  | some q =>
    have hcom : w.st.committing = true := by
      have hw := hi.who
      rw [hg, hup] at hw
      simpa using hw.symm
    exact ⟨q, fun hqp => hnot (hqp ▸ hg), running_of_place hsafe (.inr hg), .inl hcom⟩
  | none =>
    have hcom := hi.not_committing hg
    have hpos : w.st.outstanding ≠ 0 := by
      intro h0
      simp [State.full, hcom, hi.settled hg h0, h0, LOGSIZE, MAXOPBLOCKS] at hfull
    rw [hi.ops] at hpos
    obtain ⟨q, hq⟩ := Finset.card_ne_zero.mp hpos
    exact ⟨q, fun hqp => hout (hqp ▸ hq), running_of_place hsafe (.inl hq), .inr hq⟩

end Good

/-- In every state between two sections under `log.lock`, once `initlog` has returned. -/
theorem begin_op_waiters {w : World} (h : Reach (step La) (PowerOn La) Any w)
    (hup : w.st.up = true) :
    w.st.outstanding = w.st.inOp.card ∧
    (w.st.committing = true → w.st.outstanding = 0 ∧ ∀ p, inLogWrite (w.thr p) = false) ∧
    (w.st.committing = false → w.st.outstanding = 0 → w.st.lh = []) ∧
    (∀ p, w.st.asleep p = true → w.st.committing = true ∨
      LOGSIZE < w.st.lh.length + (w.st.outstanding + 1) * MAXOPBLOCKS) ∧
    (∀ p, w.st.asleep p = true → ∃ q, q ≠ p ∧
      (Running (w.thr q) ∨ panicked (w.thr q) ≠ none) ∧ (w.st.committing = true ∨ q ∈ w.st.inOp)) ∧
    ∀ p, panicked (w.thr p) ≠ some "log.committing" := by
  obtain ⟨g, hi, hsafe⟩ := waiters_good h
  have hwho : g.isSome = w.st.committing := by
    have hw := hi.who
    simpa [hup] using hw
  refine ⟨hi.ops, fun hc => ?_, fun hc => ?_, fun p hp => ?_, fun p => waker_of_asleep hi hsafe,
    fun p hp => ?_⟩
  · have hempty : w.st.inOp = ∅ := by
      refine hi.idle fun hg => ?_
      simp [hg, hc] at hwho
    refine ⟨?_, fun p => Bool.eq_false_iff.mpr fun hl => ?_⟩
    · rw [hi.ops, hempty]
      rfl
    · have hin := inOp_of_inLogWrite hi hsafe hl
      simp [hempty] at hin
  · refine hi.settled ?_
    rw [hc] at hwho
    simpa using hwho
  · have hfull := (hi.sleepers p hp).2.1
    simpa [State.full] using hfull
  · have hsafe := hsafe p
    cases hthr : w.thr p with
    | ret u => simp [hthr, panicked] at hp
    | act a k => simp [hthr, panicked] at hp
    | panic msg =>
      rw [hthr] at hsafe hp
      exact hsafe (Option.some.inj hp)

/-- Three operations hold the reservation, and a fourth waits. -/
def fourOps : List Event :=
  acts boot 28 ++ [.start 1 (fill [100] 7), .start 2 (fill [200] 8), .start 3 (fill [300] 9),
    .start 4 (fill [400] 10)] ++ acts 1 1 ++ acts 2 1 ++ acts 3 1 ++ acts 4 1

theorem begin_op_waiters_fourOps :
    (runTo mkfsLog fourOps).st.asleep 4 = true ∧
    ∃ q, q ≠ 4 ∧ (Running ((runTo mkfsLog fourOps).thr q) ∨
        panicked ((runTo mkfsLog fourOps).thr q) ≠ none) ∧
      ((runTo mkfsLog fourOps).st.committing = true ∨ q ∈ (runTo mkfsLog fourOps).st.inOp) := by
  have hrun : (Machine.exec (step mkfsLog) (powerOn mkfsLog blank) fourOps).isSome = true ∧
      (runTo mkfsLog fourOps).st.asleep 4 = true ∧ (runTo mkfsLog fourOps).st.up = true := by
    decide +kernel
  obtain ⟨hsome, hasleep, hup⟩ := hrun
  have hreach : Reach (step mkfsLog) (PowerOn mkfsLog) Any (runTo mkfsLog fourOps) :=
    (Reach.start ⟨blank, rfl⟩).exec fourOps (.any _ _) (exec_runTo hsome)
  exact ⟨hasleep, (begin_op_waiters hreach hup).2.2.2.2.1 4 hasleep⟩

end Chameleon.Log
