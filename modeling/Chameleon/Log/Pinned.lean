import Chameleon.Lib.Count
import Chameleon.Log.Waiters

/-! When the buffer cache has a buffer left. A buffer that `bget` may not reuse is referenced or
dirty; a dirty one that nobody references caches a block of the log's header. -/

namespace Chameleon.Log
open Conc Logic Prog Machine Bio

/-- The buffers of blocks outside the log's header that processes have referenced. -/
def State.inUse (s : State) : Nat :=
  (Finset.univ.filter fun i => (s.buf i).refcnt ≠ 0 ∧ (s.buf i).blockno ∉ s.lh).card

/-- After `initlog`, `bget` is called for a block that is not in the cache only while the blocks in
the log's header and the other blocks in use are fewer than the buffers. -/
def Uncrowded (_ : Pid) {β : Type} : Act β → State → Prop
  | .bget b, s => s.up = true → (∀ i, ¬ (s.buf i).caches b) → s.lh.length + s.inUse < NBUF
  | _, _ => True

instance (p : Pid) (β : Type) (a : Act β) (s : State) : Decidable (Uncrowded p a s) :=
  match a with
  | .bget b => inferInstanceAs (Decidable (s.up = true → (∀ i, ¬ (s.buf i).caches b) →
      s.lh.length + s.inUse < NBUF))
  | .acquiresleep _ | .holdingsleep _ | .releasesleep _ | .put _ | .flags _ | .setDirty _
  | .transfer _ | .data _ | .setData _ _ | .lhN | .outstanding | .append _ | .beginOp | .endOp
  | .endCommit | .lh | .setLh _ | .ready => inferInstanceAs (Decidable True)

namespace Pinned

/-- The references each process has taken, the buffers that are between `setDirty` and the
transfer in `bwrite`, and the blocks that may be dirty in the cache otherwise. -/
structure Ghost where
  ref : Pid → Fin NBUF → Nat
  win : Fin NBUF → Bool
  pin : List Nat

/-- What the cache owes to the log and to the references. -/
structure Cached (c : Bcache) (lh : List Nat) (up : Bool) (g : Ghost) : Prop where
  wf : Wf c
  refs : ∀ i, (c.buf i).refcnt = ∑ p, g.ref p i
  held : ∀ i p, (c.buf i).holder = some p → 0 < g.ref p i
  dev : ∀ i, (c.buf i).refcnt ≠ 0 ∨ (c.buf i).dirty = true → (c.buf i).dev = ROOTDEV
  dirty : ∀ i, (c.buf i).dirty = true → (c.buf i).blockno ∈ g.pin ∨ g.win i = true
  win : ∀ i, g.win i = true → (c.buf i).holder ≠ none
  pin : ∀ b ∈ g.pin, b ∈ lh
  down : up = false → g.pin = [] ∧ ∀ q, q ≠ boot → ∀ i, g.ref q i = 0

/-- What a process may rely on: its references keep their buffers, and nobody else writes a
buffer it has locked. -/
structure Keeps (p : Pid) (c : Bcache) (g : Ghost) (c' : Bcache) (g' : Ghost) : Prop where
  ref : ∀ i, g'.ref p i = g.ref p i
  ident : ∀ i, 0 < g.ref p i →
    (c'.buf i).dev = (c.buf i).dev ∧ (c'.buf i).blockno = (c.buf i).blockno
  lock : ∀ i, (c'.buf i).holder = some p ↔ (c.buf i).holder = some p
  win : ∀ i, (c.buf i).holder = some p → g'.win i = g.win i

theorem Keeps.refl (p : Pid) (c : Bcache) (g : Ghost) : Keeps p c g c g :=
  ⟨fun _ => rfl, fun _ _ => ⟨rfl, rfl⟩, fun _ => .rfl, fun _ _ => rfl⟩

theorem Keeps.trans {p : Pid} {c c₁ c₂ : Bcache} {g g₁ g₂ : Ghost} (h : Keeps p c g c₁ g₁)
    (h' : Keeps p c₁ g₁ c₂ g₂) : Keeps p c g c₂ g₂ where
  ref i := (h'.ref i).trans (h.ref i)
  ident i hi := by
    obtain ⟨hdev, hno⟩ := h.ident i hi
    obtain ⟨hdev', hno'⟩ := h'.ident i (h.ref i ▸ hi)
    exact ⟨hdev'.trans hdev, hno'.trans hno⟩
  lock i := (h'.lock i).trans (h.lock i)
  win i hi := (h'.win i ((h.lock i).mpr hi)).trans (h.win i hi)

abbrev Both := Option Pid × Ghost

structure Inv (s : State) (g : Both) : Prop where
  log : Waiters.Inv s g.1
  cached : Cached s.cache s.lh s.up g.2

structure Rely (p : Pid) (s : State) (g : Both) (s' : State) (g' : Both) : Prop where
  log : Waiters.Rely p s g.1 s' g'.1
  cache : Keeps p s.cache g.2 s'.cache g'.2
  pin : g.1 = some p → g'.2.pin = g.2.pin

theorem Rely.refl (p : Pid) (s : State) (g : Both) : Rely p s g s g :=
  ⟨Waiters.Rely.refl p s g.1, Keeps.refl p s.cache g.2, fun _ => rfl⟩

theorem Rely.trans {p : Pid} {s s₁ s₂ : State} {g g₁ g₂ : Both} (h : Rely p s g s₁ g₁)
    (h' : Rely p s₁ g₁ s₂ g₂) : Rely p s g s₂ g₂ :=
  ⟨h.log.trans h'.log, h.cache.trans h'.cache,
    fun hg => (h'.pin (h.log.who.mpr hg)).trans (h.pin hg)⟩

def logic (La : Area) : Logic State Both Pid Act where
  sem := sem La
  ok p _ a s := Uncrowded p a s
  Inv := Inv
  Rely := Rely
  Allowed msg := msg ≠ "bget: no buffers"
  refl := Rely.refl
  trans := Rely.trans

instance {La : Area} : (logic La).Free := ⟨fun _ _ _ _ _ => trivial⟩

/-! ### What a process holds -/

inductive Mode
  | ref
  | lock
  /-- In `bwrite`, after `setDirty`. -/
  | win
  deriving DecidableEq

structure Ent where
  buf : Fin NBUF
  blockno : Nat
  mode : Mode
  deriving DecidableEq

structure Held (p : Pid) (H : List Ent) (c : Bcache) (g : Ghost) : Prop where
  ref : ∀ i, g.ref p i = (H.map Ent.buf).count i
  caches : ∀ e ∈ H, (c.buf e.buf).caches e.blockno
  locked : ∀ e ∈ H, e.mode ≠ .ref →
    (c.buf e.buf).holder = some p ∧ g.win e.buf = decide (e.mode = .win)
  apart : H.Pairwise fun e e' => e.mode ≠ .ref → e'.mode ≠ .ref → e.buf ≠ e'.buf
  locks : ∀ i, (c.buf i).holder = some p → ∃ e ∈ H, e.buf = i ∧ e.mode ≠ .ref

section Held
variable {p q : Pid} {c c' : Bcache} {g g' : Ghost} {e : Ent} {H H' : List Ent}

theorem Held.pos (h : Held p H c g) (he : e ∈ H) : 0 < g.ref p e.buf := by
  rw [h.ref]
  exact List.count_pos_iff.mpr (List.mem_map_of_mem he)

theorem Held.keeps (h : Held p H c g) (hk : Keeps p c g c' g') : Held p H c' g' where
  ref i := (hk.ref i).trans (h.ref i)
  caches e he := by
    obtain ⟨hdev, hno⟩ := hk.ident _ (h.pos he)
    exact ⟨hdev.trans (h.caches e he).1, hno.trans (h.caches e he).2⟩
  locked e he hm := by
    obtain ⟨hl, hw⟩ := h.locked e he hm
    exact ⟨(hk.lock _).mpr hl, (hk.win _ hl).trans hw⟩
  apart := h.apart
  locks i hi := h.locks i ((hk.lock i).mp hi)

theorem Held.perm (h : Held p H c g) (hp : H.Perm H') : Held p H' c g where
  ref i := (h.ref i).trans ((hp.map Ent.buf).count_eq i)
  caches e he := h.caches e (hp.mem_iff.mpr he)
  locked e he := h.locked e (hp.mem_iff.mpr he)
  apart := hp.pairwise h.apart fun hab hb ha => (hab ha hb).symm
  locks i hi := by
    obtain ⟨e, he, hrest⟩ := h.locks i hi
    exact ⟨e, hp.mem_iff.mp he, hrest⟩

/-- The other locks of a process are on other buffers. -/
theorem Held.ne (h : Held p (e :: H) c g) (he : e.mode ≠ .ref) :
    ∀ e' ∈ H, e'.mode ≠ .ref → e'.buf ≠ e.buf := fun e' he' hm =>
  ((List.pairwise_cons.mp h.apart).1 e' he' he hm).symm

end Held

/-- Where a process stands, the buffers it has, and what it knows of the pinned blocks if the log
is its own. -/
structure At (p : Pid) (x : Waiters.Place) (R : Option (List Nat)) (H : List Ent) (s : State)
    (g : Both) : Prop where
  place : Waiters.At p x s g.1
  held : Held p H s.cache g.2
  pin : ∀ l, R = some l → g.1 = some p ∧ ∀ b ∈ g.2.pin, b ∈ l

section Specs
variable {La : Area} {p q : Pid} {s s' : State} {g g' : Both} {α β : Type} {x : Waiters.Place}
  {R : Option (List Nat)} {H H' : List Ent} {i : Fin NBUF} {b : Nat} {m : Mode}

theorem At.rely (hr : Rely p s g s' g') (h : At p x R H s g) : At p x R H s' g' where
  place := h.place.rely hr.log
  held := h.held.keeps hr.cache
  pin l hl := by
    obtain ⟨hg, hsub⟩ := h.pin l hl
    exact ⟨hr.log.who.mpr hg, hr.pin hg ▸ hsub⟩

theorem at_stable : (logic La).Stable p (At p x R H) := fun _ _ _ _ hr _ h => h.rely hr

theorem At.perm (h : At p x R H s g) (hp : H.Perm H') : At p x R H' s g :=
  ⟨h.place, h.held.perm hp, h.pin⟩

/-! ### Actions on one buffer -/

def Ghost.setWin (g : Ghost) (i : Fin NBUF) (w : Bool) : Ghost :=
  { g with win := Function.update g.win i w }

section SetBuf
variable {c : Bcache} {lh : List Nat} {up w : Bool} {g : Ghost} {y : Buf} {e : Ent} {m' : Mode}

theorem Ghost.setWin_self : (g.setWin i w).win i = w := Function.update_self ..

theorem Ghost.setWin_of_ne {j : Fin NBUF} (h : j ≠ i) : (g.setWin i w).win j = g.win j :=
  Function.update_of_ne h ..

/-- A buffer changes, except for the block it caches and its references. -/
structure Change (c : Bcache) (g : Ghost) (i : Fin NBUF) (y : Buf) (w : Bool) : Prop where
  dev : y.dev = (c.buf i).dev
  blockno : y.blockno = (c.buf i).blockno
  refcnt : y.refcnt = (c.buf i).refcnt
  dirty : y.dirty = true → y.dev = ROOTDEV ∧ (y.blockno ∈ g.pin ∨ w = true)
  win : w = true → y.holder ≠ none

theorem Cached.setBuf (h : Cached c lh up g) (hy : Change c g i y w)
    (hheld : ∀ p, y.holder = some p → 0 < g.ref p i) :
    Cached (c.setBuf i y) lh up (g.setWin i w) where
  wf := h.wf.setBuf fun b hb => ⟨hy.dev ▸ hb.1, hy.blockno ▸ hb.2⟩
  refs := Bcache.forall_setBuf (P := fun j x => x.refcnt = ∑ p, g.ref p j) (hy.refcnt.trans (h.refs i))
    fun j _ => h.refs j
  held := Bcache.forall_setBuf (P := fun j x => ∀ p, x.holder = some p → 0 < g.ref p j) hheld
    fun j _ => h.held j
  dev := by
    refine Bcache.forall_setBuf (P := fun _ x => x.refcnt ≠ 0 ∨ x.dirty = true → x.dev = ROOTDEV) ?_
      fun j _ => h.dev j
    rintro (hcnt | hd)
    · rw [hy.dev]
      exact h.dev i (.inl (hy.refcnt ▸ hcnt))
    · exact (hy.dirty hd).1
  dirty := by
    refine Bcache.forall_setBuf (P := fun j x => x.dirty = true →
      x.blockno ∈ g.pin ∨ (g.setWin i w).win j = true) (fun hd => ?_) fun j hj hd => ?_
    · rw [Ghost.setWin_self]
      exact (hy.dirty hd).2
    · rw [Ghost.setWin_of_ne hj]
      exact h.dirty j hd
  win := by
    refine Bcache.forall_setBuf (P := fun j x => (g.setWin i w).win j = true → x.holder ≠ none)
      (fun hw => ?_) fun j hj hw => ?_
    · rw [Ghost.setWin_self] at hw
      exact hy.win hw
    · rw [Ghost.setWin_of_ne hj] at hw
      exact h.win j hw
  pin := h.pin
  down := h.down

theorem Keeps.setBuf (hy : Change c g i y w) (hold : (c.buf i).holder ≠ some q)
    (hnew : y.holder ≠ some q) : Keeps q c g (c.setBuf i y) (g.setWin i w) where
  ref _ := rfl
  ident := Bcache.forall_setBuf (P := fun j x => 0 < g.ref q j →
    x.dev = (c.buf j).dev ∧ x.blockno = (c.buf j).blockno) (fun _ => ⟨hy.dev, hy.blockno⟩)
    fun _ _ _ => ⟨rfl, rfl⟩
  lock := Bcache.forall_setBuf (P := fun j x => x.holder = some q ↔ (c.buf j).holder = some q)
    (iff_of_false hnew hold) fun _ _ => .rfl
  win _ hj := Ghost.setWin_of_ne fun hji => hold (hji ▸ hj)

theorem Held.setBuf (h : Held p (⟨i, b, m⟩ :: H) c g) (hy : Change c g i y w)
    (hm : m' ≠ .ref → y.holder = some p ∧ w = decide (m' = .win))
    (hm' : m' = .ref → y.holder ≠ some p)
    (hne : ∀ e ∈ H, e.mode ≠ .ref → e.buf ≠ i) :
    Held p (⟨i, b, m'⟩ :: H) (c.setBuf i y) (g.setWin i w) where
  ref := h.ref
  caches e he := by
    have hold : ∀ j b', (c.buf j).caches b' → ((c.setBuf i y).buf j).caches b' := fun j b' hj =>
      Bcache.forall_setBuf (P := fun j x => (c.buf j).caches b' → x.caches b')
        (fun hi => ⟨hy.dev.trans hi.1, hy.blockno.trans hi.2⟩) (fun _ _ hk => hk) j hj
    rcases List.mem_cons.mp he with rfl | he
    · exact hold i b (h.caches _ List.mem_cons_self)
    · exact hold _ _ (h.caches e (List.mem_cons_of_mem _ he))
  locked e he hmode := by
    rcases List.mem_cons.mp he with rfl | he
    · rw [c.setBuf_self, Ghost.setWin_self]
      exact hm hmode
    · have hei := hne e he hmode
      rw [c.setBuf_of_ne hei, Ghost.setWin_of_ne hei]
      exact h.locked e (List.mem_cons_of_mem _ he) hmode
  apart := by
    obtain ⟨-, hH⟩ := List.pairwise_cons.mp h.apart
    exact List.pairwise_cons.mpr ⟨fun e he _ hmode => (hne e he hmode).symm, hH⟩
  locks := by
    refine Bcache.forall_setBuf (P := fun j x => x.holder = some p →
      ∃ e ∈ (⟨i, b, m'⟩ : Ent) :: H, e.buf = j ∧ e.mode ≠ .ref) (fun hp => ?_) fun j hj hp => ?_
    · exact ⟨_, List.mem_cons_self, rfl, fun hr => hm' hr hp⟩
    · obtain ⟨e, he, hbuf, hmode⟩ := h.locks j hp
      rcases List.mem_cons.mp he with rfl | he
      · exact absurd hbuf.symm hj
      · exact ⟨e, List.mem_cons_of_mem _ he, hbuf, hmode⟩

end SetBuf

/-- A step of a process on a buffer that no other process has locked. -/
theorem setBuf_step {y : Buf} {w : Bool} (m' : Mode) (hi : Inv s g)
    (hP : At p x R (⟨i, b, m⟩ :: H) s g) (hsame : Waiters.Same s s')
    (hc : s'.cache = s.cache.setBuf i y) (hy : Change s.cache g.2 i y w)
    (hold : ∀ q, q ≠ p → (s.buf i).holder ≠ some q) (hnew : ∀ q, q ≠ p → y.holder ≠ some q)
    (hm : m' ≠ .ref → y.holder = some p ∧ w = decide (m' = .win))
    (hm' : m' = .ref → y.holder ≠ some p) (hne : ∀ e ∈ H, e.mode ≠ .ref → e.buf ≠ i) :
    ∃ g', Inv s' g' ∧ (∀ q, q ≠ p → Rely q s g s' g') ∧ At p x R (⟨i, b, m'⟩ :: H) s' g' := by
  have hpos : 0 < g.2.ref p i := hP.held.pos List.mem_cons_self
  refine ⟨(g.1, g.2.setWin i w), ⟨hsame.inv hi.log, ?_⟩, fun q hq => ⟨hsame.rely, ?_, fun _ => rfl⟩,
    hP.place.rely hsame.rely, ?_, hP.pin⟩
  · rw [hc, hsame.lh, hsame.up]
    refine hi.cached.setBuf hy fun q hq => ?_
    by_cases hqp : q = p
    · exact hqp ▸ hpos
    · exact absurd hq (hnew q hqp)
  · rw [hc]
    exact Keeps.setBuf hy (hold q hq) (hnew q hq)
  · rw [hc]
    exact hP.held.setBuf hy hm hm' hne

/-- A locked buffer is not dirty without a reason. -/
theorem Inv.dirty_of_lock (hi : Inv s g) (hP : At p x R (⟨i, b, .lock⟩ :: H) s g)
    (hd : (s.buf i).dirty = true) : (s.buf i).dev = ROOTDEV ∧ (s.buf i).blockno ∈ g.2.pin := by
  refine ⟨hi.cached.dev i (.inr hd), (hi.cached.dirty i hd).resolve_right fun hw => ?_⟩
  have hwin := (hP.held.locked _ List.mem_cons_self (by simp)).2
  rw [hwin] at hw
  cases hw

theorem acquiresleep_spec :
    (logic La).Triple p (At p x R (⟨i, b, .ref⟩ :: H)) (lift (.acquiresleep i))
      fun _ => At p x R (⟨i, b, .lock⟩ :: H) := by
  refine Triple.once free at_stable (fun s s' hs => ?_) fun s g _ s' hi hP _ hs => ?_
  · simp only [logic, sem] at hs
    split at hs
    · exact answer_ne hs
    · cases hs
  · have hact : sem La p (.acquiresleep i) s = some (some (), s') := hs
    have hsame := Waiters.plain_same rfl hact
    simp only [logic, sem] at hs
    split at hs
    · rename_i hfree
      obtain ⟨-, rfl⟩ := answer_eq hs
      have hwin : g.2.win i ≠ true := fun hw => hi.cached.win i hw hfree
      refine setBuf_step (w := false) .lock hi hP hsame rfl
        ⟨rfl, rfl, rfl, fun hd => ?_, by simp⟩ (fun q _ => by simp [hfree])
        (fun q hq => by simpa using Ne.symm hq) (fun _ => ⟨rfl, rfl⟩) (by simp)
        fun e he hm hei => ?_
      · exact ⟨hi.cached.dev i (.inr hd), .inl ((hi.cached.dirty i hd).resolve_right hwin)⟩
      · have hl := (hP.held.locked e (List.mem_cons_of_mem _ he) hm).1
        rw [hei] at hl
        exact absurd (hfree.symm.trans hl) (by simp)
    · cases hs

/-- The holder of a buffer's lock changes the buffer. -/
theorem locked_spec {a : Act Unit} {f : State → Buf} {w : Bool} {m' : Mode} (hmode : m ≠ .ref)
    (ha : a.plain = true)
    (hsem : ∀ s r s', sem La p a s = some (r, s') → r = some () ∧ s'.cache = s.cache.setBuf i (f s))
    (hy : ∀ s g, Inv s g → At p x R (⟨i, b, m⟩ :: H) s g → Change s.cache g.2 i (f s) w)
    (hm : ∀ s, (m' = .ref ∧ (f s).holder = none) ∨
      (m' ≠ .ref ∧ (f s).holder = (s.buf i).holder ∧ w = decide (m' = .win))) :
    (logic La).Triple p (At p x R (⟨i, b, m⟩ :: H)) (lift a)
      fun _ => At p x R (⟨i, b, m'⟩ :: H) := by
  refine Triple.once free at_stable (fun s s' hs => ?_) fun s g _ s' hi hP _ hs => ?_
  · exact absurd (hsem s _ s' hs).1 (by simp)
  · have hl := (hP.held.locked _ List.mem_cons_self hmode).1
    have hother : ∀ q, q ≠ p → (s.buf i).holder ≠ some q := fun q hq => by
      simpa [hl] using Ne.symm hq
    refine setBuf_step m' hi hP (Waiters.plain_same ha hs) (hsem s _ s' hs).2 (hy s g hi hP) hother
      (fun q hq => ?_) (fun hmode' => ?_) (fun hmode' => ?_) (hP.held.ne hmode)
    · rcases hm s with ⟨-, hn⟩ | ⟨-, hn, -⟩ <;> rw [hn]
      · simp
      · exact hother q hq
    · obtain ⟨-, hn, hw⟩ := (hm s).resolve_left fun h => hmode' h.1
      exact ⟨hn.trans hl, hw⟩
    · rcases hm s with ⟨-, hn⟩ | ⟨hn, -⟩
      · rw [hn]
        simp
      · exact absurd hmode' hn

theorem releasesleep_spec :
    (logic La).Triple p (At p x R (⟨i, b, .lock⟩ :: H)) (lift (.releasesleep i))
      fun _ => At p x R (⟨i, b, .ref⟩ :: H) := by
  refine locked_spec (f := fun s => { s.buf i with holder := none }) (w := false) (by simp) rfl
    (fun s r s' hs => ?_) (fun s g hi hP => ?_) fun _ => .inl ⟨rfl, rfl⟩
  · obtain ⟨rfl, rfl⟩ := Prod.mk.inj (Option.some.inj hs)
    exact ⟨rfl, rfl⟩
  · exact ⟨rfl, rfl, rfl, fun hd => (hi.dirty_of_lock hP hd).imp id .inl, by simp⟩

theorem setDirty_spec :
    (logic La).Triple p (At p x R (⟨i, b, .lock⟩ :: H)) (lift (.setDirty i))
      fun _ => At p x R (⟨i, b, .win⟩ :: H) := by
  refine locked_spec (f := fun s => { s.buf i with dirty := true }) (w := true) (by simp) rfl
    (fun s r s' hs => ?_) (fun s g hi hP => ?_) fun _ => .inr ⟨by simp, rfl, rfl⟩
  · obtain ⟨rfl, rfl⟩ := Prod.mk.inj (Option.some.inj hs)
    exact ⟨rfl, rfl⟩
  · have hl := (hP.held.locked _ List.mem_cons_self (by simp)).1
    have hdev := (hP.held.caches _ List.mem_cons_self).1
    refine ⟨rfl, rfl, rfl, fun _ => ⟨hdev, .inr rfl⟩, fun _ => ?_⟩
    exact ne_of_eq_of_ne hl (by simp)

theorem setData_spec (d : Block) :
    (logic La).Triple p (At p x R (⟨i, b, .lock⟩ :: H)) (lift (.setData i d))
      fun _ => At p x R (⟨i, b, .lock⟩ :: H) := by
  refine locked_spec (f := fun s => { s.buf i with data := d }) (w := false) (by simp) rfl
    (fun s r s' hs => ?_) (fun s g hi hP => ?_) fun _ => .inr ⟨by simp, rfl, rfl⟩
  · obtain ⟨rfl, rfl⟩ := Prod.mk.inj (Option.some.inj hs)
    exact ⟨rfl, rfl⟩
  · exact ⟨rfl, rfl, rfl, fun hd => (hi.dirty_of_lock hP hd).imp id .inl, by simp⟩

theorem transferred_change {w : Bool} {g : Ghost} (hw : w = true → (s.buf i).holder ≠ none) :
    Change s.cache g i (transferred s i) w := ⟨rfl, rfl, rfl, nofun, hw⟩

theorem transfer_spec (hm : m ≠ .ref) :
    (logic La).Triple p (At p x R (⟨i, b, m⟩ :: H)) (lift (.transfer i))
      fun _ => At p x R (⟨i, b, .lock⟩ :: H) := by
  refine locked_spec (f := fun s => transferred s i) (w := false) hm rfl (fun s r s' hs => ?_)
    (fun s g hi hP => transferred_change (by simp))
    fun s => .inr ⟨by simp, rfl, rfl⟩
  obtain ⟨rfl, rfl⟩ := Prod.mk.inj (Option.some.inj hs)
  exact ⟨rfl, transfer_cache La s i⟩

def Ghost.unpin (g : Ghost) (b : Nat) : Ghost := { g with pin := g.pin.filter (· ≠ b) }

/-- A block whose buffer is clean need not count as pinned. -/
theorem Cached.unpin {c : Bcache} {lh : List Nat} {up : Bool} {g : Ghost} (h : Cached c lh up g)
    (hb : (c.buf i).caches b) (hd : (c.buf i).dirty = false) : Cached c lh up (g.unpin b) where
  wf := h.wf
  refs := h.refs
  held := h.held
  dev := h.dev
  dirty j hj := by
    refine (h.dirty j hj).imp_left fun hmem => List.mem_filter.mpr ⟨hmem, decide_eq_true ?_⟩
    rintro rfl
    have hji : j = i := h.wf.uniq ⟨h.dev j (.inr hj), rfl⟩ hb
    rw [hji, hd] at hj
    cases hj
  win := h.win
  pin b' hb' := h.pin b' (List.mem_of_mem_filter hb')
  down hu := by
    obtain ⟨hnil, hrest⟩ := h.down hu
    exact ⟨by simp [Ghost.unpin, hnil], hrest⟩

theorem Keeps.unpin {c c' : Bcache} {g g' : Ghost} (h : Keeps q c g c' g') :
    Keeps q c g c' (g'.unpin b) := ⟨h.ref, h.ident, h.lock, h.win⟩

theorem Held.unpin {c : Bcache} {g : Ghost} (h : Held p H c g) (b : Nat) : Held p H c (g.unpin b) :=
  ⟨h.ref, h.caches, h.locked, h.apart, h.locks⟩

/-- The write of `bwrite`, which unpins the block. -/
theorem transfer_unpin_spec {up : Bool} {lh : List Nat} :
    (logic La).Triple p (At p (.owner up lh) R (⟨i, b, .win⟩ :: H)) (lift (.transfer i))
      fun _ => At p (.owner up lh) (R.map (List.filter (· ≠ b))) (⟨i, b, .lock⟩ :: H) := by
  refine Triple.once free at_stable (fun s s' => answer_ne) fun s g _ s' hi hP _ hs => ?_
  obtain ⟨-, rfl⟩ := answer_eq hs
  have hl := (hP.held.locked _ List.mem_cons_self (by simp)).1
  have hhold : (transferred s i).holder = (s.buf i).holder := rfl
  have hother : ∀ q, q ≠ p → (s.buf i).holder ≠ some q := fun q hq => by
    simpa [hl] using Ne.symm hq
  obtain ⟨g', hi', hrely, hat⟩ := setBuf_step (w := false) .lock hi hP Waiters.transfer_same
    (transfer_cache La s i) (transferred_change (by simp)) hother
    (fun q hq => hhold.symm ▸ hother q hq) (fun _ => ⟨hhold.trans hl, rfl⟩) (by simp)
    (hP.held.ne (by simp))
  have hclean : ((transfer La s i).buf i).dirty = false := by
    rw [State.buf, transfer_cache, Bcache.setBuf_self]
    rfl
  have hcaches := hat.held.caches _ List.mem_cons_self
  refine ⟨(g'.1, g'.2.unpin b), ⟨hi'.log, hi'.cached.unpin hcaches hclean⟩,
    fun q hq => ⟨(hrely q hq).log, (hrely q hq).cache.unpin, fun hg => ?_⟩,
    hat.place, hat.held.unpin b, fun l hl => ?_⟩
  · exact absurd (Option.some.inj (hP.place.1.symm.trans hg)).symm hq
  · obtain ⟨l₀, hl₀, rfl⟩ := Option.map_eq_some_iff.mp hl
    obtain ⟨hg, hsub⟩ := hat.pin l₀ hl₀
    refine ⟨hg, fun b' hb' => ?_⟩
    obtain ⟨hmem, hne⟩ := List.mem_filter.mp hb'
    exact List.mem_filter.mpr ⟨hsub b' hmem, hne⟩

/-- The actions that only read. -/
def reads : {β : Type} → Act β → Bool
  | _, .holdingsleep _ => true
  | _, .flags _ => true
  | _, .data _ => true
  | _, .lhN => true
  | _, .outstanding => true
  | _, _ => false

theorem reads_same {a : Act β} {r : Option β} (ha : reads a = true)
    (hs : sem La p a s = some (r, s')) : s' = s := by
  cases a with
  | holdingsleep _ | flags _ | data _ | lhN | outstanding =>
    exact (Prod.mk.inj (Option.some.inj hs)).2.symm
  | _ => cases ha

theorem read_spec (a : Act β) (ha : reads a = true) :
    (logic La).Triple p (At p x R H) (lift a) fun _ => At p x R H :=
  Triple.read free at_stable (fun _ _ _ => reads_same ha) fun _ _ _ _ h _ => h

/-! ### References -/

section References
variable {c c' : Bcache} {lh : List Nat} {up : Bool} {g : Ghost}

/-- Process `p` has `k` references to buffer `i`. -/
def Ghost.setRef (g : Ghost) (p : Pid) (i : Fin NBUF) (k : Nat) : Ghost :=
  { g with ref := Function.update g.ref p (Function.update (g.ref p) i k) }

theorem Ghost.setRef_self {k : Nat} : (g.setRef p i k).ref p i = k := by simp [Ghost.setRef]

theorem Ghost.setRef_of_ne {k : Nat} {j : Fin NBUF} (h : q ≠ p ∨ j ≠ i) :
    (g.setRef p i k).ref q j = g.ref q j := by
  by_cases hq : q = p
  · subst hq
    simp [Ghost.setRef, h.resolve_left (fun hne => hne rfl)]
  · simp [Ghost.setRef, hq]

theorem Ghost.sum_setRef_self {k : Nat} :
    ∑ q, (g.setRef p i k).ref q i + g.ref p i = ∑ q, g.ref q i + k := by
  simpa [Ghost.setRef] using Count.sum_update g.ref p (Function.update (g.ref p) i k) (· i)

theorem Ghost.sum_setRef_of_ne {k : Nat} {j : Fin NBUF} (hj : j ≠ i) :
    ∑ q, (g.setRef p i k).ref q j = ∑ q, g.ref q j :=
  Finset.sum_congr rfl fun _ _ => Ghost.setRef_of_ne (.inr hj)

/-- Only references change; `hc` says what becomes of the buffers. -/
theorem Cached.setRef {k : Nat} (h : Cached c lh up g) (hwf : Wf c')
    (hc : ∀ j, ∃ n, c'.buf j = { c.buf j with refcnt := n } ∧ n = ∑ q, (g.setRef p i k).ref q j)
    (hheld : (c.buf i).holder = some p → 0 < k) (hdev : k ≠ 0 → (c.buf i).dev = ROOTDEV)
    (hboot : up = false → p = boot) : Cached c' lh up (g.setRef p i k) where
  wf := hwf
  refs j := by
    obtain ⟨n, hj, hn⟩ := hc j
    rw [hj]
    exact hn
  held j q hq := by
    obtain ⟨n, hj, -⟩ := hc j
    rw [hj] at hq
    by_cases hqi : q ≠ p ∨ j ≠ i
    · rw [Ghost.setRef_of_ne hqi]
      exact h.held j q hq
    · push Not at hqi
      obtain ⟨rfl, rfl⟩ := hqi
      rw [Ghost.setRef_self]
      exact hheld hq
  dev j hused := by
    obtain ⟨n, hj, hn⟩ := hc j
    rw [hj] at hused ⊢
    by_cases hji : j = i
    · subst hji
      by_cases hk : k = 0
      · -- the references that are left were there before
        subst hk
        refine h.dev j (hused.imp_left fun hne h0 => hne ?_)
        have hsum := g.sum_setRef_self (p := p) (i := j) (k := 0)
        rw [← h.refs j, h0] at hsum
        exact hn.trans (Nat.eq_zero_of_add_eq_zero_right hsum)
      · exact hdev hk
    · refine h.dev j (hused.imp_left fun hne h0 => hne ?_)
      exact hn.trans ((Ghost.sum_setRef_of_ne hji).trans ((h.refs j).symm.trans h0))
  dirty j hd := by
    obtain ⟨n, hj, -⟩ := hc j
    rw [hj] at hd ⊢
    exact h.dirty j hd
  win j hw := by
    obtain ⟨n, hj, -⟩ := hc j
    rw [hj]
    exact h.win j hw
  pin := h.pin
  down hu := by
    obtain ⟨hnil, hzero⟩ := h.down hu
    refine ⟨hnil, fun q hq j => ?_⟩
    rw [Ghost.setRef_of_ne (.inl (hboot hu ▸ hq))]
    exact hzero q hq j

theorem Keeps.setRef {k : Nat} (hq : q ≠ p)
    (hc : ∀ j, ∃ n, c'.buf j = { c.buf j with refcnt := n }) : Keeps q c g c' (g.setRef p i k) where
  ref j := Ghost.setRef_of_ne (.inl hq)
  ident j _ := by
    obtain ⟨n, hj⟩ := hc j
    rw [hj]
    exact ⟨rfl, rfl⟩
  lock j := by
    obtain ⟨n, hj⟩ := hc j
    rw [hj]
  win _ _ := rfl

/-- The references of a process and its list of buffers change together. -/
theorem Held.setRef {k : Nat} {H₀ : List Ent} (h : Held p H₀ c g)
    (hc : ∀ j, ∃ n, c'.buf j = { c.buf j with refcnt := n })
    (hk : ∀ j, (g.setRef p i k).ref p j = (H.map Ent.buf).count j)
    (hsub : ∀ e ∈ H, e ∈ H₀ ∨ e.mode = .ref ∧ (c.buf e.buf).caches e.blockno)
    (hlock : ∀ e ∈ H₀, e.mode ≠ .ref → e ∈ H)
    (hap : H.Pairwise fun e e' => e.mode ≠ .ref → e'.mode ≠ .ref → e.buf ≠ e'.buf) :
    Held p H c' (g.setRef p i k) where
  ref := hk
  caches e he := by
    obtain ⟨n, hj⟩ := hc e.buf
    rw [hj]
    rcases hsub e he with hold | ⟨-, hb⟩
    · exact h.caches e hold
    · exact hb
  locked e he hm := by
    obtain ⟨n, hj⟩ := hc e.buf
    rw [hj]
    exact h.locked e ((hsub e he).resolve_right fun hr => hm hr.1) hm
  apart := hap
  locks j hp := by
    obtain ⟨n, hj⟩ := hc j
    rw [hj] at hp
    obtain ⟨e, he, hbuf, hm⟩ := h.locks j hp
    exact ⟨e, hlock e he hm, hbuf, hm⟩

end References

theorem put_spec :
    (logic La).Triple p (At p x R (⟨i, b, .ref⟩ :: H)) (lift (.put i)) fun _ => At p x R H := by
  refine Triple.once free at_stable (fun s s' => answer_ne) fun s g _ s' hi hP _ hs => ?_
  have hact : sem La p (.put i) s = some (some (), s') := hs
  have hsame := Waiters.plain_same rfl hact
  obtain ⟨-, rfl⟩ := answer_eq hs
  have href : g.2.ref p i = (H.map Ent.buf).count i + 1 := by
    rw [hP.held.ref, List.map_cons, List.count_cons_self]
  have hc : ∀ j, ∃ n, (Bio.put s.cache i).buf j = { s.cache.buf j with refcnt := n } ∧
      n = ∑ q, (g.2.setRef p i ((H.map Ent.buf).count i)).ref q j := by
    intro j
    rw [put_buf]
    by_cases hji : j = i
    · subst hji
      have hsum := g.2.sum_setRef_self (p := p) (i := j) (k := (H.map Ent.buf).count j)
      rw [href, Nat.add_comm (List.count _ _), ← Nat.add_assoc] at hsum
      refine ⟨(s.cache.buf j).refcnt - 1, Bcache.setBuf_self .., ?_⟩
      rw [hi.cached.refs j, ← Nat.add_right_cancel hsum, Nat.add_sub_cancel]
    · refine ⟨(s.cache.buf j).refcnt, Bcache.setBuf_of_ne _ hji _, ?_⟩
      exact (hi.cached.refs j).trans (Ghost.sum_setRef_of_ne hji).symm
  have hc' := fun j => (hc j).imp fun _ => And.left
  have hcaches := hP.held.caches _ List.mem_cons_self
  obtain ⟨-, hH⟩ := List.pairwise_cons.mp hP.held.apart
  refine ⟨(g.1, g.2.setRef p i ((H.map Ent.buf).count i)), ⟨hsame.inv hi.log, ?_⟩,
    fun q hq => ⟨hsame.rely, Keeps.setRef hq hc', fun _ => rfl⟩,
    hP.place.rely hsame.rely, ?_, hP.pin⟩
  · refine hi.cached.setRef (hi.cached.wf.put i) hc (fun hl => ?_) (fun _ => hcaches.1) fun hu => ?_
    · -- the lock belongs to another entry
      obtain ⟨e, he, hbuf, hm⟩ := hP.held.locks i hl
      rcases List.mem_cons.mp he with rfl | he
      · exact absurd rfl hm
      · exact List.count_pos_iff.mpr (hbuf ▸ List.mem_map_of_mem he)
    · by_contra hboot
      rw [(hi.cached.down hu).2 p hboot i] at href
      cases href
  · refine hP.held.setRef hc' (fun j => ?_) (fun e he => .inl (List.mem_cons_of_mem _ he))
      (fun e he hm => ?_) hH
    · by_cases hji : j = i
      · rw [hji, Ghost.setRef_self]
      · rw [Ghost.setRef_of_ne (.inr hji), hP.held.ref, List.map_cons,
          List.count_cons_of_ne (Ne.symm hji)]
    · rcases List.mem_cons.mp he with rfl | he
      · exact absurd rfl hm
      · exact he

/-! ### `bget` -/

theorem Inv.not_win (hi : Inv s g) (h0 : (s.buf i).refcnt = 0) : g.2.win i = false := by
  by_contra hw
  have hholder := hi.cached.win i (Bool.eq_true_of_not_eq_false hw)
  obtain ⟨q, hq⟩ := Option.ne_none_iff_exists'.mp hholder
  have hpos : 0 < ∑ q, g.2.ref q i :=
    Count.sum_pos (h := fun q => g.2.ref q i) (hi.cached.held i q hq)
  rw [← hi.cached.refs i] at hpos
  exact absurd h0 (Nat.ne_of_gt hpos)

/-- A dirty buffer that nobody references caches a block of the log's header. -/
theorem Inv.mem_lh (hi : Inv s g) (h0 : (s.buf i).refcnt = 0) (hd : (s.buf i).dirty = true) :
    (s.buf i).blockno ∈ s.lh := by
  have hpin := (hi.cached.dirty i hd).resolve_right (by simp [hi.not_win h0])
  exact hi.cached.pin _ hpin

/-- With all buffers referenced or dirty, the log's header and the other blocks in use fill the
cache. -/
theorem Inv.crowded (hi : Inv s g) (hall : ∀ i, ¬ (s.buf i).unused) :
    NBUF ≤ s.lh.length + s.inUse := by
  have hused : ∀ i, (s.buf i).refcnt ≠ 0 ∨ (s.buf i).dirty = true := by
    intro i
    by_contra hno
    push Not at hno
    exact hall i ⟨hno.1, Bool.eq_false_of_not_eq_true hno.2⟩
  have hlogged : (Finset.univ.filter fun i => (s.buf i).blockno ∈ s.lh).card ≤ s.lh.length := by
    refine le_trans ?_ s.lh.toFinset_card_le
    refine Finset.card_le_card_of_injOn (fun i => (s.buf i).blockno) (fun i hmem => ?_) ?_
    · simpa using hmem
    · intro i _ j _ hij
      exact hi.cached.wf.uniq ⟨hi.cached.dev i (hused i), rfl⟩
        ⟨hi.cached.dev j (hused j), hij.symm⟩
  have hcover : (Finset.univ : Finset (Fin NBUF)) ⊆
      (Finset.univ.filter fun i => (s.buf i).blockno ∈ s.lh) ∪
        Finset.univ.filter fun i => (s.buf i).refcnt ≠ 0 ∧ (s.buf i).blockno ∉ s.lh := by
    intro i _
    by_cases hmem : (s.buf i).blockno ∈ s.lh
    · exact Finset.mem_union_left _ (by simpa using hmem)
    · refine Finset.mem_union_right _ (Finset.mem_filter.mpr ⟨Finset.mem_univ i, ?_, hmem⟩)
      intro h0
      exact hmem (hi.mem_lh h0 ((hused i).resolve_left fun hne => hne h0))
  have hcard := (Finset.card_le_card hcover).trans (Finset.card_union_le _ _)
  rw [Finset.card_univ, Fintype.card_fin] at hcard
  exact hcard.trans (Nat.add_le_add_right hlogged _)

/-- Before `initlog` returns there is only the boot process. -/
theorem Inv.unused_of_down (hi : Inv s g) (hu : s.up = false) (h0 : g.2.ref boot i = 0) :
    (s.buf i).unused := by
  obtain ⟨hnil, hzero⟩ := hi.cached.down hu
  have hcnt : (s.buf i).refcnt = 0 := by
    rw [hi.cached.refs i]
    refine Finset.sum_eq_zero fun q _ => ?_
    by_cases hq : q = boot
    · rw [hq, h0]
    · exact hzero q hq i
  refine ⟨hcnt, Bool.eq_false_of_not_eq_true fun hd => ?_⟩
  rcases hi.cached.dirty i hd with hmem | hw
  · rw [hnil] at hmem
    cases hmem
  · rw [hi.not_win hcnt] at hw
    cases hw

/-- The place of a process that may still run before `initlog` returns. -/
def Boots (p : Pid) (x : Waiters.Place) (H : List Ent) : Prop :=
  ∀ lh, x = .owner false lh → p = boot ∧ H.length ≤ 1

theorem At.down (hP : At p x R H s g) (hb : Boots p x H) (hu : s.up = false) :
    p = boot ∧ H.length ≤ 1 := by
  have hplace := hP.place
  cases x with
  | out => exact absurd (hplace.2.2.symm.trans hu) (by simp)
  | inside => exact absurd (hplace.2.symm.trans hu) (by simp)
  | owner up lh =>
    obtain rfl : up = false := hplace.2.1.symm.trans hu
    exact hb lh rfl

theorem Inv.exists_unused (hi : Inv s g) (hP : At p x R H s g) (hb : Boots p x H)
    (hroom : s.up = true → s.lh.length + s.inUse < NBUF) : ∃ i, (s.buf i).unused := by
  cases hu : s.up with
  | true =>
    by_contra hnone
    push Not at hnone
    exact absurd (hroom hu) (Nat.not_lt.mpr (hi.crowded hnone))
  | false =>
    obtain ⟨rfl, hlen⟩ := hP.down hb hu
    obtain ⟨i, hni⟩ : ∃ i : Fin NBUF, i ∉ H.map Ent.buf := by
      by_contra hall
      push Not at hall
      have hsub : (Finset.univ : Finset (Fin NBUF)) ⊆ (H.map Ent.buf).toFinset := fun i _ =>
        List.mem_toFinset.mpr (hall i)
      have hcard := (Finset.card_le_card hsub).trans (List.toFinset_card_le _)
      rw [Finset.card_univ, Fintype.card_fin, List.length_map] at hcard
      exact absurd (hcard.trans hlen) (by decide)
    refine ⟨i, hi.unused_of_down hu ?_⟩
    rw [hP.held.ref]
    exact List.count_eq_zero.mpr hni

theorem Cached.ref_of_unused {c : Bcache} {lh : List Nat} {up : Bool} {g : Ghost}
    (h : Cached c lh up g) (hun : (c.buf i).unused) (q : Pid) : g.ref q i = 0 := by
  have hle := Count.le_sum (fun q => g.ref q i) q
  rw [← h.refs i, hun.1] at hle
  exact Nat.le_zero.mp hle

/-- An unused buffer becomes one of the block. -/
theorem Cached.recycle {c : Bcache} {lh : List Nat} {up : Bool} {g : Ghost} (h : Cached c lh up g)
    (hwf : Wf (c.setBuf i ((c.buf i).recycle b))) (hun : (c.buf i).unused)
    (hboot : up = false → p = boot) :
    Cached (c.setBuf i ((c.buf i).recycle b)) lh up (g.setRef p i 1) where
  wf := hwf
  refs := by
    refine Bcache.forall_setBuf (P := fun j x => x.refcnt = ∑ q, (g.setRef p i 1).ref q j) ?_
      fun j hj => ?_
    · have hsum := g.sum_setRef_self (p := p) (i := i) (k := 1)
      rw [h.ref_of_unused hun p, ← h.refs i, hun.1, Nat.add_zero, Nat.zero_add] at hsum
      exact hsum.symm
    · exact (h.refs j).trans (Ghost.sum_setRef_of_ne hj).symm
  held := by
    refine Bcache.forall_setBuf (P := fun j x => ∀ q, x.holder = some q → 0 < (g.setRef p i 1).ref q j)
      (fun q hq => ?_) fun j hj q hq => ?_
    · have hpos : 0 < g.ref q i := h.held i q hq
      rw [h.ref_of_unused hun q] at hpos
      cases hpos
    · rw [Ghost.setRef_of_ne (.inr hj)]
      exact h.held j q hq
  dev := Bcache.forall_setBuf (P := fun _ x => x.refcnt ≠ 0 ∨ x.dirty = true → x.dev = ROOTDEV)
    (fun _ => rfl) fun j _ => h.dev j
  dirty := Bcache.forall_setBuf (P := fun j x => x.dirty = true → x.blockno ∈ g.pin ∨ g.win j = true)
    (fun hd => by cases hd) fun j _ => h.dirty j
  win := Bcache.forall_setBuf (P := fun j x => g.win j = true → x.holder ≠ none) (h.win i)
    fun j _ => h.win j
  pin := h.pin
  down hu := by
    obtain ⟨hnil, hzero⟩ := h.down hu
    refine ⟨hnil, fun q hq j => ?_⟩
    rw [Ghost.setRef_of_ne (.inl (hboot hu ▸ hq))]
    exact hzero q hq j

theorem Keeps.recycle {c : Bcache} {g : Ghost} (hq : q ≠ p) (h0 : g.ref q i = 0) :
    Keeps q c g (c.setBuf i ((c.buf i).recycle b)) (g.setRef p i 1) where
  ref _ := Ghost.setRef_of_ne (.inl hq)
  ident := Bcache.forall_setBuf (P := fun j x => 0 < g.ref q j →
    x.dev = (c.buf j).dev ∧ x.blockno = (c.buf j).blockno)
    (fun hpos => absurd h0 (Nat.ne_of_gt hpos)) fun _ _ _ => ⟨rfl, rfl⟩
  lock := Bcache.forall_setBuf (P := fun j x => x.holder = some q ↔ (c.buf j).holder = some q) .rfl
    fun _ _ => .rfl
  win _ _ := rfl

theorem Held.count_cons {g : Ghost} {c : Bcache} {k : Nat} (h : Held p H c g)
    (hk : k = g.ref p i + 1) (j : Fin NBUF) :
    (g.setRef p i k).ref p j = (((⟨i, b, .ref⟩ : Ent) :: H).map Ent.buf).count j := by
  by_cases hji : j = i
  · subst hji
    rw [Ghost.setRef_self, List.map_cons, List.count_cons_self, ← h.ref, hk]
  · rw [Ghost.setRef_of_ne (.inr hji), h.ref, List.map_cons, List.count_cons_of_ne (Ne.symm hji)]

theorem Held.recycle {c : Bcache} {g : Ghost} (h : Held p H c g) (h0 : g.ref p i = 0) :
    Held p (⟨i, b, .ref⟩ :: H) (c.setBuf i ((c.buf i).recycle b)) (g.setRef p i 1) := by
  have hne : ∀ e ∈ H, e.buf ≠ i := by
    rintro e he rfl
    exact absurd h0 (Nat.ne_of_gt (h.pos he))
  refine ⟨h.count_cons (by rw [h0]), fun e he => ?_, fun e he hm => ?_, ?_, ?_⟩
  · rcases List.mem_cons.mp he with rfl | he
    · rw [c.setBuf_self]
      exact ⟨rfl, rfl⟩
    · rw [c.setBuf_of_ne (hne e he)]
      exact h.caches e he
  · rcases List.mem_cons.mp he with rfl | he
    · exact absurd rfl hm
    · rw [c.setBuf_of_ne (hne e he)]
      exact h.locked e he hm
  · exact List.pairwise_cons.mpr ⟨fun e _ hm => absurd rfl hm, h.apart⟩
  · refine Bcache.forall_setBuf (P := fun j x => x.holder = some p →
      ∃ e ∈ (⟨i, b, .ref⟩ : Ent) :: H, e.buf = j ∧ e.mode ≠ .ref) (fun hp => ?_) fun j _ hp => ?_
    · obtain ⟨e, he, hrest⟩ := h.locks i hp
      exact ⟨e, List.mem_cons_of_mem _ he, hrest⟩
    · obtain ⟨e, he, hrest⟩ := h.locks j hp
      exact ⟨e, List.mem_cons_of_mem _ he, hrest⟩

theorem Inv.getRef (hi : Inv s g) (hP : At p x R H s g) (hb : Boots p x H)
    (hc : (s.buf i).caches b) (hsame : Waiters.Same s (s.setBuf i (s.buf i).getRef)) :
    ∃ g', Inv (s.setBuf i (s.buf i).getRef) g' ∧
      (∀ q, q ≠ p → Rely q s g (s.setBuf i (s.buf i).getRef) g') ∧
      At p x R (⟨i, b, .ref⟩ :: H) (s.setBuf i (s.buf i).getRef) g' := by
  have hbuf : ∀ j, ∃ n, (s.cache.setBuf i (s.buf i).getRef).buf j =
      { s.cache.buf j with refcnt := n } ∧ n = ∑ q, (g.2.setRef p i (g.2.ref p i + 1)).ref q j := by
    intro j
    by_cases hji : j = i
    · subst hji
      have hsum := g.2.sum_setRef_self (p := p) (i := j) (k := g.2.ref p j + 1)
      rw [← Nat.add_assoc, Nat.add_right_comm] at hsum
      refine ⟨(s.buf j).refcnt + 1, Bcache.setBuf_self .., ?_⟩
      rw [Nat.add_right_cancel hsum, ← hi.cached.refs j]
    · refine ⟨(s.buf j).refcnt, Bcache.setBuf_of_ne _ hji _, ?_⟩
      exact (hi.cached.refs j).trans (Ghost.sum_setRef_of_ne hji).symm
  have hbuf' := fun j => (hbuf j).imp fun _ => And.left
  refine ⟨(g.1, g.2.setRef p i (g.2.ref p i + 1)), ⟨hsame.inv hi.log, ?_⟩,
    fun q hq => ⟨hsame.rely, Keeps.setRef hq hbuf', fun _ => rfl⟩,
    hP.place.rely hsame.rely, ?_, hP.pin⟩
  · refine hi.cached.setRef (hi.cached.wf.setBuf fun _ h => h) hbuf (fun _ => Nat.succ_pos _)
      (fun _ => hc.1) fun hu => (hP.down hb hu).1
  · refine hP.held.setRef hbuf' (hP.held.count_cons rfl) (fun e he => ?_)
      (fun e he _ => List.mem_cons_of_mem _ he) ?_
    · rcases List.mem_cons.mp he with rfl | he
      · exact .inr ⟨rfl, hc⟩
      · exact .inl he
    · exact List.pairwise_cons.mpr ⟨fun e _ hm => absurd rfl hm, hP.held.apart⟩

theorem bget_spec (hb : Boots p x H) :
    (logic La).Triple p (At p x R H) (lift (.bget b)) fun r s g =>
      ∃ i, r = some i ∧ At p x R (⟨i, b, .ref⟩ :: H) s g := by
  refine Triple.once free at_stable (fun s s' hs => ?_) fun s g r s' hi hP hok hs => ?_
  · simp only [logic, sem] at hs
    split at hs <;> exact absurd hs answer_ne
  · have hact : sem La p (.bget b) s = some (some r, s') := hs
    have hsame := Waiters.plain_same rfl hact
    simp only [logic, sem] at hs
    split at hs
    · rename_i i c hget
      obtain ⟨rfl, rfl⟩ := answer_eq hs
      rcases bget_cases hi.cached.wf hget with ⟨hc, rfl⟩ | ⟨hnone, hun, rfl⟩
      · obtain ⟨g', hi', hrely, hat⟩ := hi.getRef hP hb hc hsame
        exact ⟨g', hi', hrely, i, rfl, hat⟩
      · have h0 := hi.cached.ref_of_unused hun
        refine ⟨(g.1, g.2.setRef p i 1), ⟨hsame.inv hi.log, ?_⟩,
          fun q hq => ⟨hsame.rely, Keeps.recycle hq (h0 q), fun _ => rfl⟩, i, rfl,
          hP.place.rely hsame.rely, hP.held.recycle (h0 p), hP.pin⟩
        exact hi.cached.recycle (hi.cached.wf.bget hget) hun fun hu => (hP.down hb hu).1
    · rename_i hget
      -- the cache is not crowded, so a buffer is unused
      exfalso
      obtain ⟨hnone, hall⟩ := bget_eq_none hi.cached.wf hget
      obtain ⟨i, hun⟩ := hi.exists_unused hP hb fun hu => hok hu hnone
      exact hall i hun

/-! ### The sections under `log.lock` -/

theorem Cached.relog {c : Bcache} {lh lh' : List Nat} {up up' : Bool} {g : Ghost}
    (h : Cached c lh up g) (hpin : ∀ b ∈ g.pin, b ∈ lh') (hup : up' = false → up = false) :
    Cached c lh' up' g :=
  { h with pin := hpin, down := fun hu => h.down (hup hu) }

/-- An action that leaves the cache alone does to the log what it does there. -/
theorem log_spec {a : Act β} {Q : β → State → Option Pid → Prop}
    (h : (Waiters.logic La).Triple p (Waiters.At p x) (lift a) Q)
    (hc : ∀ s g r s', Inv s g → At p x R H s g → sem La p a s = some (r, s') →
      s'.cache = s.cache ∧ (∀ b ∈ g.2.pin, b ∈ s'.lh) ∧ (s'.up = false → s.up = false)) :
    (logic La).Triple p (At p x R H) (lift a) fun r s g => Q r s g.1 ∧ Held p H s.cache g.2 := by
  have hstep : ∀ {s g}, Inv s g → At p x R H s g → _ := fun {s g} hi hP =>
    (h s g.1 hi.log hP.place s g.1 (Waiters.Rely.refl p s g.1) hi.log trivial).2
  refine Triple.act free at_stable (fun s g s' hi hP _ hs => ?_) fun s g r s' hi hP _ hs => ?_
  · obtain ⟨hcache, hpin, hup⟩ := hc s g _ s' hi hP hs
    obtain ⟨who, hi', hrely⟩ := (hstep hi hP).1 s' hs
    refine ⟨(who, g.2), ⟨hi', ?_⟩, fun q => ⟨hrely q, ?_, fun _ => rfl⟩⟩
    · rw [hcache]
      exact hi.cached.relog hpin hup
    · rw [hcache]
      exact Keeps.refl q s.cache g.2
  · obtain ⟨hcache, hpin, hup⟩ := hc s g _ s' hi hP hs
    obtain ⟨who, hi', hrely, hQ⟩ := (hstep hi hP).2 r s' hs
    refine ⟨(who, g.2), ⟨hi', ?_⟩, fun q hq => ⟨hrely q hq, ?_, fun _ => rfl⟩, hQ, ?_⟩
    · rw [hcache]
      exact hi.cached.relog hpin hup
    · rw [hcache]
      exact Keeps.refl q s.cache g.2
    · rw [hcache]
      exact hP.held

theorem At.of_place (hp : Waiters.At p x s g.1) (hh : Held p H s.cache g.2) : At p x none H s g :=
  ⟨hp, hh, fun _ hl => by cases hl⟩

theorem beginOp_spec :
    (logic La).Triple p (At p .out R H) (lift .beginOp) fun _ => At p .inside none H := by
  refine (log_spec Waiters.beginOp_spec fun s g r s' hi _ hs => ?_).post
    fun _ _ _ _ h => .of_place h.1 h.2
  simp only [sem] at hs
  split at hs
  · cases hs
  · split at hs <;> obtain ⟨-, rfl⟩ := Prod.mk.inj (Option.some.inj hs) <;>
      exact ⟨rfl, hi.cached.pin, id⟩

theorem endOp_act_spec :
    (logic La).Triple p (At p .inside R H) (lift .endOp)
      fun r s g => Waiters.Left p r s g.1 ∧ Held p H s.cache g.2 := by
  refine log_spec Waiters.endOp_act_spec fun s g r s' hi _ hs => ?_
  simp only [sem] at hs
  split at hs <;> obtain ⟨-, rfl⟩ := Prod.mk.inj (Option.some.inj hs) <;>
    exact ⟨rfl, hi.cached.pin, id⟩

theorem endCommit_spec :
    (logic La).Triple p (At p (.owner true []) R H) (lift .endCommit)
      fun _ => At p .out none H := by
  refine (log_spec Waiters.endCommit_spec fun s g r s' hi _ hs => ?_).post
    fun _ _ _ _ h => .of_place h.1 h.2
  obtain ⟨-, rfl⟩ := Prod.mk.inj (Option.some.inj hs)
  exact ⟨rfl, hi.cached.pin, id⟩

theorem ready_spec :
    (logic La).Triple p (At p (.owner false []) R H) (lift .ready) fun _ => At p .out none H := by
  refine (log_spec Waiters.ready_spec fun s g r s' hi _ hs => ?_).post
    fun _ _ _ _ h => .of_place h.1 h.2
  obtain ⟨-, rfl⟩ := Prod.mk.inj (Option.some.inj hs)
  exact ⟨rfl, hi.cached.pin, fun hu => by cases hu⟩

theorem setLh_spec {up : Bool} {l l' : List Nat}
    (hpin : ∀ s g, Inv s g → At p (.owner up l) R H s g → g.2.pin = []) :
    (logic La).Triple p (At p (.owner up l) R H) (lift (.setLh l'))
      fun _ => At p (.owner up l') none H := by
  refine (log_spec (Waiters.setLh_spec up l l') fun s g r s' hi hP hs => ?_).post
    fun _ _ _ _ h => .of_place h.1 h.2
  obtain ⟨-, rfl⟩ := Prod.mk.inj (Option.some.inj hs)
  refine ⟨rfl, fun b hb => ?_, id⟩
  rw [hpin s g hi hP] at hb
  cases hb

theorem lh_spec {up : Bool} {l : List Nat} :
    (logic La).Triple p (At p (.owner up l) R H) (lift .lh)
      fun r s g => r = l ∧ At p (.owner up l) R H s g :=
  Triple.read free at_stable (fun _ _ _ hs => (Prod.mk.inj (Option.some.inj hs)).2.symm)
    fun _ _ _ _ h hs => ⟨(answer_eq hs).1.trans h.place.2.2, h⟩

def Ghost.addPin (g : Ghost) (b : Nat) : Ghost := { g with pin := b :: g.pin }

theorem Cached.addPin {c : Bcache} {lh lh' : List Nat} {g : Ghost} (h : Cached c lh true g)
    (hsub : ∀ b' ∈ lh, b' ∈ lh') (hb : b ∈ lh') : Cached c lh' true (g.addPin b) where
  wf := h.wf
  refs := h.refs
  held := h.held
  dev := h.dev
  dirty j hj := (h.dirty j hj).imp_left (List.mem_cons_of_mem b)
  win := h.win
  pin b' hb' := by
    rcases List.mem_cons.mp hb' with rfl | hb'
    · exact hb
    · exact hsub b' (h.pin b' hb')
  down hu := by cases hu

theorem Keeps.addPin {c c' : Bcache} {g g' : Ghost} (h : Keeps q c (g.addPin b) c' g') :
    Keeps q c g c' g' := ⟨h.ref, h.ident, h.lock, h.win⟩

theorem Held.addPin {c : Bcache} {g : Ghost} (h : Held p H c g) (b : Nat) :
    Held p H c (g.addPin b) :=
  ⟨h.ref, h.caches, h.locked, h.apart, h.locks⟩

theorem append_lh (p : Pid) (s : State) (i : Fin NBUF) :
    (∀ b ∈ s.lh, b ∈ (append p s i).lh) ∧ (s.buf i).blockno ∈ (append p s i).lh := by
  simp only [append]
  split
  · rename_i hmem
    exact ⟨fun _ hb => hb, hmem⟩
  · exact ⟨fun _ hb => List.mem_append_left _ hb, List.mem_append_right _ List.mem_cons_self⟩

theorem append_spec :
    (logic La).Triple p (At p .inside none (⟨i, b, .lock⟩ :: H)) (lift (.append i))
      fun _ => At p .inside none (⟨i, b, .lock⟩ :: H) := by
  refine Triple.once free at_stable (fun _ _ => answer_ne) fun s g r s' hi hP _ hs => ?_
  have hlog := (Waiters.append_spec i s g.1 hi.log hP.place s g.1 (Waiters.Rely.refl p s g.1) hi.log
    trivial).2.2 r s' hs
  obtain ⟨who, hi', hrely, hplace⟩ := hlog
  obtain ⟨-, rfl⟩ := answer_eq hs
  have hl : (s.buf i).holder = some p := (hP.held.locked _ List.mem_cons_self (by simp)).1
  have hcaches := hP.held.caches _ List.mem_cons_self
  have hother : ∀ q, q ≠ p → (s.buf i).holder ≠ some q := fun q hq => by
    simpa [hl] using Ne.symm hq
  have hnone := hi.log.who_none hP.place.1
  have hchange : Change s.cache (g.2.addPin b) i { s.buf i with dirty := true } false :=
    ⟨rfl, rfl, rfl, fun _ => ⟨hcaches.1, .inl (hcaches.2 ▸ List.mem_cons_self)⟩, by simp⟩
  have hup : s.up = true := hP.place.2
  refine ⟨(who, (g.2.addPin b).setWin i false), ⟨hi', ?_⟩,
    fun q hq => ⟨hrely q hq, ?_, fun he => ?_⟩, .of_place hplace ?_⟩
  · have hcached := hi.cached
    obtain ⟨hsub, hmem⟩ := append_lh p s i
    rw [show (s.buf i).blockno = b from hcaches.2] at hmem
    rw [hup] at hcached
    rw [show (append p s i).up = true from hup]
    refine (hcached.addPin hsub hmem).setBuf hchange fun q hq => ?_
    obtain rfl : p = q := Option.some.inj (hl.symm.trans hq)
    exact hP.held.pos List.mem_cons_self
  · exact (Keeps.setBuf hchange (hother q hq) (hother q hq)).addPin
  · exact absurd (hnone.symm.trans he) (by simp)
  · exact (hP.held.addPin b).setBuf hchange (fun _ => ⟨hl, rfl⟩) (by simp) (hP.held.ne (by simp))

/-! ### The buffer cache's functions -/

theorem allowed {msg : String} {Q : α → State → Both → Prop} {P : State → Both → Prop}
    (h : msg ≠ "bget: no buffers") : (logic La).Triple p P (.panic msg) Q :=
  Triple.panic fun _ _ _ _ => h

/-- `iderw` up to the transfer, which may be one that reads or one that writes. -/
theorem iderw_spec {P : State → Both → Prop} {Q : Unit → State → Both → Prop}
    (hread : ∀ {β : Type} (a : Act β), reads a = true → (logic La).Triple p P (lift a) fun _ => P)
    (htransfer : (logic La).Triple p P (lift (.transfer i)) Q) :
    (logic La).Triple p P (iderw i) Q := by
  refine (hread (.holdingsleep i) rfl).bind fun held => ?_
  split
  · refine (hread (.flags i) rfl).bind fun flags => ?_
    split
    · exact allowed (by decide)
    · exact htransfer
  · exact allowed (by decide)

theorem bread_spec (hb : Boots p x H) :
    (logic La).Triple p (At p x R H) (bread b) fun i => At p x R (⟨i, b, .lock⟩ :: H) := by
  refine (bget_spec hb).bind fun found => Triple.exists fun i => Triple.given ?_
  rintro rfl
  refine acquiresleep_spec.bind fun _ => ?_
  refine (read_spec (.flags i) rfl).bind fun flags => ?_
  split
  · exact Triple.ret fun _ _ _ h => h
  · refine (iderw_spec read_spec (transfer_spec (by simp))).bind fun _ => ?_
    exact Triple.ret fun _ _ _ h => h

theorem bwrite_spec {up : Bool} {l : List Nat} :
    (logic La).Triple p (At p (.owner up l) R (⟨i, b, .lock⟩ :: H)) (bwrite i)
      fun _ => At p (.owner up l) (R.map (List.filter (· ≠ b))) (⟨i, b, .lock⟩ :: H) := by
  refine (read_spec (.holdingsleep i) rfl).bind fun held => ?_
  split
  · exact setDirty_spec.bind fun _ => iderw_spec read_spec transfer_unpin_spec
  · exact allowed (by decide)

theorem brelse_spec :
    (logic La).Triple p (At p x R (⟨i, b, .lock⟩ :: H)) (brelse i) fun _ => At p x R H := by
  refine (read_spec (.holdingsleep i) rfl).bind fun held => ?_
  split
  · exact releasesleep_spec.bind fun _ => put_spec
  · exact allowed (by decide)

theorem memmove_spec (src : Fin NBUF) :
    (logic La).Triple p (At p x R (⟨i, b, .lock⟩ :: H)) (memmove i src)
      fun _ => At p x R (⟨i, b, .lock⟩ :: H) :=
  (read_spec (.data src) rfl).bind fun d => setData_spec d

theorem swap_pre {e e' : Ent} {y : M α} {Q : α → State → Both → Prop}
    (h : (logic La).Triple p (At p x R (e :: e' :: H)) y Q) :
    (logic La).Triple p (At p x R (e' :: e :: H)) y Q :=
  h.pre fun _ _ _ hP => hP.perm (.swap ..)

/-! ### Commit and recovery -/

theorem Boots.owner {up : Bool} {l : List Nat} (hp : up = false → p = boot ∧ H = [])
    (hlen : H'.length ≤ H.length + 1) : Boots p (.owner up l) H' := by
  rintro lh heq
  obtain ⟨hup, -⟩ := Waiters.Place.owner.inj heq
  obtain ⟨hboot, hnil⟩ := hp hup
  refine ⟨hboot, ?_⟩
  rw [hnil] at hlen
  exact hlen

section Owner
variable {up : Bool} {l : List Nat}

theorem writeLogFrom_spec (bs : List Nat) (tail : Nat) :
    (logic La).Triple p (At p (.owner true l) none H) (writeLogFrom La tail bs)
      fun _ => At p (.owner true l) none H := by
  have hup : true = false → p = boot ∧ H = [] := fun h => by cases h
  induction bs generalizing tail with
  | nil => exact Triple.ret fun _ _ _ h => h
  | cons b bs ih =>
    refine (bread_spec (.owner hup (by simp))).bind fun dst => ?_
    refine (bread_spec (.owner hup (by simp))).bind fun src => ?_
    refine swap_pre ((memmove_spec src).bind fun _ => bwrite_spec.bind fun _ => ?_)
    exact swap_pre (brelse_spec.bind fun _ => brelse_spec.bind fun _ => ih (tail + 1))

theorem At.shrink {bs : List Nat} (h : At p x (some ((b :: bs).filter (· ≠ b))) H s g) :
    At p x (some bs) H s g := by
  refine ⟨h.place, h.held, fun l hl => ?_⟩
  obtain ⟨hg, hsub⟩ := h.pin _ rfl
  obtain rfl := Option.some.inj hl
  refine ⟨hg, fun b' hb' => ?_⟩
  obtain ⟨hmem, hne⟩ := List.mem_filter.mp (hsub b' hb')
  exact (List.mem_cons.mp hmem).resolve_left (of_decide_eq_true hne)

theorem installFrom_spec (hp : up = false → p = boot ∧ H = []) (bs : List Nat) (tail : Nat) :
    (logic La).Triple p (At p (.owner up l) (some bs) H) (installFrom La tail bs)
      fun _ => At p (.owner up l) (some []) H := by
  induction bs generalizing tail with
  | nil => exact Triple.ret fun _ _ _ h => h
  | cons b bs ih =>
    refine (bread_spec (.owner hp (by simp))).bind fun lbuf => ?_
    refine (bread_spec (.owner hp (by simp))).bind fun dbuf => ?_
    refine (memmove_spec lbuf).bind fun _ => bwrite_spec.bind fun _ => ?_
    refine swap_pre (brelse_spec.bind fun _ => brelse_spec.bind fun _ => ?_)
    exact (ih (tail + 1)).pre fun _ _ _ h => h.shrink

theorem At.pinned (hi : Inv s g) (h : At p (.owner up l) R H s g) :
    At p (.owner up l) (some l) H s g := by
  refine ⟨h.place, h.held, fun l' hl' => ?_⟩
  obtain rfl := Option.some.inj hl'
  refine ⟨h.place.1, fun b hb => ?_⟩
  rw [← h.place.2.2]
  exact hi.cached.pin b hb

theorem installTrans_spec (hp : up = false → p = boot ∧ H = []) :
    (logic La).Triple p (At p (.owner up l) R H) (installTrans La)
      fun _ => At p (.owner up l) (some []) H := by
  refine lh_spec.bind fun r => Triple.given ?_
  rintro rfl
  exact (installFrom_spec hp r 0).pre fun _ _ hi h => h.pinned hi

theorem writeHead_spec (hp : up = false → p = boot ∧ H = []) :
    (logic La).Triple p (At p (.owner up l) none H) (writeHead La)
      fun _ => At p (.owner up l) none H := by
  refine (bread_spec (.owner hp (by simp))).bind fun i => ?_
  refine lh_spec.bind fun r => Triple.given fun _ => ?_
  refine (read_spec (.data i) rfl).bind fun d => ?_
  exact (setData_spec _).bind fun _ => bwrite_spec.bind fun _ => brelse_spec

theorem At.pin_nil (h : At p x (some []) H s g) : g.2.pin = [] :=
  List.eq_nil_iff_forall_not_mem.mpr fun b hb => by cases (h.pin _ rfl).2 b hb

theorem commit_spec :
    (logic La).Triple p (At p (.owner true l) none H) (commit La)
      fun _ => At p (.owner true []) none H := by
  have hup : true = false → p = boot ∧ H = [] := fun h => by cases h
  refine lh_spec.bind fun r => Triple.given ?_
  rintro rfl
  split
  · rename_i hnil
    subst hnil
    exact Triple.ret fun _ _ _ h => h
  · have hwriteLog : (logic La).Triple p (At p (.owner true r) none H) (writeLog La)
        fun _ => At p (.owner true r) none H :=
      lh_spec.bind fun bs => Triple.given fun _ => writeLogFrom_spec bs 0
    refine hwriteLog.bind fun _ => (writeHead_spec hup).bind fun _ => ?_
    refine (installTrans_spec hup).bind fun _ => ?_
    exact (setLh_spec fun _ _ _ h => h.pin_nil).bind fun _ => writeHead_spec hup

/-- Nothing is pinned before `initlog` returns. -/
theorem pin_nil_of_down (hi : Inv s g) (h : At p (.owner false l) R H s g) : g.2.pin = [] :=
  (hi.cached.down h.place.2.1).1

theorem initlog_spec :
    (logic La).Triple boot (At boot (.owner false []) none []) (initlog La)
      fun _ => At boot .out none [] := by
  have hp : false = false → boot = boot ∧ ([] : List Ent) = [] := fun _ => ⟨rfl, rfl⟩
  have hread : (logic La).Triple boot (At boot (.owner false []) none []) (readHead La)
      fun _ s g => ∃ l, At boot (.owner false l) none [] s g := by
    refine (bread_spec (.owner hp (by simp))).bind fun i => ?_
    refine (read_spec (.data i) rfl).bind fun d => ?_
    refine (setLh_spec fun _ _ hi h => pin_nil_of_down hi h).bind fun _ => ?_
    exact brelse_spec.post fun _ _ _ _ h => ⟨_, h⟩
  refine Triple.bind ?_ fun _ => ready_spec (R := none)
  refine hread.bind fun _ => Triple.exists fun l => (installTrans_spec hp).bind fun _ => ?_
  exact (setLh_spec fun _ _ hi h => pin_nil_of_down hi h).bind fun _ => writeHead_spec hp

end Owner

theorem endOp_spec :
    (logic La).Triple p (At p .inside none H) (endOp La) fun _ => At p .out none H := by
  refine endOp_act_spec.bind fun r => ?_
  cases r with
  | none => exact fun _ _ _ h => h.1.elim
  | some last =>
    cases last with
    | false => exact Triple.ret fun _ _ _ h => .of_place h.1 h.2
    | true =>
      rintro s g hi ⟨⟨l, hplace⟩, hheld⟩
      exact (commit_spec.bind fun _ => endCommit_spec) s g hi (.of_place hplace hheld)

/-! ### Operations -/

theorem logWrite_spec :
    (logic La).Triple p (At p .inside none (⟨i, b, .lock⟩ :: H)) (logWrite La i)
      fun _ => At p .inside none (⟨i, b, .lock⟩ :: H) := by
  refine (read_spec .lhN rfl).bind fun n => ?_
  split
  · exact allowed (by decide)
  · refine (read_spec .lhN rfl).bind fun n => ?_
    split
    · exact allowed (by decide)
    · refine (read_spec .outstanding rfl).bind fun k => ?_
      split
      · exact allowed (by decide)
      · exact append_spec

/-- The buffers an operation holds are its own. -/
def Owns (held : List (Nat × Fin NBUF)) (H : List Ent) : Prop :=
  ∀ e ∈ held, ⟨e.2, e.1, .lock⟩ ∈ H

theorem Owns.locate {held : List (Nat × Fin NBUF)} (h : Owns held H)
    (hb : locate held b = some i) : ⟨i, b, .lock⟩ ∈ H := by
  obtain ⟨e, he, rfl⟩ := Option.map_eq_some_iff.mp hb
  have heq : e.1 = b := by simpa using List.find?_some he
  exact heq ▸ h e (List.mem_of_find?_eq_some he)

/-- A step on one of the buffers that the process holds. -/
theorem on_spec {e : Ent} {y : M α} (he : e ∈ H)
    (h : (logic La).Triple p (At p x R (e :: H.erase e)) y fun _ => At p x R (e :: H.erase e)) :
    (logic La).Triple p (At p x R H) y fun _ => At p x R H :=
  (h.pre fun _ _ _ hP => hP.perm (List.perm_cons_erase he)).post
    fun _ _ _ _ hP => hP.perm (List.perm_cons_erase he).symm

theorem opBody_spec (cs : List Cmd) (held : List (Nat × Fin NBUF)) (H : List Ent)
    (hown : Owns held H) :
    (logic La).Triple p (At p .inside none H) (opBody La cs held)
      fun _ s g => ∃ H, At p .out none H s g := by
  induction cs generalizing held H with
  | nil => exact endOp_spec.post fun _ _ _ _ h => ⟨H, h⟩
  | cons c cs ih =>
    cases c with
    | bread b =>
      refine (bread_spec fun _ h => by cases h).bind fun i => ih _ _ fun e he => ?_
      rcases List.mem_cons.mp he with rfl | he
      · exact List.mem_cons_self
      · exact List.mem_cons_of_mem _ (hown e he)
    | modify b f =>
      simp only [opBody]
      split
      · exact allowed (by decide)
      · rename_i i hi
        refine (read_spec (.data i) rfl).bind fun d => ?_
        exact (on_spec (hown.locate hi) (setData_spec _)).bind fun _ => ih held H hown
    | logWrite b =>
      simp only [opBody]
      split
      · exact allowed (by decide)
      · rename_i i hi
        exact (on_spec (hown.locate hi) logWrite_spec).bind fun _ => ih held H hown
    | brelse b =>
      simp only [opBody]
      split
      · exact allowed (by decide)
      · rename_i i hi
        refine (brelse_spec.pre fun _ _ _ hP =>
          hP.perm (List.perm_cons_erase (hown.locate hi))).bind fun _ => ih _ _ fun e he => ?_
        obtain ⟨hmem, hne⟩ := List.mem_filter.mp he
        refine (List.mem_erase_of_ne fun heq => ?_).mpr (hown e hmem)
        exact of_decide_eq_true hne (congrArg Ent.blockno heq)

def Idle (p : Pid) (s : State) (g : Both) : Prop :=
  Waiters.Idle p s g.1 ∧ ∃ H, Held p H s.cache g.2

theorem At.idle (h : At p .out R H s g) : Idle p s g := ⟨Waiters.At.idle h.place, H, h.held⟩

theorem idle_stable : (logic La).Stable p (Idle p) := fun _ _ _ _ hr _ h =>
  ⟨⟨fun hin => h.1.1 (hr.log.op.mp hin), fun hg => h.1.2 (hr.log.who.mp hg)⟩,
    h.2.imp fun _ hh => hh.keeps hr.cache⟩

theorem body_spec (j : Job) (hj : may La j s = true) (hi : Inv s g) (h : Idle p s g) :
    (logic La).Safe p (body La j) (fun _ => Idle p) s g := by
  have hup : s.up = true := by
    cases j <;> exact (Bool.and_eq_true_iff.mp hj).1
  obtain ⟨⟨hout, hnot⟩, H, hheld⟩ := h
  have hat : At p .out none H s g := .of_place ⟨hout, hnot, hup⟩ hheld
  cases j with
  | op cs =>
    refine ((beginOp_spec.bind fun _ => opBody_spec cs [] H fun e he => by cases he).post
      fun _ _ _ _ h => ?_) s g hi hat
    obtain ⟨H', h⟩ := h
    exact h.idle
  | read b =>
    refine ((bread_spec (fun _ h => by cases h)).bind fun i => ?_) s g hi hat
    exact brelse_spec.post fun _ _ _ _ h => h.idle

end Specs

def Ghost.none : Ghost := ⟨fun _ _ => 0, fun _ => false, []⟩

theorem held_none (p : Pid) : Held p [] binit Ghost.none where
  ref _ := rfl
  caches _ he := by cases he
  locked _ he := by cases he
  apart := .nil
  locks _ hp := by cases hp

theorem cached_none : Cached binit [] false Ghost.none where
  wf := wf_binit
  refs _ := by simp [binit, Buf.zero, Ghost.none]
  held _ _ hp := by cases hp
  dev _ hu := by
    rcases hu with hcnt | hd
    · exact absurd rfl hcnt
    · cases hd
  dirty _ hd := by cases hd
  win _ hw := by cases hw
  pin _ hb := by cases hb
  down _ := ⟨rfl, fun _ _ _ => rfl⟩

theorem crash_good {La : Area} (w : World) : Good (logic La) Idle (World.crash La w) := by
  have hin : w.st.reboot.inOp = ∅ := by
    ext q
    simp [mem_inOp, State.reboot]
  have hi : Inv w.st.reboot (some boot, Ghost.none) := by
    refine ⟨⟨?_, rfl, fun _ => rfl, fun _ => hin, by simp, fun q hq => by cases hq⟩, cached_none⟩
    rw [hin]
    rfl
  refine ⟨_, hi, fun p => ?_⟩
  by_cases hp : p = boot
  · subst hp
    simp only [World.crash, if_pos]
    refine (initlog_spec.post fun _ _ _ _ h => h.idle) _ _ hi (.of_place ⟨rfl, rfl, rfl⟩ ?_)
    exact held_none boot
  · simp only [World.crash, if_neg hp]
    exact ⟨⟨by simp [hin], fun he => hp (Option.some.inj he).symm⟩, [], held_none p⟩

end Pinned

/-- With room in the cache at each miss of `bget`, the cache never runs dry. -/
theorem bget_never_dry {La : Area} {w : World}
    (h : Reach (step La) (PowerOn La) (Acts fun p {_} a s => Uncrowded p a s) w) (p : Pid) :
    panicked (w.thr p) ≠ some "bget: no buffers" := by
  have hgood : Good (Pinned.logic La) Pinned.Idle w := by
    refine Good.of_reach (S := system La) rfl (fun p => Pinned.idle_stable)
      (fun p j s g hi hj hP => Pinned.body_spec j hj hi hP) (fun e w w' _ he => ?_)
      (fun w hw => ?_) h
    · obtain rfl := Option.some.inj he
      exact Pinned.crash_good w
    · obtain ⟨disk, rfl⟩ := hw
      exact Pinned.crash_good _
  obtain ⟨g, -, hsafe⟩ := hgood
  intro hp
  have hsafe := hsafe p
  cases hthr : w.thr p with
  | ret u => simp [hthr, panicked] at hp
  | act a k => simp [hthr, panicked] at hp
  | panic msg =>
    rw [hthr] at hsafe hp
    exact hsafe (Option.some.inj hp)

def Cmd.logs : Cmd → Option Nat
  | .logWrite b => some b
  | _ => none

/-- Operations log at most `MAXOPBLOCKS` different blocks each. -/
def Modest (_ : World) : Event → Prop
  | .start _ (.op cs) => (cs.filterMap Cmd.logs).dedup.length ≤ MAXOPBLOCKS
  | _ => True

instance (w : World) (e : Event) : Decidable (Modest w e) := by
  unfold Modest
  split <;> infer_instance

/-- `n` processes read a block each and wait for the disk. -/
def readers (n : Nat) : List Event :=
  acts boot 28 ++ (((List.finRange NPROC).drop 1).take n).flatMap fun p =>
    [.start p (.read (100 + p)), .run p]

theorem bget_never_dry_readers :
    (runTo mkfsLog (readers 30)).st.inUse = NBUF ∧
      panicked ((runTo mkfsLog (readers 30)).thr 30) ≠ some "bget: no buffers" := by
  have hrun : (exec (guarded (step mkfsLog) (Acts fun p {_} a s => Uncrowded p a s))
      (powerOn mkfsLog blank) (readers 30)).any (fun w => w.st.inUse == NBUF) = true := by
    decide +kernel
  have hstart : PowerOn mkfsLog (powerOn mkfsLog blank) := ⟨blank, rfl⟩
  obtain ⟨hreach, huse⟩ := reach_guarded hstart hrun
  exact ⟨beq_iff_eq.mp huse, bget_never_dry hreach 30⟩

theorem bget_dry_readers :
    ¬ ∀ w, Reach (step mkfsLog) (Init mkfsLog blank) Modest w →
      ∀ p, panicked (w.thr p) ≠ some "bget: no buffers" := by
  intro h
  have hrun : (exec (guarded (step mkfsLog) Modest) (powerOn mkfsLog blank) (readers 31)).any
      (fun w => panicked (w.thr 31) == some "bget: no buffers") = true := by decide +kernel
  have hstart : Init mkfsLog blank (powerOn mkfsLog blank) := ⟨rfl, rfl⟩
  obtain ⟨hreach, hdry⟩ := reach_guarded hstart hrun
  exact h _ hreach 31 (beq_iff_eq.mp hdry)

end Chameleon.Log
