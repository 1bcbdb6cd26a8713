import Chameleon.Log.Invariant

/-! What the buffer cache gives a process: `bread` returns the contents the log decides, and a
buffer stays with the process that holds it until `brelse`. -/

namespace Chameleon.Log
open Conc Conc.Logic Bio
variable {La : Area} {d₀ : Nat → Block} {V : Prop} {p q : Pid} {s : State} {g : Ghost}

/-- A buffer a process holds with its contents loaded; `change` is what it wrote to it and has
not logged or written to disk. -/
structure Entry where
  buf : Fin NBUF
  blockno : Nat
  change : Option Block

/-- A buffer a process has only a reference to, or has locked but not loaded. -/
structure Wait where
  buf : Fin NBUF
  blockno : Nat
  locked : Bool

structure Entry.Ok (p : Pid) (e : Entry) (s : State) (g : Ghost) : Prop where
  holder : (s.buf e.buf).holder = some p
  caches : (s.buf e.buf).caches e.blockno
  valid : (s.buf e.buf).valid = true
  mod : g.mod e.buf = e.change.isSome
  data : ∀ d, e.change = some d → (s.buf e.buf).data = d

structure Wait.Ok (p : Pid) (w : Wait) (s : State) (g : Ghost) : Prop where
  caches : (s.buf w.buf).caches w.blockno
  locked : w.locked = true → (s.buf w.buf).holder = some p ∧ g.mod w.buf = false

/-- All the buffers of a process. -/
structure Held (p : Pid) (W : List Wait) (H : List Entry) (s : State) (g : Ghost) : Prop where
  ref : ∀ i, g.ref p i = (W.map Wait.buf ++ H.map Entry.buf).count i
  wait : ∀ w ∈ W, w.Ok p s g
  entry : ∀ e ∈ H, e.Ok p s g
  locks : ∀ i, (s.buf i).holder = some p →
    i ∈ (W.filter Wait.locked).map Wait.buf ++ H.map Entry.buf

/-- What else a process knows: the operation it is in, and the log if it is committing. -/
structure Rest where
  op : Option Nat
  com : Option Com

def rest (p : Pid) (s : State) (g : Ghost) : Rest where
  op := s.hist.op p
  com := if g.who = some p then some (com s g) else none

def At (p : Pid) (W : List Wait) (H : List Entry) (R : Rest → Prop) (s : State) (g : Ghost) :
    Prop := Held p W H s g ∧ R (rest p s g)

theorem Held.ref_of_wait {W : List Wait} {H : List Entry} (h : Held p W H s g) {w : Wait}
    (hw : w ∈ W) : 0 < g.ref p w.buf := by
  rw [h.ref]
  exact List.count_pos_iff.mpr (List.mem_append_left _ (List.mem_map_of_mem hw))

theorem Held.ref_of_entry {W : List Wait} {H : List Entry} (h : Held p W H s g) {e : Entry}
    (he : e ∈ H) : 0 < g.ref p e.buf := by
  rw [h.ref]
  exact List.count_pos_iff.mpr (List.mem_append_right _ (List.mem_map_of_mem he))

theorem Rely.caches {s' : State} {g' : Ghost} (hr : Rely p s g s' g') {i : Fin NBUF}
    (hi : 0 < g.ref p i) {b : Nat} (h : (s.buf i).caches b) : (s'.buf i).caches b := by
  obtain ⟨hdev, hno⟩ := hr.ident i hi
  exact ⟨hdev.trans h.1, hno.trans h.2⟩

theorem Rely.rest {s' : State} {g' : Ghost} (hr : Rely p s g s' g') : rest p s' g' = rest p s g := by
  by_cases hw : g.who = some p
  · simp only [Log.rest, hr.op, if_pos hw, if_pos (hr.who.mpr hw), hr.com hw]
  · simp only [Log.rest, hr.op, if_neg hw, if_neg fun h => hw (hr.who.mp h)]

theorem Entry.Ok.rely {e : Entry} {s' : State} {g' : Ghost} (h : e.Ok p s g)
    (hr : Rely p s g s' g') (hpos : 0 < g.ref p e.buf) : e.Ok p s' g' := by
  obtain ⟨hv, _, hd, hm⟩ := hr.locked _ h.holder
  exact ⟨(hr.lock _).mpr h.holder, hr.caches hpos h.caches, hv.trans h.valid, hm.trans h.mod,
    fun d hc => hd.trans (h.data d hc)⟩

theorem Wait.Ok.rely {w : Wait} {s' : State} {g' : Ghost} (h : w.Ok p s g)
    (hr : Rely p s g s' g') (hpos : 0 < g.ref p w.buf) : w.Ok p s' g' := by
  refine ⟨hr.caches hpos h.caches, fun hl => ?_⟩
  obtain ⟨hh, hm⟩ := h.locked hl
  exact ⟨(hr.lock _).mpr hh, (hr.locked _ hh).2.2.2.trans hm⟩

theorem Held.rely {W : List Wait} {H : List Entry} {s' : State} {g' : Ghost}
    (h : Held p W H s g) (hr : Rely p s g s' g') : Held p W H s' g' where
  ref i := (hr.ref i).trans (h.ref i)
  wait w hw := (h.wait w hw).rely hr (h.ref_of_wait hw)
  entry e he := (h.entry e he).rely hr (h.ref_of_entry he)
  locks i hi := h.locks i ((hr.lock i).mp hi)

/-- What a process holds is a matter of the cache alone. -/
theorem Held.of_cache {W : List Wait} {H : List Entry} {s' : State} {g' : Ghost}
    (h : Held p W H s g) (hc : s'.cache = s.cache) (hr : g'.ref = g.ref) (hm : g'.mod = g.mod) :
    Held p W H s' g' := by
  refine ⟨fun i => ?_, fun w hw => ?_, fun e he => ?_, fun i hi => ?_⟩
  · rw [hr]
    exact h.ref i
  · obtain ⟨hca, hl⟩ := h.wait w hw
    exact ⟨by rw [State.buf, hc]; exact hca, by rw [State.buf, hc, hm]; exact hl⟩
  · obtain ⟨h₁, h₂, h₃, h₄, h₅⟩ := h.entry e he
    refine ⟨?_, ?_, ?_, by rw [hm]; exact h₄, ?_⟩ <;> rw [State.buf, hc]
    · exact h₁
    · exact h₂
    · exact h₃
    · exact h₅
  · rw [State.buf, hc] at hi
    exact h.locks i hi

theorem at_stable (W : List Wait) (H : List Entry) (R : Rest → Prop) :
    (logic La d₀ V).Stable p (At p W H R) :=
  fun _ _ _ _ hr _ h => ⟨h.1.rely hr, hr.rest ▸ h.2⟩

/-- Two buffers of a process that cache different blocks are different. -/
theorem ne_of_caches {i j : Fin NBUF} {b b' : Nat} (hi : (s.buf i).caches b)
    (hj : (s.buf j).caches b') (hb : b ≠ b') : i ≠ j := by
  rintro rfl
  exact hb (hi.2.symm.trans hj.2)

section SetBuf

def Ghost.setMod (g : Ghost) (i : Fin NBUF) (m : Bool) : Ghost :=
  { g with mod := Function.update g.mod i m }

@[simp] theorem Ghost.setMod_self (g : Ghost) (i : Fin NBUF) (m : Bool) :
    (g.setMod i m).mod i = m := Function.update_self ..

theorem Ghost.setMod_of_ne (g : Ghost) {i j : Fin NBUF} (h : j ≠ i) (m : Bool) :
    (g.setMod i m).mod j = g.mod j := Function.update_of_ne h ..

@[simp] theorem State.setBuf_self (s : State) (i : Fin NBUF) (x : Buf) :
    (s.setBuf i x).buf i = x := Bcache.setBuf_self ..

theorem State.setBuf_of_ne (s : State) {i j : Fin NBUF} (h : j ≠ i) (x : Buf) :
    (s.setBuf i x).buf j = s.buf j := Bcache.setBuf_of_ne _ h _

theorem State.setBuf_locks {s : State} {i : Fin NBUF} {x : Buf} {l : List (Fin NBUF)}
    (hi : x.holder = some p → i ∈ l) (h : ∀ j, j ≠ i → (s.buf j).holder = some p → j ∈ l) :
    ∀ j, ((s.setBuf i x).buf j).holder = some p → j ∈ l := by
  intro j hj
  by_cases hji : j = i
  · subst hji
    exact hi (by simpa using hj)
  · exact h j hji (by rwa [s.setBuf_of_ne hji] at hj)

theorem com_setBuf (s : State) (g : Ghost) (i : Fin NBUF) (x : Buf) (m : Bool) :
    com (s.setBuf i x) (g.setMod i m) = com s g := rfl

/-- What the invariant says of a buffer by itself. -/
structure Sound (x : Buf) (ref : Pid → Nat) (mod : Bool) : Prop where
  refs : x.refcnt = ∑ p, ref p
  held : ∀ p, x.holder = some p → 0 < ref p
  dirtyValid : x.dirty = true → x.valid = true
  dev : x.valid = true → x.dev = ROOTDEV
  modHeld : mod = true → x.holder ≠ none

theorem Inv.sound (h : Inv La d₀ s g) (i : Fin NBUF) : Sound (s.buf i) (g.ref · i) (g.mod i) :=
  ⟨h.refs i, fun _ => h.held, h.dirtyValid, h.dev, h.modHeld⟩

theorem Inv.sound_setBuf (h : Inv La d₀ s g) {i : Fin NBUF} {x : Buf} {m : Bool} (hx : Sound x (g.ref · i) m)
    (j : Fin NBUF) : Sound ((s.cache.setBuf i x).buf j) (g.ref · j) ((g.setMod i m).mod j) := by
  refine Bcache.forall_setBuf (P := fun j x => Sound x (g.ref · j) ((g.setMod i m).mod j)) ?_ (fun j hj => ?_) j
  · rw [Ghost.setMod_self]
    exact hx
  · rw [g.setMod_of_ne hj]
    exact h.sound j

/-- Only the cache changes, and what is dirty stays so. -/
theorem Inv.setCache (h : Inv La d₀ s g) {c : Bcache} {r : Pid → Fin NBUF → Nat} {m : Fin NBUF → Bool} (hwf : Bio.Wf c)
    (hok : ∀ j, Sound (c.buf j) (r · j) (m j))
    (hclean : ∀ j b, (c.buf j).valid = true → (c.buf j).caches b → m j = false →
      (c.buf j).data = (com s g).look La d₀ b)
    (hpins : ∀ j b, (s.buf j).caches b → (s.buf j).dirty = true → (c.buf j).caches b ∧ (c.buf j).dirty = true) :
    Inv La d₀ { s with cache := c } { g with ref := r, mod := m } :=
  { h with
    cache := hwf
    refs := fun j => (hok j).refs
    held := fun {j q} => (hok j).held q
    dirtyValid := fun {j} => (hok j).dirtyValid
    dev := fun {j} => (hok j).dev
    modHeld := fun {j} => (hok j).modHeld
    clean := fun {j b} => hclean j b
    pins := fun hu b hb => (h.pins hu b hb).imp fun j hj => hpins j b hj.1 hj.2 }

/-- One buffer changes, except for the block it caches and its reference count. -/
theorem Inv.setBuf (h : Inv La d₀ s g) {i : Fin NBUF} {x : Buf} {m : Bool}
    (hid : ∀ b, x.caches b ↔ (s.buf i).caches b) (hcnt : x.refcnt = (s.buf i).refcnt)
    (hheld : ∀ p, x.holder = some p → 0 < g.ref p i)
    (hdv : x.dirty = true → x.valid = true) (hdev : x.valid = true → x.dev = ROOTDEV)
    (hmod : m = true → x.holder ≠ none)
    (hclean : x.valid = true → ∀ b, x.caches b → m = false → x.data = (com s g).look La d₀ b)
    (hpin : (s.buf i).dirty = true → x.dirty = true) :
    Inv La d₀ (s.setBuf i x) (g.setMod i m) := by
  refine h.setCache (h.cache.setBuf fun b => (hid b).mp)
    (h.sound_setBuf ⟨hcnt.trans (h.refs i), hheld, hdv, hdev, hmod⟩) ?_ ?_
  · refine Bcache.forall_setBuf (P := fun j y => ∀ b, y.valid = true → y.caches b → (g.setMod i m).mod j = false →
      y.data = (com s g).look La d₀ b) (fun b hv hc hm => ?_) fun j hj b hv hc hm => ?_
    · rw [Ghost.setMod_self] at hm
      exact hclean hv b hc hm
    · rw [g.setMod_of_ne hj] at hm
      exact h.clean hv hc hm
  · exact Bcache.forall_setBuf (P := fun j y => ∀ b, (s.buf j).caches b → (s.buf j).dirty = true →
      y.caches b ∧ y.dirty = true) (fun b hc hd => ⟨(hid b).mpr hc, hpin hd⟩) fun j _ b hc hd => ⟨hc, hd⟩

/-- The other processes do not notice a change of a buffer that none of them has locked. -/
theorem Rely.setBuf {i : Fin NBUF} {x : Buf} {m : Bool} (hdev : x.dev = (s.buf i).dev)
    (hno : x.blockno = (s.buf i).blockno) (hold : (s.buf i).holder ≠ some q)
    (hnew : x.holder ≠ some q) : Rely q s g (s.setBuf i x) (g.setMod i m) where
  ref _ := rfl
  ident j _ := by
    by_cases hj : j = i
    · subst hj
      simp only [State.setBuf_self, hdev, hno, and_self]
    · simp only [s.setBuf_of_ne hj, and_self]
  lock j := by
    by_cases hj : j = i
    · subst hj
      simp only [State.setBuf_self, hold, hnew]
    · rw [s.setBuf_of_ne hj]
  locked j hj := by
    have hne : j ≠ i := by
      rintro rfl
      exact hold hj
    rw [s.setBuf_of_ne hne, g.setMod_of_ne hne]
    exact ⟨rfl, rfl, rfl, rfl⟩
  op := rfl
  who := Iff.rfl
  com _ := rfl
  up := id

/-- The process's own other buffers are as before. -/
theorem Entry.Ok.setBuf {e : Entry} (h : e.Ok p s g) {i : Fin NBUF} (hne : e.buf ≠ i) (x : Buf)
    (m : Bool) : e.Ok p (s.setBuf i x) (g.setMod i m) := by
  refine ⟨?_, ?_, ?_, ?_, ?_⟩
  · rw [s.setBuf_of_ne hne]; exact h.holder
  · rw [s.setBuf_of_ne hne]; exact h.caches
  · rw [s.setBuf_of_ne hne]; exact h.valid
  · rw [g.setMod_of_ne hne]; exact h.mod
  · rw [s.setBuf_of_ne hne]; exact h.data

end SetBuf

section Actions
variable {W : List Wait} {H : List Entry} {R : Rest → Prop}

open Prog (lift)

theorem acquiresleep_spec (i : Fin NBUF) (b : Nat) :
    (logic La d₀ V).Triple p (At p [⟨i, b, false⟩] H R) (lift (.acquiresleep i))
      fun _ => At p [⟨i, b, true⟩] H R := by
  refine Triple.once free (at_stable _ _ _) (fun s s' hs => ?_) fun s g _ s' hi hP _ hs => ?_
  · simp only [logic, sem] at hs
    split at hs
    · exact answer_ne hs
    · simp at hs
  · simp only [logic, sem] at hs
    split at hs
    · rename_i hfree
      obtain ⟨-, rfl⟩ := answer_eq hs
      have hpos : 0 < g.ref p i := hP.1.ref_of_wait (w := ⟨i, b, false⟩) List.mem_cons_self
      have hcaches := (hP.1.wait _ List.mem_cons_self).caches
      have hmod : g.mod i = false := by
        by_contra hm
        exact hi.modHeld (by simpa using hm) hfree
      refine ⟨g.setMod i false, ?_, fun q hq => ?_, ⟨?_, ?_, fun e he => ?_, ?_⟩, hP.2⟩
      · refine hi.setBuf (fun _ => Iff.rfl) rfl (fun q hq => ?_) hi.dirtyValid hi.dev (by simp)
          (fun hv b' hb' _ => hi.clean hv hb' hmod) id
        obtain rfl : p = q := by simpa using hq
        exact hpos
      · exact Rely.setBuf rfl rfl (by simp [hfree]) (by simpa using Ne.symm hq)
      · exact hP.1.ref
      · intro w hw
        obtain rfl := List.mem_singleton.mp hw
        refine ⟨?_, fun _ => ⟨?_, Ghost.setMod_self ..⟩⟩
        · rw [State.setBuf_self]
          exact hcaches
        · rw [State.setBuf_self]
      · refine (hP.1.entry e he).setBuf ?_ _ _
        rintro rfl
        simp [(hP.1.entry e he).holder] at hfree
      · exact State.setBuf_locks (fun _ => List.mem_cons_self) fun j _ hl =>
          List.mem_cons_of_mem _ (hP.1.locks j hl)
    · simp at hs

theorem releasesleep_spec (i : Fin NBUF) (b : Nat) (hne : ∀ e ∈ H, e.blockno ≠ b) :
    (logic La d₀ V).Triple p (At p [] (⟨i, b, none⟩ :: H) R) (lift (.releasesleep i))
      fun _ => At p [⟨i, b, false⟩] H R := by
  refine Triple.once free (at_stable _ _ _) (fun s s' => answer_ne) fun s g _ s' hi hP _ hs => ?_
  obtain ⟨-, rfl⟩ := answer_eq hs
  have hok := hP.1.entry _ List.mem_cons_self
  have hmod : g.mod i = false := hok.mod
  refine ⟨g.setMod i false, ?_, fun q hq => ?_, ⟨?_, ?_, fun e he => ?_, ?_⟩, hP.2⟩
  · exact hi.setBuf (fun _ => Iff.rfl) rfl (by simp) hi.dirtyValid hi.dev (by simp)
      (fun hv b' hb' _ => hi.clean hv hb' hmod) id
  · exact Rely.setBuf rfl rfl (by simpa [hok.holder] using Ne.symm hq) (by simp)
  · exact hP.1.ref
  · intro w hw
    obtain rfl := List.mem_singleton.mp hw
    refine ⟨?_, by simp⟩
    rw [State.setBuf_self]
    exact hok.caches
  · have he' := hP.1.entry e (List.mem_cons_of_mem _ he)
    exact he'.setBuf (ne_of_caches he'.caches hok.caches (hne e he)) _ _
  · refine State.setBuf_locks (by simp) fun j hji hl => ?_
    exact (List.mem_cons.mp (hP.1.locks j hl)).resolve_left hji

theorem setData_spec (i : Fin NBUF) (b : Nat) (m : Option Block) (d : Block)
    (hne : ∀ e ∈ H, e.blockno ≠ b) :
    (logic La d₀ V).Triple p (At p [] (⟨i, b, m⟩ :: H) R) (lift (.setData i d))
      fun _ => At p [] (⟨i, b, some d⟩ :: H) R := by
  refine Triple.once free (at_stable _ _ _) (fun s s' => answer_ne) fun s g _ s' hi hP _ hs => ?_
  obtain ⟨-, rfl⟩ := answer_eq hs
  have hok := hP.1.entry _ List.mem_cons_self
  refine ⟨g.setMod i true, ?_, fun q hq => ?_, ⟨?_, by simp, fun e he => ?_, ?_⟩, hP.2⟩
  · exact hi.setBuf (fun _ => Iff.rfl) rfl (fun q hq => hi.held hq) hi.dirtyValid hi.dev
      (by simp [hok.holder]) (by simp) id
  · have hh : (s.buf i).holder ≠ some q := by simpa [hok.holder] using Ne.symm hq
    exact Rely.setBuf rfl rfl hh hh
  · exact hP.1.ref
  · rcases List.mem_cons.mp he with rfl | he
    · refine ⟨?_, ?_, ?_, Ghost.setMod_self .., fun d' hd' => ?_⟩ <;> rw [State.setBuf_self]
      · exact hok.holder
      · exact hok.caches
      · exact hok.valid
      · exact Option.some.inj hd'
    · have he' := hP.1.entry e (List.mem_cons_of_mem _ he)
      exact he'.setBuf (ne_of_caches he'.caches hok.caches (hne e he)) _ _
  · exact State.setBuf_locks (fun hl => hP.1.locks i hl) fun j _ hl => hP.1.locks j hl

theorem data_spec {e : Entry} (he : e ∈ H) :
    (logic La d₀ V).Triple p (At p [] H R) (lift (.data e.buf))
      fun d => At p [] H fun r => R r ∧
        ∀ c, r.com = some c → d = e.change.getD (c.look La d₀ e.blockno) := by
  refine Triple.read free (at_stable _ _ _) (fun s r s' hs => ?_) fun s g d hi hP hs => ?_
  · simpa [logic, sem, answer] using (Prod.mk.inj (Option.some.inj hs)).2.symm
  · obtain ⟨rfl, -⟩ := answer_eq hs
    have hok := hP.1.entry e he
    refine ⟨hP.1, hP.2, fun c hc => ?_⟩
    obtain ⟨-, rfl⟩ : g.who = some p ∧ com s g = c := by simpa [rest] using hc
    cases hch : e.change with
    | none => exact hi.clean hok.valid hok.caches (by simp [hok.mod, hch])
    | some d => exact hok.data d hch

/-- Taking and giving back references. -/
def Ghost.addRef (g : Ghost) (p : Pid) (i : Fin NBUF) : Ghost :=
  { g with ref := fun q j => g.ref q j + if q = p ∧ j = i then 1 else 0 }

def Ghost.dropRef (g : Ghost) (p : Pid) (i : Fin NBUF) : Ghost :=
  { g with ref := fun q j => g.ref q j - if q = p ∧ j = i then 1 else 0 }

theorem Ghost.sum_addRef (g : Ghost) (p : Pid) (i j : Fin NBUF) :
    ∑ q, (g.addRef p i).ref q j = (∑ q, g.ref q j) + if j = i then 1 else 0 := by
  simp only [addRef, Finset.sum_add_distrib]
  by_cases hj : j = i <;> simp [hj]

theorem Ghost.sum_dropRef (g : Ghost) {p : Pid} {i : Fin NBUF} (h : 0 < g.ref p i)
    (j : Fin NBUF) :
    ∑ q, g.ref q j = (∑ q, (g.dropRef p i).ref q j) + if j = i then 1 else 0 := by
  have hback : g = (g.dropRef p i).addRef p i := by
    cases g
    simp only [addRef, dropRef, Ghost.mk.injEq, and_self, and_true]
    funext q k
    by_cases hq : q = p ∧ k = i
    · obtain ⟨rfl, rfl⟩ := hq
      simp only [and_self, if_true]
      simp only at h
      omega
    · simp [hq]
  conv_lhs => rw [hback]
  exact Ghost.sum_addRef ..

theorem Inv.setRef (h : Inv La d₀ s g) {c : Bcache} {r : Pid → Fin NBUF → Nat} (hwf : Bio.Wf c)
    (hbuf : ∀ j, ∃ n, c.buf j = { s.buf j with refcnt := n } ∧ n = ∑ q, r q j)
    (hheld : ∀ j q, (s.buf j).holder = some q → 0 < r q j) :
    Inv La d₀ { s with cache := c } { g with ref := r } := by
  refine h.setCache hwf (fun j => ?_) (fun j b => ?_) fun j b hc hd => ?_
  all_goals
    obtain ⟨n, hj, hn⟩ := hbuf j
    rw [hj]
  · exact ⟨hn, hheld j, h.dirtyValid, h.dev, h.modHeld⟩
  · exact h.clean
  · exact ⟨hc, hd⟩

theorem Rely.setRef {c : Bcache} {r : Pid → Fin NBUF → Nat}
    (hbuf : ∀ j, ∃ n, c.buf j = { s.buf j with refcnt := n }) (hr : ∀ j, r q j = g.ref q j) :
    Rely q s g { s with cache := c } { g with ref := r } where
  ref := hr
  ident j _ := by
    obtain ⟨n, hj⟩ := hbuf j
    simp only [State.buf, hj, and_self]
  lock j := by
    obtain ⟨n, hj⟩ := hbuf j
    simp only [State.buf, hj]
  locked j _ := by
    obtain ⟨n, hj⟩ := hbuf j
    simp only [State.buf, hj, and_self]
  op := rfl
  who := Iff.rfl
  com _ := rfl
  up := id

theorem Entry.Ok.setRef {e : Entry} (h : e.Ok p s g) {c : Bcache} {r : Pid → Fin NBUF → Nat}
    (hbuf : ∀ j, ∃ n, c.buf j = { s.buf j with refcnt := n }) :
    e.Ok p { s with cache := c } { g with ref := r } := by
  obtain ⟨n, hj⟩ := hbuf e.buf
  refine ⟨?_, ?_, ?_, h.mod, ?_⟩ <;> simp only [State.buf, hj]
  · exact h.holder
  · exact h.caches
  · exact h.valid
  · exact h.data

theorem put_spec (i : Fin NBUF) (b : Nat) :
    (logic La d₀ V).Triple p (At p [⟨i, b, false⟩] H R) (lift (.put i))
      fun _ => At p [] H R := by
  refine Triple.once free (at_stable _ _ _) (fun s s' => answer_ne) fun s g _ s' hi hP _ hs => ?_
  obtain ⟨-, rfl⟩ := answer_eq hs
  have hpos : 0 < g.ref p i := hP.1.ref_of_wait (w := ⟨i, b, false⟩) List.mem_cons_self
  have hsum := g.sum_dropRef hpos
  have hbuf : ∀ j, ∃ n, (put s.cache i).buf j = { s.buf j with refcnt := n } ∧
      n = ∑ q, (g.dropRef p i).ref q j := by
    intro j
    have hj := hi.refs j
    rw [hsum j] at hj
    rw [put_buf]
    by_cases hji : j = i
    · subst hji
      rw [if_pos rfl] at hj
      exact ⟨(s.buf j).refcnt - 1, Bcache.setBuf_self .., by omega⟩
    · rw [if_neg hji, Nat.add_zero] at hj
      exact ⟨(s.buf j).refcnt, Bcache.setBuf_of_ne _ hji _, hj⟩
  have hbuf' := fun j => (hbuf j).imp fun _ => And.left
  have href : ∀ j, (g.dropRef p i).ref p j = (H.map Entry.buf).count j := by
    intro j
    have hj := hP.1.ref j
    simp only [List.map_cons, List.map_nil, List.singleton_append, List.count_cons] at hj
    by_cases hji : j = i
    · subst hji
      simp [Ghost.dropRef, hj]
    · simp [Ghost.dropRef, hj, hji, Ne.symm hji]
  refine ⟨g.dropRef p i, ?_, fun q hq => ?_, ⟨href, by simp, fun e he => ?_, fun j hj => ?_⟩, hP.2⟩
  · refine hi.setRef (hi.cache.put i) hbuf fun j q hq => ?_
    by_cases hqp : q = p
    · subst hqp
      change 0 < (g.dropRef q i).ref q j
      rw [href]
      exact List.count_pos_iff.mpr (hP.1.locks j hq)
    · simpa [Ghost.dropRef, hqp] using hi.held hq
  · exact Rely.setRef hbuf' fun j => by simp [hq]
  · exact (hP.1.entry e he).setRef hbuf'
  · obtain ⟨n, hn⟩ := hbuf' j
    exact hP.1.locks j (by simpa only [State.buf, hn] using hj)

/-- A block of the log area is only cached while some buffer is not pinned. -/
def Room (La : Area) (b : Nat) (r : Rest) : Prop :=
  ¬ La.Home b → ∀ c, r.com = some c → c.up = true → c.head La = [] → c.lh.length < NBUF

-- The pinned buffers of the logged blocks are distinct, and the one `bget` returns is none of them.
theorem Inv.length_lh_lt (h : Inv La d₀ s g) (hu : s.up = true) (hh : (com s g).head La = [])
    {i : Fin NBUF} (hi : ∀ b, La.Home b → (s.buf i).caches b → (s.buf i).dirty = false) :
    s.lh.length < NBUF := by
  classical
  have ho := h.durable.open hh
  have hpins : ∀ b ∈ s.lh, ∃ j, (s.buf j).caches b ∧ (s.buf j).dirty = true := by
    intro b hb
    refine h.pins hu b ?_
    rw [Com.pend, if_pos hh]
    exact hb
  choose! f hf hdirty using hpins
  have hmaps : Set.MapsTo f s.lh.toFinset (Finset.univ.erase i : Finset (Fin NBUF)) := by
    intro b hb
    have hb : b ∈ s.lh := by simpa using hb
    have hfi : f b ≠ i := by
      intro he
      have := hdirty b hb
      rw [he, hi b (ho.home b hb) (he ▸ hf b hb)] at this
      simp at this
    simpa using hfi
  have hinj : Set.InjOn f s.lh.toFinset := by
    intro b hb b' hb' he
    have hb : b ∈ s.lh := by simpa using hb
    have hb' : b' ∈ s.lh := by simpa using hb'
    exact (hf b hb).2.symm.trans ((congrArg (fun j => (s.buf j).blockno) he).trans (hf b' hb').2)
  have hcard := Finset.card_le_card_of_injOn f hmaps hinj
  have hnodup : s.lh.Nodup := ho.nodup
  rw [List.toFinset_card_of_nodup hnodup, Finset.card_erase_of_mem (Finset.mem_univ i),
    Finset.card_univ, Fintype.card_fin] at hcard
  unfold NBUF MAXOPBLOCKS at *
  omega

theorem Inv.ref_of_unused (h : Inv La d₀ s g) {i : Fin NBUF} (hun : (s.buf i).unused) (q : Pid) :
    g.ref q i = 0 := by
  have hsum : ∑ q, g.ref q i = 0 := (h.refs i).symm.trans hun.1
  exact (Finset.sum_eq_zero_iff.mp hsum) q (Finset.mem_univ q)

theorem Inv.holder_of_unused (h : Inv La d₀ s g) {i : Fin NBUF} (hun : (s.buf i).unused) :
    (s.buf i).holder = none := by
  by_contra hh
  obtain ⟨q, hq⟩ := Option.ne_none_iff_exists'.mp hh
  have hpos := h.held hq
  rw [h.ref_of_unused hun q] at hpos
  exact Nat.lt_irrefl 0 hpos

theorem Inv.recycle (h : Inv La d₀ s g) {i : Fin NBUF} {b : Nat} {c : Bcache}
    (hb : bget s.cache b = some (i, c)) (hun : (s.buf i).unused)
    (hc : c = s.cache.setBuf i ((s.buf i).recycle b)) (p : Pid) :
    Inv La d₀ { s with cache := c } (g.addRef p i) := by
  subst hc
  have hfree := h.holder_of_unused hun
  refine h.setCache (h.cache.bget hb) ?_ ?_ ?_
  · refine Bcache.forall_setBuf (P := fun j x => Sound x ((g.addRef p i).ref · j) (g.mod j)) ?_ fun j hj => ?_
    · refine ⟨?_, fun q hq => absurd (hfree.symm.trans hq) (by simp), fun hf => absurd hf Bool.false_ne_true,
        fun hf => absurd hf Bool.false_ne_true, fun hm => absurd hfree (h.modHeld hm)⟩
      rw [Ghost.sum_addRef, ← h.refs i]
      simp [Buf.recycle, hun.1]
    · have hok := h.sound j
      refine ⟨?_, fun q hq => Nat.lt_of_lt_of_le (hok.held q hq) (Nat.le_add_right ..), hok.dirtyValid, hok.dev,
        hok.modHeld⟩
      rw [Ghost.sum_addRef, if_neg hj, Nat.add_zero]
      exact hok.refs
  · exact Bcache.forall_setBuf (P := fun j x => ∀ b', x.valid = true → x.caches b' → g.mod j = false →
      x.data = (com s g).look La d₀ b') (fun _ hf => absurd hf Bool.false_ne_true) fun j _ b' => h.clean
  · refine Bcache.forall_setBuf (P := fun j x => ∀ b', (s.buf j).caches b' → (s.buf j).dirty = true →
      x.caches b' ∧ x.dirty = true) (fun b' _ hd => ?_) fun j _ b' hc hd => ⟨hc, hd⟩
    rw [hun.2] at hd
    cases hd

theorem Held.addRef {c : Bcache} {i : Fin NBUF} {b : Nat} (h : Held p [] H s g)
    (hown : ∀ j, 0 < g.ref p j → ∃ n, c.buf j = { s.buf j with refcnt := n })
    (hlock : ∀ j, (c.buf j).holder = (s.buf j).holder) (hi : (c.buf i).caches b) :
    Held p [⟨i, b, false⟩] H { s with cache := c } (g.addRef p i) where
  ref j := by
    have hj := h.ref j
    simp only [List.map_cons, List.map_nil, List.singleton_append, List.nil_append,
      List.count_cons, Ghost.addRef, true_and] at hj ⊢
    rw [hj]
    by_cases hji : j = i
    · simp [hji]
    · simp [hji, Ne.symm hji]
  wait w hw := by
    obtain rfl := List.mem_singleton.mp hw
    exact ⟨hi, by simp⟩
  entry e he := by
    have hok := h.entry e he
    obtain ⟨n, hn⟩ := hown e.buf (h.ref_of_entry he)
    refine ⟨?_, ?_, ?_, hok.mod, ?_⟩ <;> simp only [State.buf, hn]
    · exact hok.holder
    · exact hok.caches
    · exact hok.valid
    · exact hok.data
  locks j hj := h.locks j ((hlock j).symm.trans hj)

theorem bget_spec (b : Nat) :
    (logic La d₀ V).Triple p (At p [] H R) (lift (.bget b))
      fun r s g => ∀ i, r = some i →
        At p [⟨i, b, false⟩] H (fun r => R r ∧ Room La b r) s g := by
  refine Triple.once free (at_stable _ _ _) (fun s s' hs => ?_) fun s g r s' hi hP _ hs => ?_
  · simp only [logic, sem] at hs
    split at hs <;> exact answer_ne hs
  · simp only [logic, sem] at hs
    split at hs
    · rename_i i c hb
      obtain ⟨rfl, rfl⟩ := answer_eq hs
      have hroom : Room La b (rest p s g) := by
        intro hlog c' hc' hu hh
        obtain ⟨-, rfl⟩ : g.who = some p ∧ com s g = c' := by simpa [rest] using hc'
        refine hi.length_lh_lt hu hh (i := i) fun b' hb' hcb => ?_
        rcases bget_cases hi.cache hb with ⟨hcaches, -⟩ | ⟨-, hun, -⟩
        · exact absurd (hcaches.2.symm.trans hcb.2 ▸ hb') hlog
        · exact hun.2
      -- Either the block is cached and gets one more reference, or an unused buffer is recycled.
      rcases bget_cases hi.cache hb with ⟨hcaches, hc⟩ | ⟨-, hun, hc⟩
      · have hbuf : ∀ j, ∃ n, c.buf j = { s.buf j with refcnt := n } ∧
            n = ∑ q, (g.addRef p i).ref q j := by
          intro j
          rw [Ghost.sum_addRef, ← hi.refs j, hc]
          by_cases hji : j = i
          · subst hji
            exact ⟨_, Bcache.setBuf_self .., by rw [if_pos rfl]⟩
          · exact ⟨_, Bcache.setBuf_of_ne _ hji _, by rw [if_neg hji, Nat.add_zero]⟩
        have hbuf' := fun j => (hbuf j).imp fun _ => And.left
        refine ⟨g.addRef p i, ?_, fun q hq => ?_, ?_⟩
        · exact hi.setRef (hi.cache.bget hb) hbuf fun j q hq =>
            Nat.lt_of_lt_of_le (hi.held hq) (Nat.le_add_right ..)
        · exact Rely.setRef hbuf' fun j => by simp [hq]
        · rintro _ ⟨rfl⟩
          refine ⟨hP.1.addRef (fun j _ => hbuf' j) (fun j => ?_) ?_, hP.2, hroom⟩
          · obtain ⟨n, hn⟩ := hbuf' j
            simp only [hn]
          · obtain ⟨n, hn⟩ := hbuf' i
            simp only [hn]
            exact hcaches
      · have hother : ∀ j, j ≠ i → c.buf j = s.buf j := by
          subst hc
          exact fun j hj => Bcache.setBuf_of_ne _ hj _
        have hself : c.buf i = (s.buf i).recycle b := by
          subst hc
          exact Bcache.setBuf_self ..
        -- Nobody refers to the recycled buffer, so nobody notices.
        have hne : ∀ q j, 0 < g.ref q j → j ≠ i := by
          rintro q _ hpos rfl
          rw [hi.ref_of_unused hun q] at hpos
          exact Nat.lt_irrefl 0 hpos
        have hlock : ∀ j, (c.buf j).holder = (s.buf j).holder := by
          intro j
          by_cases hji : j = i
          · rw [hji, hself]
            rfl
          · rw [hother j hji]
        refine ⟨g.addRef p i, hi.recycle hb hun hc p, fun q hq => ?_, ?_⟩
        · refine ⟨fun j => by simp [Ghost.addRef, hq], fun j hj => ?_, fun j => ?_, fun j hj => ?_,
            rfl, Iff.rfl, fun _ => rfl, id⟩
          · simp only [State.buf, hother j (hne q j hj), and_self]
          · simp only [State.buf, hlock j]
          · simp only [State.buf, hother j (hne q j (hi.held hj))]
            exact ⟨trivial, trivial, trivial, rfl⟩
        · rintro _ ⟨rfl⟩
          refine ⟨hP.1.addRef (fun j hj => ?_) hlock ?_, hP.2, hroom⟩
          · exact ⟨_, hother j (hne p j hj)⟩
          · rw [hself]
            exact ⟨rfl, rfl⟩
    · obtain ⟨rfl, rfl⟩ := answer_eq hs
      exact ⟨g, hi, fun q _ => Rely.refl q _ g, by simp⟩

theorem holdingsleep_spec {P : State → Ghost → Prop} {i : Fin NBUF}
    (hst : (logic La d₀ V).Stable p P) (h : ∀ s g, P s g → (s.buf i).holder = some p) :
    (logic La d₀ V).Triple p P (lift (.holdingsleep i)) fun r s g => r = true ∧ P s g := by
  refine Triple.read free hst (fun s r s' hs => ?_) fun s g r hi hP hs => ?_
  · exact (Prod.mk.inj (Option.some.inj hs)).2.symm
  · obtain ⟨rfl, -⟩ := answer_eq hs
    exact ⟨decide_eq_true (h s g hP), hP⟩

/-- The process has locked a buffer whose contents are not loaded. -/
def Unloaded (p : Pid) (i : Fin NBUF) (b : Nat) (H : List Entry) (R : Rest → Prop) (s : State)
    (g : Ghost) : Prop := At p [⟨i, b, true⟩] H R s g ∧ (s.buf i).valid = false

theorem Unloaded.holder {i : Fin NBUF} {b : Nat} (h : Unloaded p i b H R s g) :
    (s.buf i).holder = some p := ((h.1.1.wait _ List.mem_cons_self).locked rfl).1

theorem unloaded_stable (i : Fin NBUF) (b : Nat) :
    (logic La d₀ V).Stable p (Unloaded p i b H R) := by
  intro s g s' g' hr hi h
  exact ⟨at_stable _ _ _ s g s' g' hr hi h.1, (hr.locked i h.holder).1.trans h.2⟩

/-- A locked buffer becomes one of the held ones once it is loaded. -/
theorem Held.load {i : Fin NBUF} {b : Nat} (h : Held p [⟨i, b, true⟩] H s g)
    (hv : (s.buf i).valid = true) : Held p [] (⟨i, b, none⟩ :: H) s g where
  ref := h.ref
  wait := by simp
  entry e he := by
    rcases List.mem_cons.mp he with rfl | he
    · have hw := h.wait _ List.mem_cons_self
      exact ⟨(hw.locked rfl).1, hw.caches, hv, (hw.locked rfl).2, by simp⟩
    · exact h.entry e he
  locks := h.locks

theorem transfer_read_spec (i : Fin NBUF) (b : Nat) :
    (logic La d₀ V).Triple p (Unloaded p i b H R) (lift (.transfer i))
      fun _ => At p [] (⟨i, b, none⟩ :: H) R := by
  refine Triple.once free (unloaded_stable i b) (fun s s' => answer_ne) fun s g _ s' hi hP _ hs => ?_
  obtain ⟨-, rfl⟩ := answer_eq hs
  have hw := hP.1.1.wait _ List.mem_cons_self
  obtain ⟨hholder, hmod⟩ := hw.locked rfl
  have hclean : (s.buf i).dirty = false := by
    by_contra hd
    have hv := hi.dirtyValid (i := i) (by simpa using hd)
    exact absurd (hv.symm.trans hP.2) (by simp)
  -- An invalid buffer is not pinned, so the disk has the block's contents.
  have hlook : ∀ b', (s.buf i).caches b' → (com s g).look La d₀ b' = s.disk b' := by
    intro b' hb'
    refine Com.look_eq_disk hi.durable fun hu hp => ?_
    obtain ⟨j, hcj, hdj⟩ := hi.pins hu b' hp
    rw [hi.cache.uniq hcj hb'] at hdj
    exact absurd (hclean.symm.trans hdj) (by simp)
  have htr : transfer La s i =
      s.setBuf i { s.buf i with valid := true, data := s.disk (s.buf i).blockno } := by
    rw [transfer, if_neg (by simp [hclean])]
  rw [htr]
  refine ⟨g.setMod i false, ?_, fun q hq => ?_, Held.load ⟨hP.1.1.ref, ?_, fun e he => ?_, ?_⟩ ?_,
    hP.1.2⟩
  · refine hi.setBuf (fun _ => Iff.rfl) rfl (fun q hq => hi.held hq) (fun _ => rfl)
      (fun _ => hw.caches.1) (by simp) (fun _ b' hb' _ => ?_) id
    rw [hlook b' hb', ← hb'.2]
  · have hh : (s.buf i).holder ≠ some q := by simpa [hholder] using Ne.symm hq
    exact Rely.setBuf rfl rfl hh hh
  · intro w hw'
    obtain rfl := List.mem_singleton.mp hw'
    refine ⟨?_, fun _ => ⟨?_, Ghost.setMod_self ..⟩⟩ <;> rw [State.setBuf_self]
    · exact hw.caches
    · exact hholder
  · refine (hP.1.1.entry e he).setBuf ?_ _ _
    rintro rfl
    exact absurd ((hP.1.1.entry e he).valid.symm.trans hP.2) (by simp)
  · exact State.setBuf_locks (fun _ => List.mem_cons_self) fun j _ hl => hP.1.1.locks j hl
  · rw [State.setBuf_self]

theorem flags_spec {P : State → Ghost → Prop} (i : Fin NBUF) (hst : (logic La d₀ V).Stable p P) :
    (logic La d₀ V).Triple p P (lift (.flags i))
      fun r s g => r = ((s.buf i).valid, (s.buf i).dirty) ∧ P s g := by
  refine Triple.read free hst (fun s r s' hs => ?_) fun s g r hi hP hs => ?_
  · exact (Prod.mk.inj (Option.some.inj hs)).2.symm
  · obtain ⟨rfl, -⟩ := answer_eq hs
    exact ⟨rfl, hP⟩

theorem iderw_spec {P : State → Ghost → Prop} {Q : Unit → State → Ghost → Prop} (i : Fin NBUF)
    (hst : (logic La d₀ V).Stable p P) (hh : ∀ s g, P s g → (s.buf i).holder = some p)
    (hf : ∀ s g, P s g → ((s.buf i).valid, (s.buf i).dirty) ≠ (true, false))
    (ht : (logic La d₀ V).Triple p P (lift (.transfer i)) Q) :
    (logic La d₀ V).Triple p P (iderw i) Q := by
  refine (holdingsleep_spec hst hh).bind fun held => ?_
  rcases held with _ | _
  · exact Triple.panic fun _ _ _ h => absurd h.1 (by simp)
  · refine (Triple.pre (flags_spec i hst) fun s g _ h => h.2).bind fun fl => ?_
    split
    · rename_i hfl
      exact Triple.panic fun s g _ h => absurd (h.1.symm.trans hfl) (hf s g h.2)
    · exact ht.pre fun s g _ h => h.2

/-- `bread` returns the block's buffer, locked and loaded. -/
theorem bread_spec (b : Nat) :
    (logic La d₀ V).Triple p (At p [] H R) (bread b)
      fun i => At p [] (⟨i, b, none⟩ :: H) fun r => R r ∧ Room La b r := by
  refine (bget_spec b).bind fun found => ?_
  rcases found with _ | i
  · exact Triple.panic fun _ _ _ _ => .inl rfl
  · refine (Triple.pre (acquiresleep_spec i b) fun s g _ h => h i rfl).bind fun _ => ?_
    refine (flags_spec i (at_stable _ _ _)).bind fun fl => ?_
    split
    · rename_i hv
      refine Triple.ret fun s g _ h => ⟨h.2.1.load ?_, h.2.2⟩
      rw [← hv, h.1]
    · rename_i hv
      have hread : (logic La d₀ V).Triple p (Unloaded p i b H fun r => R r ∧ Room La b r) (iderw i)
          fun _ => At p [] (⟨i, b, none⟩ :: H) fun r => R r ∧ Room La b r := by
        refine iderw_spec i (unloaded_stable i b) (fun s g h => h.holder) (fun s g h => ?_)
          (transfer_read_spec i b)
        simp [h.2]
      refine (Triple.pre hread fun s g _ h => ⟨h.2, ?_⟩).bind fun _ => Triple.ret fun s g _ h => h
      rw [h.1] at hv
      simpa using hv

theorem brelse_spec (i : Fin NBUF) (b : Nat) (hne : ∀ e ∈ H, e.blockno ≠ b) :
    (logic La d₀ V).Triple p (At p [] (⟨i, b, none⟩ :: H) R) (brelse i) fun _ => At p [] H R := by
  refine (holdingsleep_spec (at_stable _ _ _) fun s g h =>
    (h.1.entry _ List.mem_cons_self).holder).bind fun held => ?_
  rcases held with _ | _
  · exact Triple.panic fun _ _ _ h => absurd h.1 (by simp)
  · exact (Triple.pre (releasesleep_spec i b hne) fun s g _ h => h.2).bind fun _ => put_spec i b

end Actions

end Chameleon.Log
