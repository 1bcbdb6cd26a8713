import Chameleon.Lib.Ring
import Chameleon.Ipc.Pipe

/-! A pipe is a first-in first-out stream of bytes, although its counters wrap around. -/

namespace Chameleon.Ipc
open Machine

/-- The pipe has delivered `r` bytes and holds the string `xs`. -/
structure Rep (p : Pipe) (r : Nat) (xs : List UInt8) : Prop where
  holds : Ring.Holds 512 p.data r (r + xs.length) xs
  nread : p.nread.toNat = r % 2 ^ 32
  nwrite : p.nwrite.toNat = (r + xs.length) % 2 ^ 32

section Rep
variable {p : Pipe} {r : Nat} {xs : List UInt8}

theorem Rep.full_iff (h : Rep p r xs) : p.full = true ↔ xs.length = 512 := by
  rw [← h.holds.full_iff (M := 2 ^ 32) (by decide), Pipe.full, beq_iff_eq, ← UInt32.toNat_inj,
    UInt32.toNat_add, h.nread, h.nwrite]
  rfl

theorem Rep.empty_iff (h : Rep p r xs) : p.empty = true ↔ xs = [] := by
  rw [← h.holds.empty_iff (M := 2 ^ 32) (by decide), Pipe.empty, beq_iff_eq, ← UInt32.toNat_inj,
    h.nread, h.nwrite]

theorem index_eq {c : UInt32} {k : Nat} (h : c.toNat = k % 2 ^ 32) :
    (c % PIPESIZE).toNat = k % 512 := Ring.counter_index h (by decide)

theorem Rep.put (h : Rep p r xs) (hroom : xs.length < 512) (b : UInt8) :
    Rep (p.put b) r (xs ++ [b]) := by
  refine ⟨?_, h.nread, ?_⟩
  · have hpush := h.holds.push hroom b
    simpa only [Pipe.put, index_eq h.nwrite, List.length_append, List.length_singleton,
      Nat.add_assoc] using hpush
  · have hsucc := Ring.counter_succ h.nwrite
    simpa only [Pipe.put, List.length_append, List.length_singleton, Nat.add_assoc] using hsucc

theorem Rep.advance {x : UInt8} (h : Rep p r (x :: xs)) :
    p.get = x ∧ Rep p.advance (r + 1) xs := by
  have hlen : r + (x :: xs).length = r + 1 + xs.length := by
    rw [List.length_cons]
    omega
  obtain ⟨hx, hpop⟩ := h.holds.pop
  refine ⟨?_, hlen ▸ hpop, Ring.counter_succ h.nread, hlen ▸ h.nwrite⟩
  rw [Pipe.get, index_eq h.nread, hx]

/-- The difference of the counters is the number of bytes held, whatever the totals. -/
theorem Rep.length_eq (h : Rep p r xs) : (p.nwrite - p.nread).toNat = xs.length := by
  rw [UInt32.toNat_sub, h.nread, h.nwrite]
  exact h.holds.sub_mod (by decide)

/-- The undelivered bytes, in the ring. -/
def contents (p : Pipe) : List UInt8 :=
  (List.range (p.nwrite - p.nread).toNat).map fun j =>
    p.data ((p.nread.toNat + j) % PIPESIZE.toNat)

theorem Rep.contents_eq (h : Rep p r xs) : contents p = xs := by
  rw [contents, h.length_eq]
  have hmap := h.holds.eq_map
  rw [Nat.add_sub_cancel_left] at hmap
  conv_rhs => rw [hmap]
  refine List.map_congr_left fun j _ => congrArg p.data ?_
  have hdvd : r % 2 ^ 32 % 512 = r % 512 := Nat.mod_mod_of_dvd r (by decide)
  rw [h.nread, show PIPESIZE.toNat = 512 from rfl, Nat.add_mod, hdvd, ← Nat.add_mod]

end Rep

/-- The loop of `pipewrite` stores a first part of its bytes; it stops only when the pipe is full,
and then it fails or sleeps. -/
theorem pipewriteLoop_spec (killed : Bool) {p : Pipe} {r : Nat} {xs : List UInt8} (h : Rep p r xs)
    {bs rest : List UInt8} {p' : Pipe} {stop : WriteEnd}
    (he : pipewriteLoop killed p bs = (p', rest, stop)) :
    ∃ put, bs = put ++ rest ∧ Rep p' r (xs ++ put) ∧ p'.readopen = p.readopen ∧
      p'.writeopen = p.writeopen ∧
      (stop = .done ∧ rest = [] ∨ p'.full = true ∧ rest ≠ [] ∧
        stop = if !p.readopen || killed then .failed else .asleep) := by
  induction bs generalizing p xs with
  | nil =>
    cases he
    exact ⟨[], rfl, by simpa using h, rfl, rfl, .inl ⟨rfl, rfl⟩⟩
  | cons b bs ih =>
    rw [pipewriteLoop] at he
    by_cases hfull : p.full = true
    · rw [if_pos hfull] at he
      cases he
      exact ⟨[], rfl, by simpa using h, rfl, rfl, .inr ⟨hfull, by simp, rfl⟩⟩
    · rw [if_neg hfull] at he
      have hroom : xs.length < 512 :=
        Nat.lt_of_le_of_ne h.holds.fits (mt h.full_iff.mpr hfull)
      obtain ⟨put, hbs, hrep, hro, hwo, hstop⟩ := ih (h.put hroom b) he
      exact ⟨b :: put, by rw [hbs]; rfl, by simpa using hrep, hro, hwo, hstop⟩

/-- The copy loop of `piperead` takes the first bytes of the ring. -/
theorem pipereadCopy_spec {p : Pipe} {r : Nat} {xs : List UInt8} (h : Rep p r xs) (n : Nat) :
    (pipereadCopy p n).2 = xs.take n ∧ Rep (pipereadCopy p n).1 (r + (xs.take n).length) (xs.drop n) ∧
      (pipereadCopy p n).1.readopen = p.readopen ∧ (pipereadCopy p n).1.writeopen = p.writeopen := by
  induction n generalizing p r xs with
  | zero => exact ⟨rfl, by simpa [pipereadCopy] using h, rfl, rfl⟩
  | succ n ih =>
    rw [pipereadCopy]
    split_ifs with hempty
    · obtain rfl := h.empty_iff.mp hempty
      exact ⟨rfl, by simpa using h, rfl, rfl⟩
    · cases xs with
      | nil => exact absurd (h.empty_iff.mpr rfl) hempty
      | cons x xs =>
        obtain ⟨hx, hrep⟩ := h.advance
        obtain ⟨hbytes, hrest, hro, hwo⟩ := ih hrep
        refine ⟨by rw [hx, hbytes]; rfl, ?_, hro, hwo⟩
        have hlen : r + ((x :: xs).take (n + 1)).length = r + 1 + (xs.take n).length := by
          rw [List.take_succ_cons, List.length_cons]
          omega
        rw [hlen]
        exact hrest

/-- A stretch of `piperead` delivers from a pipe that holds data or has lost its writers, and
changes nothing otherwise. -/
theorem pipereadPass_spec {killed : Bool} {p p' : Pipe} {r n : Nat} {xs : List UInt8}
    {stop : ReadEnd} (h : Rep p r xs) (he : pipereadPass killed p n = (p', stop)) :
    (∃ bs, stop = .returned bs ∧ (p.empty && p.writeopen) = false ∧ xs = bs ++ xs.drop n ∧
      Rep p' (r + bs.length) (xs.drop n)) ∨
    p' = p ∧ (p.empty && p.writeopen) = true ∧ stop = if killed then .failed else .asleep := by
  unfold pipereadPass at he
  by_cases hloop : (p.empty && p.writeopen) = true
  · rw [if_pos hloop] at he
    cases he
    exact .inr ⟨rfl, hloop, rfl⟩
  · rw [if_neg hloop] at he
    obtain ⟨hbytes, hrep, -⟩ := pipereadCopy_spec h n
    cases he
    refine .inl ⟨_, rfl, Bool.eq_false_iff.mpr hloop, ?_, ?_⟩
    · rw [hbytes, List.take_append_drop]
    · rw [hbytes]
      exact hrep

/-- `piperead` with room for a byte delivers none only from an empty pipe without writers. -/
theorem pipereadPass_nil {killed : Bool} {p p' : Pipe} {n : Nat} (hn : 0 < n)
    (h : pipereadPass killed p n = (p', .returned [])) : p.empty = true ∧ p.writeopen = false := by
  unfold pipereadPass at h
  obtain ⟨k, rfl⟩ := Nat.exists_eq_succ_of_ne_zero (Nat.ne_of_gt hn)
  by_cases hloop : (p.empty && p.writeopen) = true
  · rw [if_pos hloop] at h
    have hcases := congrArg Prod.snd h
    cases killed <;> simp at hcases
  · rw [if_neg hloop] at h
    have hbytes : (pipereadCopy p (k + 1)).2 = [] := by simpa using congrArg Prod.snd h
    rw [pipereadCopy] at hbytes
    split_ifs at hbytes with hempty
    exact ⟨hempty, by simpa [hempty] using hloop⟩

section Run
variable {ι : Type} [DecidableEq ι] {s s' : State ι}

/-- The bytes that writer `q` has stored. -/
def Hist.storedBy (h : Hist ι) (q : ι) : List UInt8 :=
  (h.stored.filter fun e => e.1 = q).map Prod.snd

/-- What a list of calls, the latest first, has stored. -/
def supplied (cs : List Call) : List UInt8 := cs.reverse.flatMap fun c => c.addr.take c.stored

theorem supplied_cons (c : Call) (cs : List Call) :
    supplied (c :: cs) = supplied cs ++ c.addr.take c.stored := by
  simp [supplied]

/-- The order of bytes, at every step boundary. A process inside `pipewrite` goes on where its
latest call has stopped. -/
structure Fifo (s : State ι) : Prop where
  rep : ∃ xs, Rep s.pipe s.hist.taken.length xs ∧ s.hist.stored.map Prod.snd = s.hist.taken ++ xs
  order : ∀ q, s.hist.storedBy q = supplied (s.hist.calls q)
  within : ∀ q, ∀ c ∈ s.hist.calls q, c.stored ≤ c.addr.length
  writing : ∀ q rest, (s.proc q).pc = .pipewrite rest →
    ∃ c cs, s.hist.calls q = c :: cs ∧ c.addr.drop c.stored = rest

theorem storedBy_store (h : Hist ι) (q q' : ι) (bs : List UInt8) :
    (h.store q bs).storedBy q' = h.storedBy q' ++ if q' = q then bs else [] := by
  simp only [Hist.storedBy, Hist.store, List.filter_append, List.map_append]
  congr 1
  split_ifs with hq
  · subst hq
    simp [List.filter_map, Function.comp_def]
  · simp [List.filter_map, Function.comp_def, Ne.symm hq]

omit [DecidableEq ι] in
theorem wakeup_pc (proc : ι → Proc) (chan : Chan) (q : ι) : (wakeup proc chan q).pc = (proc q).pc := by
  unfold wakeup
  split_ifs <;> rfl

theorem writeStretch_pc {q : ι} {bs : List UInt8} (q' : ι) (rest : List UInt8)
    (h : ((writeStretch s q bs).proc q').pc = .pipewrite rest) :
    q' = q ∧ (pipewriteLoop (s.proc q).killed s.pipe bs).2.1 = rest ∨
      q' ≠ q ∧ (s.proc q').pc = .pipewrite rest := by
  rcases hloop : pipewriteLoop (s.proc q).killed s.pipe bs with ⟨p, left, stop⟩
  simp only [writeStretch, hloop] at h ⊢
  by_cases hq : q' = q
  · subst hq
    cases stop <;> simp only [Function.update_self] at h
    · cases h
    · cases h
    · exact .inl ⟨rfl, Pc.pipewrite.inj h⟩
  · refine .inr ⟨hq, ?_⟩
    cases stop <;> simpa only [Function.update_of_ne hq, wakeup_pc] using h

theorem Fifo.writeStretch {q : ι} {c : Call} (cs : List Call) {bs : List UInt8} (h : Fifo s)
    (hcalls : s.hist.calls q = c :: cs) (hbs : c.addr.drop c.stored = bs) :
    Fifo (writeStretch s q bs) := by
  obtain ⟨xs, hrep, hbytes⟩ := h.rep
  rcases hloop : pipewriteLoop (s.proc q).killed s.pipe bs with ⟨p, rest, stop⟩
  obtain ⟨put, hput, hrep', -, -, -⟩ := pipewriteLoop_spec _ hrep hloop
  have htake : bs.take (bs.length - rest.length) = put := by
    rw [hput, List.length_append, Nat.add_sub_cancel, List.take_left']
    rfl
  have hpipe : (Ipc.writeStretch s q bs).pipe = p := by simp only [Ipc.writeStretch, hloop]
  have hhist : (Ipc.writeStretch s q bs).hist = s.hist.store q put := by
    simp only [Ipc.writeStretch, hloop, htake]
  have hcalls' : (s.hist.store q put).calls q = { c with stored := c.stored + put.length } :: cs := by
    simp only [Hist.store, hcalls, storedMore, Function.update_self]
  have hother : ∀ q', q' ≠ q → (s.hist.store q put).calls q' = s.hist.calls q' :=
    fun q' hq => Function.update_of_ne hq _ _
  -- The bytes stored now are behind those that the call has stored before.
  have hlen : put.length ≤ c.addr.length - c.stored := by
    rw [← List.length_drop, hbs, hput, List.length_append]
    exact Nat.le_add_right _ _
  have hwithin := h.within q c (by rw [hcalls]; exact List.mem_cons_self ..)
  refine ⟨⟨xs ++ put, ?_, ?_⟩, fun q' => ?_, fun q' c' hc' => ?_, fun q' rest' hq' => ?_⟩
  · rw [hpipe, hhist]
    exact hrep'
  · rw [hhist]
    simp [Hist.store, hbytes, Function.comp_def]
  · rw [hhist, storedBy_store, h.order q']
    by_cases hq : q' = q
    · subst hq
      rw [if_pos rfl, hcalls', hcalls, supplied_cons, supplied_cons, List.append_assoc]
      congr 1
      rw [List.take_add, hbs, hput, List.take_left']
      rfl
    · rw [if_neg hq, hother q' hq, List.append_nil]
  · rw [hhist] at hc'
    by_cases hq : q' = q
    · subst hq
      rw [hcalls'] at hc'
      rcases List.mem_cons.mp hc' with rfl | hmem
      · dsimp only
        omega
      · exact h.within q' c' (by rw [hcalls]; exact List.mem_cons_of_mem _ hmem)
    · rw [hother q' hq] at hc'
      exact h.within q' c' hc'
  · rw [hhist]
    rcases writeStretch_pc q' rest' hq' with ⟨rfl, hrest⟩ | ⟨hq, hpc⟩
    · rw [hloop] at hrest
      refine ⟨_, _, hcalls', ?_⟩
      simp only [← hrest]
      rw [← List.drop_drop, hbs, hput, List.drop_left']
      rfl
    · rw [hother q' hq]
      exact h.writing q' rest' hpc

theorem readStretch_pc {q : ι} {n : Nat} (q' : ι) (rest : List UInt8)
    (h : ((readStretch s q n).proc q').pc = .pipewrite rest) : (s.proc q').pc = .pipewrite rest := by
  rcases hpass : pipereadPass (s.proc q).killed s.pipe n with ⟨p, stop⟩
  by_cases hq : q' = q
  · subst hq
    cases stop <;> simp only [readStretch, hpass, Function.update_self, reduceCtorEq] at h
  · cases stop <;>
      simpa only [readStretch, hpass, Function.update_of_ne hq, wakeup_pc] using h

theorem Fifo.readStretch (h : Fifo s) (q : ι) (n : Nat) : Fifo (readStretch s q n) := by
  obtain ⟨xs, hrep, hbytes⟩ := h.rep
  have hwriting : ∀ q' rest, ((Ipc.readStretch s q n).proc q').pc = .pipewrite rest →
      ∃ c cs, s.hist.calls q' = c :: cs ∧ c.addr.drop c.stored = rest :=
    fun q' rest hq' => h.writing q' rest (readStretch_pc q' rest hq')
  rcases hpass : pipereadPass (s.proc q).killed s.pipe n with ⟨p, stop⟩
  simp only [Ipc.readStretch, hpass] at hwriting ⊢
  rcases pipereadPass_spec hrep hpass with ⟨bs, rfl, -, hxs, hrep'⟩ | ⟨rfl, -, rfl⟩
  · refine ⟨⟨xs.drop n, ?_, ?_⟩, h.order, h.within, hwriting⟩
    · dsimp only
      rwa [List.length_append]
    · dsimp only
      rw [List.append_assoc, ← hxs]
      exact hbytes
  · cases hk : (s.proc q).killed <;> simp only [hk] at hwriting <;>
      exact ⟨⟨xs, hrep, hbytes⟩, h.order, h.within, hwriting⟩

theorem Fifo.step {e : Event ι} (h : Fifo s) (hs : step s e = some s') : Fifo s' := by
  cases Move.of_step hs with
  | call q addr hpc =>
    refine Fifo.writeStretch (s.hist.calls q) ⟨h.rep, fun q' => ?_, fun q' c hc => ?_,
      fun q' rest hq' => ?_⟩ (q := q) (c := ⟨addr, 0⟩) (Function.update_self ..) (List.drop_zero ..)
    · have hby : (s.hist.call q addr).storedBy q' = s.hist.storedBy q' := rfl
      dsimp only
      rw [hby, h.order q']
      by_cases hq : q' = q
      · subst hq
        simp [Hist.call, supplied_cons]
      · simp [Hist.call, Function.update_of_ne hq]
    · by_cases hq : q' = q
      · subst hq
        simp only [Hist.call, Function.update_self, List.mem_cons] at hc
        rcases hc with rfl | hc
        · exact Nat.zero_le _
        · exact h.within q' c hc
      · simp only [Hist.call, Function.update_of_ne hq] at hc
        exact h.within q' c hc
    · have hq : q' ≠ q := by
        rintro rfl
        rw [hpc] at hq'
        cases hq'
      simp only [Hist.call, Function.update_of_ne hq]
      exact h.writing q' rest hq'
  | write q rest _ hpc =>
    obtain ⟨c, cs, hcalls, hrest⟩ := h.writing q rest hpc
    exact h.writeStretch _ hcalls hrest
  | piperead q n _ => exact h.readStretch q n
  | read q n _ _ => exact h.readStretch q n
  | kill q =>
    refine ⟨h.rep, h.order, h.within, fun q' rest hq' => h.writing q' rest ?_⟩
    by_cases hq : q' = q
    · subst hq
      simpa using hq'
    · simpa [Function.update_of_ne hq] using hq'
  | close writable =>
    obtain ⟨xs, hrep, hbytes⟩ := h.rep
    unfold pipeclose
    split_ifs
    · refine ⟨⟨xs, ⟨hrep.holds, hrep.nread, hrep.nwrite⟩, hbytes⟩, h.order, h.within, fun q' rest hq' => ?_⟩
      exact h.writing q' rest (by simpa only [wakeup_pc] using hq')
    · refine ⟨⟨xs, ⟨hrep.holds, hrep.nread, hrep.nwrite⟩, hbytes⟩, h.order, h.within, fun q' rest hq' => ?_⟩
      exact h.writing q' rest (by simpa only [wakeup_pc] using hq')

theorem fifo_of_reach {ok : State ι → Event ι → Prop} (h : Reach step Init ok s) : Fifo s := by
  refine h.invariant ?_ fun _ _ _ hi _ hs => hi.step hs
  rintro s ⟨hr, hw, -, -, hproc, hstored, htaken, hcalls⟩
  refine ⟨⟨[], ⟨?_, ?_, ?_⟩, ?_⟩, fun q => ?_, fun q c hc => ?_, fun q rest hq => ?_⟩
  · exact Ring.Holds.nil ..
  · rw [hr, htaken]; rfl
  · rw [hw, htaken]; rfl
  · rw [hstored, htaken]; rfl
  · rw [Hist.storedBy, hstored, hcalls]; rfl
  · rw [hcalls] at hc
    cases hc
  · rw [(hproc q).1] at hq
    cases hq

/-- In every state of every run the counters differ by at most the ring's size; the bytes delivered
so far, followed by those in the ring, are the bytes stored; every writer's bytes are stored in the
order of its calls and within each call from the first byte on; and `piperead` returns 0 only for
an empty pipe without writers. -/
theorem pipe_is_fifo (h : Reach step Init Any s) :
    (s.pipe.nwrite - s.pipe.nread).toNat ≤ PIPESIZE.toNat ∧
    s.hist.stored.map Prod.snd = s.hist.taken ++ contents s.pipe ∧
    (∀ q, s.hist.storedBy q = supplied (s.hist.calls q) ∧
      ∀ c ∈ s.hist.calls q, c.stored ≤ c.addr.length) ∧
    ∀ killed n p', 0 < n → pipereadPass killed s.pipe n = (p', .returned []) →
      s.pipe.empty = true ∧ s.pipe.writeopen = false := by
  have hf := fifo_of_reach h
  obtain ⟨xs, hrep, hbytes⟩ := hf.rep
  refine ⟨?_, ?_, fun q => ⟨hf.order q, hf.within q⟩, fun _ _ _ => pipereadPass_nil⟩
  · rw [hrep.length_eq]
    exact hrep.holds.fits
  · rw [hrep.contents_eq, hbytes]

end Run

instance neZero_three : NeZero (3 : Nat) := ⟨Nat.succ_ne_zero 2⟩

/-- A new pipe, with three processes. -/
def fresh : State (Fin 3) where
  pipe := ⟨fun _ => 0, 0, 0, true, true⟩
  proc := fun _ => ⟨.user, none, false⟩
  hist := ⟨[], [], fun _ => []⟩

theorem init_fresh : Init fresh := ⟨rfl, rfl, rfl, rfl, fun _ => ⟨rfl, rfl⟩, rfl, rfl, fun _ => rfl⟩

/-- A reader sleeps, two processes write in turn, the reader takes three bytes of four. -/
def twoWriters : List (Event (Fin 3)) :=
  [.piperead 2 3, .pipewrite 0 [7], .pipewrite 1 [8, 9], .pipewrite 0 [10], .run 2]

theorem pipe_is_fifo_twoWriters :
    ∃ s, exec step fresh twoWriters = some s ∧ s.hist.taken = [7, 8, 9] ∧
      s.hist.stored.map Prod.snd = s.hist.taken ++ contents s.pipe := by
  have hrun : (exec step fresh twoWriters).any (fun s => s.hist.taken == [7, 8, 9]) = true := by
    decide +kernel
  obtain ⟨s, hs, htaken⟩ := (Option.any_eq_true _ _).mp hrun
  have hreach : Reach step Init Any s :=
    (Reach.start init_fresh).exec twoWriters (.any _ _) hs
  exact ⟨s, hs, beq_iff_eq.mp htaken, (pipe_is_fifo hreach).2.1⟩

end Chameleon.Ipc
