import Chameleon.Log.Cache

/-! Committing and recovering. Each disk write of `commit` and `recover_from_log` takes a durable
disk to a durable one, so a crash between any two of them loses nothing. -/

namespace Chameleon.Log
open Conc Conc.Logic Bio
variable {La : Area} {d₀ : Nat → Block} {V : Prop} {p q : Pid} {s : State} {g : Ghost}

namespace Com

/-- The owner of the log writes a block to disk; `k` is its progress afterwards. -/
def write (c : Com) (La : Area) (b : Nat) (d : Block) (k : Nat) : Com :=
  { c with
    disk := Function.update c.disk b d
    groups := if b = La.start ∧ d 0 ≠ 0 then c.groups ++ [c.cur] else c.groups
    cur := if b = La.start ∧ d 0 ≠ 0 then [] else c.cur
    installed := k }

/-- A disk write that keeps the disk durable and changes the contents of its own block only. -/
structure Writes (La : Area) (d₀ : Nat → Block) (c : Com) (b : Nat) (d : Block) (k : Nat) :
    Prop where
  durable : (c.write La b d k).Durable La d₀
  look : ∀ b', b' ≠ b → (c.write La b d k).look La d₀ b' = c.look La d₀ b'
  self : (c.write La b d k).look La d₀ b = d
  pend : ∀ b' ∈ (c.write La b d k).pend La, b' ∈ c.pend La ∧ b' ≠ b

variable {c : Com} {b k : Nat} {d : Block}

theorem not_home_start (La : Area) : ¬ La.Home La.start := by
  have := La.pos
  unfold Area.Home
  omega

theorem not_home_log {j : Nat} (h : j + 1 < La.size) : ¬ La.Home (La.start + j + 1) := by
  unfold Area.Home
  omega

@[simp] theorem write_disk_self : (c.write La b d k).disk b = d := Function.update_self ..

theorem write_disk_of_ne {b' : Nat} (h : b' ≠ b) : (c.write La b d k).disk b' = c.disk b' :=
  Function.update_of_ne h ..

section NotHeader
variable (hb : b ≠ La.start)
include hb

theorem write_groups : (c.write La b d k).groups = c.groups := if_neg fun h => hb h.1

theorem write_cur : (c.write La b d k).cur = c.cur := if_neg fun h => hb h.1

theorem write_head : (c.write La b d k).head La = c.head La := by
  rw [head, write_disk_of_ne hb.symm, head]

theorem write_committed : (c.write La b d k).committed d₀ = c.committed d₀ := by
  rw [committed, write_groups hb, committed]

theorem write_view : (c.write La b d k).view d₀ = c.view d₀ := by
  rw [view, write_cur hb, write_committed hb, view]

theorem write_look {b' : Nat} (h : b' ≠ b) :
    (c.write La b d k).look La d₀ b' = c.look La d₀ b' := by
  rw [look, write_view hb, write_disk_of_ne h, look]
  rfl

end NotHeader

/-- `write_log` writes a block of the log while the header is empty. -/
theorem writes_log (h : c.Durable La d₀) (hh : c.head La = []) (hlog : ¬ La.Home b)
    (hb : b ≠ La.start) : Writes La d₀ c b d k := by
  have ho := h.open hh
  have hh' : (c.write La b d k).head La = [] := (write_head hb).trans hh
  refine ⟨Open.durable ⟨fun b' hb' => ?_, ho.home, ho.nodup, ?_, ho.room⟩ hh',
    fun b' => write_look hb, ?_, fun b' hb' => ?_⟩
  · rw [write_committed hb, write_disk_of_ne (by rintro rfl; exact hlog hb'), ho.disk b' hb']
  · rw [write_cur hb]
    exact ho.mem
  · rw [look_of_log hlog, write_disk_self]
  · rw [pend, if_pos hh'] at hb'
    have hmem : b' ∈ c.lh := hb'
    refine ⟨by rwa [pend, if_pos hh], ?_⟩
    rintro rfl
    exact hlog (ho.home b' hmem)

/-- The header write that commits: the logged blocks are in the log. -/
theorem writes_seal (h : c.Durable La d₀) (hh : c.head La = []) (hd : header d = c.lh)
    (hne : c.lh ≠ []) (hroom : c.lh.length + 1 ≤ La.size)
    (hlog : ∀ j b, c.lh[j]? = some b → c.disk (La.start + j + 1) = c.view d₀ b) :
    Writes La d₀ c La.start d 0 := by
  have ho := h.open hh
  have hd0 : d 0 ≠ 0 := fun h0 => hne (hd ▸ header_eq_nil.mpr h0)
  have hcond : La.start = La.start ∧ d 0 ≠ 0 := ⟨rfl, hd0⟩
  have hh' : (c.write La La.start d 0).head La = c.lh := by rw [head, write_disk_self, hd]
  have hgroups : (c.write La La.start d 0).groups = c.groups ++ [c.cur] := if_pos hcond
  have hcom : (c.write La La.start d 0).committed d₀ = c.view d₀ := by
    rw [committed, hgroups, List.flatten_append, List.flatten_singleton, apply_append]
    rfl
  have hcur : (c.write La La.start d 0).cur = [] := if_pos hcond
  have hview : (c.write La La.start d 0).view d₀ = c.view d₀ := by
    rw [view, hcur, hcom]
    rfl
  refine ⟨Sealed.durable ⟨hcur, ?_, ?_, ?_, ?_, ?_⟩ (hh' ▸ hne), fun b' hb' => ?_, ?_,
    fun b' hb' => ?_⟩
  · rw [hh']; exact ho.home
  · rw [hh']; exact ho.nodup
  · rw [hh']; exact hroom
  · intro j hj
    have hj' : j < c.lh.length := hh' ▸ hj
    have hget : c.lh[j]? = some (((c.write La La.start d 0).head La).get ⟨j, hj⟩) := by
      simp only [hh', List.get_eq_getElem, List.getElem?_eq_getElem hj']
    rw [write_disk_of_ne (by omega), hcom, hlog j _ hget]
  · intro b' hb' hmem
    have hb'' : b' ∉ c.lh := by
      rw [hh'] at hmem
      exact hmem
    rw [write_disk_of_ne (by rintro rfl; exact not_home_start La hb'), hcom,
      ho.view_of_not_mem hb'', ho.disk b' hb']
  · rw [look, hview, write_disk_of_ne hb', look]
    rfl
  · rw [look_of_log (not_home_start La), write_disk_self]
  · have hmem : b' ∈ c.lh := by
      rw [pend, hh', if_neg hne] at hb'
      exact hb'
    refine ⟨by rwa [pend, if_pos hh], ?_⟩
    rintro rfl
    exact not_home_start La (ho.home _ hmem)

/-- `install_trans` writes the next block of the header to its home. -/
theorem writes_install (h : c.Durable La d₀) (hb : (c.head La)[c.installed]? = some b)
    (hd : d = c.committed d₀ b) : Writes La d₀ c b d (c.installed + 1) := by
  have hlt : c.installed < (c.head La).length := (List.getElem?_eq_some_iff.mp hb).1
  have hne : c.head La ≠ [] := List.ne_nil_of_length_pos (by omega)
  have hs := h.sealed hne
  have hdrop : (c.head La).drop c.installed = b :: (c.head La).drop (c.installed + 1) := by
    rw [List.drop_eq_getElem_cons hlt, (List.getElem?_eq_some_iff.mp hb).2]
  have hhome : La.Home b := hs.home b (List.mem_of_getElem? hb)
  have hstart : b ≠ La.start := by rintro rfl; exact not_home_start La hhome
  have hh' : (c.write La b d (c.installed + 1)).head La = c.head La := write_head hstart
  have hnot : b ∉ (c.head La).drop (c.installed + 1) := by
    have := hs.nodup.sublist (List.drop_sublist c.installed _)
    rw [hdrop] at this
    exact (List.nodup_cons.mp this).1
  have hview : c.view d₀ b = d := by
    rw [view, hs.cur, hd]
    rfl
  refine ⟨Sealed.durable ⟨?_, ?_, ?_, ?_, ?_, ?_⟩ (hh' ▸ hne), fun b' => write_look hstart, ?_,
    fun b' hb' => ?_⟩
  · rw [write_cur hstart]; exact hs.cur
  · rw [hh']; exact hs.home
  · rw [hh']; exact hs.nodup
  · rw [hh']; exact hs.room
  · intro j hj
    have hj' : j < (c.head La).length := hh' ▸ hj
    have hlog : ¬ La.Home (La.start + j + 1) := not_home_log (by have := hs.room; omega)
    have hget : ((c.write La b d (c.installed + 1)).head La).get ⟨j, hj⟩ =
        (c.head La).get ⟨j, hj'⟩ := by simp only [List.get_eq_getElem, hh']
    rw [write_disk_of_ne (by rintro rfl; exact hlog hhome), write_committed hstart, hget]
    exact hs.log j hj'
  · intro b' hb' hmem
    rw [hh'] at hmem
    rw [write_committed hstart]
    by_cases hbb : b' = b
    · rw [hbb, write_disk_self, hd]
    · rw [write_disk_of_ne hbb]
      refine hs.disk b' hb' ?_
      rw [hdrop, List.mem_cons]
      exact fun hor => hor.elim hbb hmem
  · cases hu : (c.write La b d (c.installed + 1)).up with
    | true => rw [look_of_home hhome hu, write_view hstart, hview]
    | false => rw [look_of_down hu, write_disk_self]
  · have hmem : b' ∈ (c.head La).drop (c.installed + 1) := by
      rw [pend, hh', if_neg hne] at hb'
      exact hb'
    refine ⟨?_, fun he => hnot (he ▸ hmem)⟩
    rw [pend, if_neg hne, hdrop]
    exact List.mem_cons_of_mem _ hmem

theorem Durable.cur_eq_nil (h : c.Durable La d₀) (hp : c.pend La = []) : c.cur = [] := by
  by_cases hh : c.head La = []
  · rw [pend, if_pos hh] at hp
    refine List.eq_nil_iff_forall_not_mem.mpr fun u hu => ?_
    have := ((h.open hh).mem u.blockno).mpr ⟨u, hu, rfl⟩
    simp [hp] at this
  · exact (h.sealed hh).cur

/-- The header write that erases the transaction, once nothing is pending. -/
theorem writes_erase (h : c.Durable La d₀) (hp : c.pend La = []) (hl : c.lh = [])
    (hd : header d = []) : Writes La d₀ c La.start d 0 := by
  have hd0 : ¬ (La.start = La.start ∧ d 0 ≠ 0) := fun hc => hc.2 (header_eq_nil.mp hd)
  have hh' : (c.write La La.start d 0).head La = [] := by rw [head, write_disk_self, hd]
  have hgroups : (c.write La La.start d 0).groups = c.groups := if_neg hd0
  have hcur : (c.write La La.start d 0).cur = c.cur := if_neg hd0
  have hcom : (c.write La La.start d 0).committed d₀ = c.committed d₀ := by
    rw [committed, hgroups, committed]
  have hview : (c.write La La.start d 0).view d₀ = c.view d₀ := by rw [view, hcur, hcom, view]
  have hcur' := h.cur_eq_nil hp
  have hlh : (c.write La La.start d 0).lh = [] := hl
  refine ⟨Open.durable ⟨fun b' hb' => ?_, ?_, ?_, fun b' => ?_, ?_⟩ hh', fun b' hb' => ?_, ?_,
    fun b' hb' => ?_⟩
  · rw [write_disk_of_ne (by rintro rfl; exact not_home_start La hb'), hcom,
      h.disk_eq_view hb' (by simp [hp]), view, hcur']
    rfl
  · simp [hlh]
  · simp [hlh]
  · simp [hlh, hcur, hcur']
  · rw [hlh]
    exact .inr La.pos
  · rw [look, hview, write_disk_of_ne hb', look]
    rfl
  · rw [look_of_log (not_home_start La), write_disk_self]
  · rw [pend, if_pos hh', hlh] at hb'
    simp at hb'

end Com

theorem HistWf.written {h : Hist} (hw : HistWf h) (hidle : ∀ p, h.op p = none) (b : Nat)
    (d : Block) : HistWf (h.written La b d) := by
  unfold Hist.written
  split
  · refine ⟨hw.lt, hw.inj, fun u hu => hw.old u ?_, fun u _ p => ?_, by simp, ?_⟩
    · simpa using hu
    · simp [hidle p]
    · refine List.pairwise_append.mpr ⟨hw.pair, List.pairwise_singleton .., ?_⟩
      intro G hG G' hG' u hu v hv
      obtain rfl := List.mem_singleton.mp hG'
      exact hw.sep u (List.mem_flatten.mpr ⟨G, hG, hu⟩) v hv
  · exact hw

section Owner
variable {H : List Entry} {P : Com → Prop}

open Prog (lift)

/-- The process commits or recovers, and knows `P` of the log. -/
def Owns (P : Com → Prop) (r : Rest) : Prop := ∃ c, r.com = some c ∧ P c

theorem owns_iff : Owns P (rest p s g) ↔ g.who = some p ∧ P (com s g) := by
  unfold Owns rest
  by_cases hw : g.who = some p
  · simp [hw]
  · simp [hw]

theorem transfer_dirty {i : Fin NBUF} (hd : (s.buf i).dirty = true) :
    transfer La s i = { s with
      disk := Function.update s.disk (s.buf i).blockno (s.buf i).data
      cache := s.cache.setBuf i { s.buf i with valid := true, dirty := false }
      hist := s.hist.written La (s.buf i).blockno (s.buf i).data } := by
  rw [transfer, if_pos hd]

/-- The buffer after a transfer, whichever way it went. -/
def transferred (s : State) (i : Fin NBUF) : Buf :=
  { s.buf i with
    valid := true
    dirty := false
    data := if (s.buf i).dirty then (s.buf i).data else s.disk (s.buf i).blockno }

theorem transfer_cache (La : Area) (s : State) (i : Fin NBUF) :
    (transfer La s i).cache = s.cache.setBuf i (transferred s i) := by
  cases hd : (s.buf i).dirty with
  | true =>
    rw [transfer_dirty hd]
    simp only [transferred, hd, if_true]
  | false =>
    rw [transfer, if_neg (by simp [hd])]
    simp only [State.setBuf, transferred, hd, Bool.false_eq_true, if_false]

theorem com_transfer {i : Fin NBUF} {b k : Nat} {d : Block} (hd : (s.buf i).dirty = true)
    (hb : (s.buf i).blockno = b) (hdata : (s.buf i).data = d) {g' : Ghost}
    (hg : g'.installed = k) : com (transfer La s i) g' = (com s g).write La b d k := by
  rw [transfer_dirty hd, hb, hdata, com, Com.write, hg]
  unfold Hist.written
  split <;> rfl

theorem Inv.transfer (h : Inv La d₀ s g) {i : Fin NBUF} {b k : Nat} {d : Block}
    (hwho : g.who = some p) (hh : (s.buf i).holder = some p) (hc : (s.buf i).caches b)
    (hd : (s.buf i).dirty = true) (hdata : (s.buf i).data = d)
    (hw : Com.Writes La d₀ (com s g) b d k) :
    Inv La d₀ (transfer La s i) { g.setMod i false with installed := k } := by
  have hcom : com (Log.transfer La s i) { g.setMod i false with installed := k } =
      (com s g).write La b d k := com_transfer hd hc.2 hdata rfl
  have hop : (s.hist.written La b d).op = s.hist.op := by
    unfold Hist.written
    split <;> rfl
  have hidle := h.idle (by simp [hwho])
  have hok := h.sound_setBuf (i := i) (x := { s.buf i with valid := true, dirty := false }) (m := false)
    ⟨h.refs i, fun _ => h.held, fun _ => rfl, fun _ => hc.1, fun hf => absurd hf Bool.false_ne_true⟩
  have hblock : (s.buf i).blockno = b := hc.2
  rw [transfer_dirty hd, hblock, hdata] at hcom ⊢
  -- Buffer `i` is clean now, and no other buffer caches its block.
  refine ⟨h.cache.setBuf fun _ hb' => hb', fun j => (hok j).refs, fun {j q} => (hok j).held q,
    fun {j} => (hok j).dirtyValid, fun {j} => (hok j).dev, fun {j} => (hok j).modHeld, fun {j b'} => ?_,
    fun hu b' hb' => ?_, ?_, ?_, fun _ q => ?_, fun hnone => ?_, h.who, fun hnone => ?_, fun hu => ?_,
    h.hist.written hidle b d⟩
  · rw [hcom]
    refine Bcache.forall_setBuf (P := fun j x => x.valid = true → x.caches b' → (g.setMod i false).mod j = false →
      x.data = ((com s g).write La b d k).look La d₀ b') (fun _ hcb _ => ?_) (fun j hj hv hcb hm => ?_) j
    · obtain rfl : b = b' := hc.2.symm.trans hcb.2
      rw [hw.self]
      exact hdata
    · have hbb : b' ≠ b := fun he => hj (h.cache.uniq hcb (he ▸ hc))
      rw [hw.look b' hbb]
      exact h.clean hv hcb ((g.setMod_of_ne hj false).symm.trans hm)
  · rw [hcom] at hb'
    obtain ⟨hpend, hbb⟩ := hw.pend b' hb'
    obtain ⟨j, hcj, hdj⟩ := h.pins hu b' hpend
    have hj : j ≠ i := by
      rintro rfl
      exact hbb (hcj.2.symm.trans hc.2)
    exact ⟨j, by rw [State.buf, Bcache.setBuf_of_ne _ hj]; exact ⟨hcj, hdj⟩⟩
  · rw [hcom]
    exact hw.durable
  · rw [hop]
    exact h.ops
  · rw [hop]
    exact hidle q
  · exact absurd (hwho.symm.trans hnone) (by simp)
  · exact absurd (hwho.symm.trans hnone) (by simp)
  · obtain ⟨h₁, h₂, h₃⟩ := h.down hu
    refine ⟨h₁, h₂, ?_⟩
    unfold Hist.written
    split
    · rfl
    · exact h₃

/-- `b->flags |= B_DIRTY` in `bwrite`. -/
def Marked (p : Pid) (i : Fin NBUF) (H : List Entry) (R : Rest → Prop) (s : State) (g : Ghost) :
    Prop := At p [] H R s g ∧ (s.buf i).holder = some p ∧ (s.buf i).dirty = true

theorem marked_stable (i : Fin NBUF) (R : Rest → Prop) :
    (logic La d₀ V).Stable p (Marked p i H R) := by
  intro s g s' g' hr hi h
  exact ⟨at_stable _ _ _ s g s' g' hr hi h.1, (hr.lock i).mpr h.2.1,
    (hr.locked i h.2.1).2.1.trans h.2.2⟩

theorem setDirty_spec (R : Rest → Prop) {e : Entry} (he : e ∈ H) :
    (logic La d₀ V).Triple p (At p [] H R) (lift (.setDirty e.buf))
      fun _ => Marked p e.buf H R := by
  refine Triple.once free (at_stable _ _ _) (fun s s' => answer_ne) fun s g _ s' hi hP _ hs => ?_
  obtain ⟨-, rfl⟩ := answer_eq hs
  have hok := hP.1.entry e he
  have hh : ∀ q, q ≠ p → (s.buf e.buf).holder ≠ some q := by
    intro q hq
    simpa [hok.holder] using Ne.symm hq
  have hmod : (g.setMod e.buf (g.mod e.buf)).mod = g.mod := Function.update_eq_self ..
  refine ⟨g.setMod e.buf (g.mod e.buf), ?_, fun q hq => Rely.setBuf rfl rfl (hh q hq) (hh q hq),
    ⟨⟨hP.1.ref, by simp, fun e' he' => ?_, ?_⟩, hP.2⟩, ?_, ?_⟩
  · exact hi.setBuf (fun _ => Iff.rfl) rfl (fun q hq => hi.held hq) (fun _ => hok.valid)
      hi.dev hi.modHeld (fun hv b hb hm => hi.clean hv hb hm) fun _ => rfl
  · have hok' := hP.1.entry e' he'
    by_cases hee : e'.buf = e.buf
    · refine ⟨?_, ?_, ?_, by rw [hmod]; exact hok'.mod, ?_⟩ <;> rw [hee, State.setBuf_self]
      · exact hok.holder
      · exact (hee ▸ hok'.caches :)
      · exact hok.valid
      · exact fun d hd => (congrArg (fun j => (s.buf j).data) hee).symm.trans (hok'.data d hd)
    · exact hok'.setBuf hee _ _
  · exact State.setBuf_locks (fun hl => hP.1.locks _ hl) fun j _ hl => hP.1.locks j hl
  · rw [State.setBuf_self]
    exact hok.holder
  · rw [State.setBuf_self]

theorem transfer_write_spec {i : Fin NBUF} {b : Nat} {d : Block} (k : Com → Nat)
    (hne : ∀ e ∈ H, e.blockno ≠ b)
    (hw : ∀ c, P c → c.Durable La d₀ → Com.Writes La d₀ c b d (k c)) :
    (logic La d₀ V).Triple p (Marked p i (⟨i, b, some d⟩ :: H) (Owns P)) (lift (.transfer i))
      fun _ => At p [] (⟨i, b, none⟩ :: H)
        (Owns fun c' => ∃ c, P c ∧ c.Durable La d₀ ∧ c' = c.write La b d (k c)) := by
  refine Triple.once free (marked_stable i _) (fun s s' => answer_ne) fun s g _ s' hi hP _ hs => ?_
  obtain ⟨-, rfl⟩ := answer_eq hs
  obtain ⟨⟨hheld, hown⟩, hholder, hdirty⟩ := hP
  obtain ⟨hwho, hPc⟩ := owns_iff.mp hown
  have hok := hheld.entry _ List.mem_cons_self
  have hdata := hok.data d rfl
  have hother : ∀ j, j ≠ i → (Log.transfer La s i).buf j = s.buf j := by
    rw [transfer_dirty hdirty]
    exact fun j hj => Bcache.setBuf_of_ne _ hj _
  have hself : (Log.transfer La s i).buf i = { s.buf i with valid := true, dirty := false } := by
    rw [transfer_dirty hdirty]
    exact Bcache.setBuf_self ..
  have hlock : ∀ j, ((Log.transfer La s i).buf j).holder = (s.buf j).holder := by
    intro j
    by_cases hj : j = i
    · rw [hj, hself]
    · rw [hother j hj]
  have hop : (Log.transfer La s i).hist.op = s.hist.op := by
    rw [transfer_dirty hdirty]
    unfold Hist.written
    split <;> rfl
  refine ⟨{ g.setMod i false with installed := k (com s g) },
    hi.transfer hwho hholder hok.caches hdirty hdata (hw _ hPc hi.durable), fun q hq => ?_,
    ⟨hheld.ref, by simp, fun e he => ?_, fun j hj => hheld.locks j ((hlock j).symm.trans hj)⟩,
    owns_iff.mpr ⟨hwho, com s g, hPc, hi.durable, com_transfer hdirty hok.caches.2 hdata rfl⟩⟩
  · refine ⟨fun _ => rfl, fun j _ => ?_, fun j => by rw [hlock j], fun j hj => ?_,
      congrFun hop q, Iff.rfl, fun hq' => ?_, fun hu => ?_⟩
    · by_cases hj : j = i
      · rw [hj, hself]
        exact ⟨rfl, rfl⟩
      · rw [hother j hj]
        exact ⟨rfl, rfl⟩
    · have hji : j ≠ i := by
        rintro rfl
        exact hq (Option.some.inj (hj.symm.trans hholder))
      rw [hother j hji]
      exact ⟨rfl, rfl, rfl, g.setMod_of_ne hji false⟩
    · exact absurd (Option.some.inj (hq'.symm.trans hwho)) hq
    · rw [transfer_dirty hdirty]
      exact hu
  · rcases List.mem_cons.mp he with rfl | he
    · refine ⟨?_, ?_, ?_, Ghost.setMod_self .., by simp⟩ <;> rw [hself]
      · exact hok.holder
      · exact hok.caches
    · have he' := hheld.entry e (List.mem_cons_of_mem _ he)
      have hei := ne_of_caches he'.caches hok.caches (hne e he)
      refine ⟨?_, ?_, ?_, (g.setMod_of_ne hei false).trans he'.mod, ?_⟩ <;> rw [hother _ hei]
      · exact he'.holder
      · exact he'.caches
      · exact he'.valid
      · exact he'.data

theorem bwrite_spec {i : Fin NBUF} {b : Nat} {d : Block} (k : Com → Nat)
    (hne : ∀ e ∈ H, e.blockno ≠ b)
    (hw : ∀ c, P c → c.Durable La d₀ → Com.Writes La d₀ c b d (k c)) :
    (logic La d₀ V).Triple p (At p [] (⟨i, b, some d⟩ :: H) (Owns P)) (bwrite i)
      fun _ => At p [] (⟨i, b, none⟩ :: H)
        (Owns fun c' => ∃ c, P c ∧ c.Durable La d₀ ∧ c' = c.write La b d (k c)) := by
  refine (holdingsleep_spec (at_stable _ _ _) fun s g h =>
    (h.1.entry _ List.mem_cons_self).holder).bind fun held => ?_
  rcases held with _ | _
  · exact Triple.panic fun _ _ _ h => absurd h.1 (by simp)
  · rw [if_pos rfl]
    refine (Triple.pre (setDirty_spec (e := ⟨i, b, some d⟩) (Owns P) List.mem_cons_self)
      fun s g _ h => h.2).bind fun _ => ?_
    refine iderw_spec i (marked_stable i _) (fun s g h => h.2.1) (fun s g h => ?_)
      (transfer_write_spec k hne hw)
    simp [h.2.2]

theorem At.perm {H' : List Entry} {R : Rest → Prop} (hp : H.Perm H') (h : At p [] H R s g) :
    At p [] H' R s g := by
  refine ⟨⟨fun i => ?_, h.1.wait, fun e he => h.1.entry e (hp.mem_iff.mpr he), fun i hi => ?_⟩, h.2⟩
  · rw [h.1.ref]
    exact ((hp.map Entry.buf).append_left _).count_eq i
  · exact ((hp.map Entry.buf).append_left _).mem_iff.mp (h.1.locks i hi)

theorem triple_perm {α : Type} {H' : List Entry} {R : Rest → Prop} (hp : H.Perm H') {x : M α}
    {Q : α → State → Ghost → Prop} (h : (logic La d₀ V).Triple p (At p [] H' R) x Q) :
    (logic La d₀ V).Triple p (At p [] H R) x Q := h.pre fun _ _ _ hat => hat.perm hp

theorem At.mono {W : List Wait} {R R' : Rest → Prop} (hR : ∀ r, R r → R' r)
    (h : At p W H R s g) : At p W H R' s g := ⟨h.1, hR _ h.2⟩

theorem Owns.mono {P' : Com → Prop} (hP : ∀ c, P c → P' c) (r : Rest) (h : Owns P r) :
    Owns P' r := h.imp fun c hc => ⟨hc.1, hP c hc.2⟩

theorem lh_spec :
    (logic La d₀ V).Triple p (At p [] H (Owns P)) (lift .lh)
      fun l => At p [] H (Owns fun c => P c ∧ c.lh = l) := by
  refine Triple.read free (at_stable _ _ _) (fun s r s' hs => ?_) fun s g l hi hP hs => ?_
  · exact (Prod.mk.inj (Option.some.inj hs)).2.symm
  · obtain ⟨rfl, -⟩ := answer_eq hs
    obtain ⟨hwho, hPc⟩ := owns_iff.mp hP.2
    exact ⟨hP.1, owns_iff.mpr ⟨hwho, hPc, rfl⟩⟩

theorem Com.Durable.setLh {c : Com} (h : c.Durable La d₀) {l : List Nat}
    (hl : c.head La = [] → c.lh = l) : ({ c with lh := l } : Com).Durable La d₀ := by
  by_cases hh : c.head La = []
  · rw [← hl hh]
    exact h
  · have hs := h.sealed hh
    exact Com.Sealed.durable (c := { c with lh := l })
      ⟨hs.cur, hs.home, hs.nodup, hs.room, hs.log, hs.disk⟩ hh

theorem Com.pend_setLh {c : Com} {l : List Nat} (hl : c.head La = [] → c.lh = l) :
    ({ c with lh := l } : Com).pend La = c.pend La := by
  by_cases hh : c.head La = []
  · rw [← hl hh]
  · have hh' : ({ c with lh := l } : Com).head La ≠ [] := hh
    rw [Com.pend, if_neg hh', Com.pend, if_neg hh]
    rfl

theorem setLh_spec (l : List Nat) (hl : ∀ c, P c → c.Durable La d₀ → c.head La = [] → c.lh = l) :
    (logic La d₀ V).Triple p (At p [] H (Owns P)) (lift (.setLh l))
      fun _ => At p [] H (Owns fun c' => ∃ c, P c ∧ c.Durable La d₀ ∧ c' = { c with lh := l }) := by
  refine Triple.once free (at_stable _ _ _) (fun s s' => answer_ne) fun s g _ s' hi hP _ hs => ?_
  obtain ⟨-, rfl⟩ := answer_eq hs
  obtain ⟨hwho, hPc⟩ := owns_iff.mp hP.2
  have hl' := hl _ hPc hi.durable
  have hpend : (com { s with lh := l } g).pend La = (com s g).pend La := Com.pend_setLh hl'
  refine ⟨g, ?_, fun q hq => ?_, hP.1.of_cache rfl rfl rfl,
    owns_iff.mpr ⟨hwho, com s g, hPc, hi.durable, rfl⟩⟩
  · exact { hi with pins := fun hu b hb => hi.pins hu b (hpend ▸ hb), durable := hi.durable.setLh hl' }
  · refine { Rely.refl q s g with com := fun hq' => ?_ }
    exact absurd (Option.some.inj (hq'.symm.trans hwho)) hq

/-- `memmove` between two buffers of the owner of the log. -/
theorem memmove_spec {i j : Fin NBUF} {b b' : Nat} (hbb : b ≠ b') :
    (logic La d₀ V).Triple p (At p [] [⟨i, b, none⟩, ⟨j, b', none⟩] (Owns P)) (memmove i j)
      fun _ s g => ∃ d, At p [] [⟨i, b, some d⟩, ⟨j, b', none⟩]
        (Owns fun c => P c ∧ c.look La d₀ b' = d) s g := by
  refine (data_spec (e := ⟨j, b', none⟩) (by simp)).bind fun d => ?_
  refine ((setData_spec i b none d (by simpa using hbb.symm)).pre fun s g _ h => ?_).post
    fun _ s g _ h => ⟨d, h⟩
  refine h.mono fun r hr => ?_
  obtain ⟨c, hc, hPc⟩ := hr.1
  exact ⟨c, hc, hPc, (hr.2 c hc).symm⟩

/-- One turn of the loops of `write_log` and `install_trans`: a block is copied to another one,
which is written to disk. -/
theorem copy_spec {α : Type} {i j : Fin NBUF} {b b' : Nat} (k : Com → Nat) (hbb : b ≠ b')
    (hw : ∀ c, P c → c.Durable La d₀ → Com.Writes La d₀ c b (c.look La d₀ b') (k c))
    {x : M α} {Q : α → State → Ghost → Prop}
    (hx : (logic La d₀ V).Triple p (At p [] []
      (Owns fun c' => ∃ c, P c ∧ c.Durable La d₀ ∧ c' = c.write La b (c.look La d₀ b') (k c))) x Q) :
    (logic La d₀ V).Triple p (At p [] [⟨i, b, none⟩, ⟨j, b', none⟩] (Owns P))
      (do memmove i j; bwrite i; brelse j; brelse i; x) Q := by
  refine (memmove_spec hbb).bind fun _ => Triple.exists fun d => ?_
  refine (bwrite_spec k (by simpa using hbb.symm) fun c hc hd => ?_).bind fun _ => ?_
  · rw [← hc.2]
    exact hw c hc.1 hd
  refine (triple_perm (List.Perm.swap ..) (brelse_spec (H := [⟨i, b, none⟩]) j b'
    (by simpa using hbb))).bind fun _ => ?_
  refine (brelse_spec i b (by simp)).bind fun _ => hx.pre fun s g _ h => h.mono (Owns.mono ?_)
  rintro _ ⟨c, hc, hd, rfl⟩
  exact ⟨c, hc.1, hd, by rw [hc.2]⟩

theorem bread_owned (b : Nat) :
    (logic La d₀ V).Triple p (At p [] H (Owns P)) (bread b)
      fun i => At p [] (⟨i, b, none⟩ :: H) (Owns fun c => P c ∧ c.Durable La d₀ ∧
        (¬ La.Home b → c.up = true → c.head La = [] → c.lh.length < NBUF)) := by
  refine (bread_spec b).post fun i s g hi h => ?_
  obtain ⟨hheld, hown, hroom⟩ := h
  obtain ⟨hwho, hPc⟩ := owns_iff.mp hown
  refine ⟨hheld, owns_iff.mpr ⟨hwho, hPc, hi.durable, fun hb => hroom hb _ ?_⟩⟩
  simp [rest, hwho]

theorem writeHead_spec
    (hw : ∀ c d, P c → c.Durable La d₀ → header d = c.lh → Com.Writes La d₀ c La.start d 0) :
    (logic La d₀ V).Triple p (At p [] [] (Owns P)) (writeHead La)
      fun _ => At p [] [] (Owns fun c' => ∃ c d, P c ∧ c.Durable La d₀ ∧ header d = c.lh ∧
        c' = c.write La La.start d 0) := by
  refine (bread_owned La.start).bind fun i => lh_spec.bind fun l => ?_
  refine (data_spec List.mem_cons_self).bind fun d => ?_
  refine (setData_spec i La.start none _ (by simp)).bind fun _ => ?_
  refine (Triple.pre (bwrite_spec (fun _ => 0) (by simp) fun c hc hd => ?_) fun s g _ h =>
    h.mono fun r hr => hr.1).bind fun _ => ?_
  · exact hw c _ hc.1.1 hd (by rw [header_putHeader, hc.2])
  refine (brelse_spec i La.start (by simp)).post fun _ s g _ h => h.mono (Owns.mono ?_)
  rintro _ ⟨c, hc, hd, rfl⟩
  exact ⟨c, _, hc.1.1, hd, by rw [header_putHeader, hc.2], rfl⟩

/-- `write_log` has copied the first `tail` of the logged blocks `l`. -/
structure Logging (La : Area) (d₀ : Nat → Block) (l : List Nat) (tail : Nat) (c : Com) : Prop where
  up : c.up = true
  head : c.head La = []
  lh : c.lh = l
  log : ∀ j b, j < tail → l[j]? = some b → c.disk (La.start + j + 1) = c.view d₀ b
  room : 0 < tail → l.length + 1 ≤ La.size

theorem Logging.tail_lt {l : List Nat} {tail : Nat} {c : Com} (h : Logging La d₀ l tail c)
    (hd : c.Durable La d₀) (ht : tail < l.length) : tail + 1 < La.size := by
  have hroom := (hd.open h.head).room
  rw [h.lh] at hroom
  have := h.room
  unfold LOGSIZE MAXOPBLOCKS at hroom
  omega

theorem Logging.write {l : List Nat} {tail b k : Nat} {c : Com} (h : Logging La d₀ l tail c)
    (hb : l[tail]? = some b) (hhome : La.Home b) (hroom : l.length + 1 ≤ La.size) :
    Logging La d₀ l (tail + 1) (c.write La (La.start + tail + 1) (c.look La d₀ b) k) := by
  have hstart : La.start + tail + 1 ≠ La.start := by omega
  refine ⟨h.up, (Com.write_head hstart).trans h.head, h.lh, fun j b' hj hb' => ?_, fun _ => hroom⟩
  rw [Com.write_view hstart]
  rcases Nat.lt_succ_iff_lt_or_eq.mp hj with hlt | rfl
  · rw [Com.write_disk_of_ne (by omega), h.log j b' hlt hb']
  · obtain rfl : b = b' := Option.some.inj (hb.symm.trans hb')
    rw [Com.write_disk_self, Com.look_of_home hhome h.up]

theorem drop_eq_cons {l bs : List Nat} {tail b : Nat} (h : l.drop tail = b :: bs) :
    tail < l.length ∧ l[tail]? = some b ∧ l.drop (tail + 1) = bs := by
  have hlt : tail < l.length := by
    by_contra hge
    rw [List.drop_eq_nil_of_le (by omega)] at h
    simp at h
  obtain ⟨hget, hrest⟩ := List.cons.inj ((List.drop_eq_getElem_cons hlt).symm.trans h)
  exact ⟨hlt, List.getElem?_eq_some_iff.mpr ⟨hlt, hget⟩, hrest⟩

-- Induction on the blocks left to copy.
theorem writeLogFrom_spec (l bs : List Nat) (tail : Nat) (hbs : l.drop tail = bs) :
    (logic La d₀ V).Triple p (At p [] [] (Owns (Logging La d₀ l tail))) (writeLogFrom La tail bs)
      fun _ => At p [] [] (Owns (Logging La d₀ l l.length)) := by
  induction bs generalizing tail with
  | nil =>
    have hle : l.length ≤ tail := List.drop_eq_nil_iff.mp hbs
    refine Triple.ret fun s g _ h => h.mono (Owns.mono fun c hc => ?_)
    exact ⟨hc.up, hc.head, hc.lh, fun j b hj => hc.log j b (by omega), fun hl => hc.room (by omega)⟩
  | cons b bs ih =>
    obtain ⟨hlt, hb, hrest⟩ := drop_eq_cons hbs
    refine Triple.assume (φ := tail + 1 < La.size ∧ La.Home b) (fun s g hi h => ?_) fun hφ => ?_
    · obtain ⟨-, hc⟩ := owns_iff.mp h.2
      have hmem : b ∈ (com s g).lh := hc.lh ▸ List.mem_of_getElem? hb
      exact ⟨hc.tail_lt hi.durable hlt, (hi.durable.open hc.head).home b hmem⟩
    obtain ⟨hsize, hhome⟩ := hφ
    have hlog := Com.not_home_log hsize
    have hne : La.start + tail + 1 ≠ b := by
      rintro rfl
      exact hlog hhome
    refine (bread_owned (La.start + tail + 1)).bind fun dst => ?_
    refine (bread_owned b).bind fun src => ?_
    refine triple_perm (List.Perm.swap ..) (copy_spec Com.installed hne (fun c hc hd => ?_) ?_)
    · exact Com.writes_log hd hc.1.1.head hlog (by omega)
    · refine (ih (tail + 1) hrest).pre fun s g _ h => h.mono (Owns.mono ?_)
      rintro _ ⟨c, ⟨⟨hc, hd, hn⟩, -⟩, -, rfl⟩
      refine hc.write hb hhome ?_
      have hroom := (hd.open hc.head).room
      have hnbuf := hn hlog hc.up hc.head
      rw [hc.lh] at hroom hnbuf
      unfold LOGSIZE MAXOPBLOCKS at hroom
      unfold NBUF MAXOPBLOCKS at hnbuf
      omega

/-- `install_trans` has installed the first `tail` blocks of the header `l`. -/
structure Installing (La : Area) (u : Bool) (l : List Nat) (tail : Nat) (c : Com) : Prop where
  up : c.up = u
  head : c.head La = l
  lh : c.lh = l
  installed : c.installed = tail

theorem installFrom_spec (u : Bool) (l bs : List Nat) (tail : Nat) (hbs : l.drop tail = bs)
    (hle : tail ≤ l.length) :
    (logic La d₀ V).Triple p (At p [] [] (Owns (Installing La u l tail))) (installFrom La tail bs)
      fun _ => At p [] [] (Owns (Installing La u l l.length)) := by
  induction bs generalizing tail with
  | nil =>
    obtain rfl : tail = l.length := Nat.le_antisymm hle (List.drop_eq_nil_iff.mp hbs)
    exact Triple.ret fun s g _ h => h
  | cons b bs ih =>
    obtain ⟨hlt, hb, hrest⟩ := drop_eq_cons hbs
    have hl : l ≠ [] := List.ne_nil_of_length_pos (by omega)
    -- The header lists home blocks only, and the log holds a copy of each.
    refine Triple.assume (φ := tail + 1 < La.size ∧ La.Home b) (fun s g hi h => ?_) fun hφ => ?_
    · obtain ⟨-, hc⟩ := owns_iff.mp h.2
      have hs := hi.durable.sealed (hc.head ▸ hl)
      have hroom := hs.room
      rw [hc.head] at hroom
      exact ⟨by omega, hs.home b (hc.head ▸ List.mem_of_getElem? hb)⟩
    obtain ⟨hsize, hhome⟩ := hφ
    have hlog := Com.not_home_log hsize
    have hne : b ≠ La.start + tail + 1 := by
      rintro rfl
      exact hlog hhome
    have hstart : b ≠ La.start := by
      rintro rfl
      exact Com.not_home_start La hhome
    refine (bread_owned (La.start + tail + 1)).bind fun lbuf => ?_
    refine (bread_owned b).bind fun dbuf => ?_
    refine copy_spec (fun c => c.installed + 1) hne (fun c hc hd => ?_) ?_
    · obtain ⟨hu, hh, -, hk⟩ := hc.1.1
      have hb' : (c.head La)[c.installed]? = some b := by rw [hh, hk, hb]
      refine Com.writes_install hd hb' ?_
      have hs := hd.sealed (hh ▸ hl)
      have hlt' : tail < (c.head La).length := hh ▸ hlt
      rw [Com.look_of_log hlog, hs.log tail hlt']
      congr 1
      rw [List.get_eq_getElem]
      exact (List.getElem?_eq_some_iff.mp (hk ▸ hb')).2
    · refine (ih (tail + 1) hrest hlt).pre fun s g _ h => h.mono (Owns.mono ?_)
      rintro _ ⟨c, ⟨⟨hc, -⟩, -⟩, -, rfl⟩
      exact ⟨hc.up, (Com.write_head hstart).trans hc.head, hc.lh, congrArg (· + 1) hc.installed⟩

/-- The last part of `commit` and of `recover_from_log`: the blocks the header names are
installed, and the transaction is erased. -/
theorem install_spec (u : Bool) :
    (logic La d₀ V).Triple p
      (At p [] [] (Owns fun c => c.up = u ∧ c.lh = c.head La ∧ c.installed = 0))
      (do installTrans La; lift (.setLh []); writeHead La)
      fun _ => At p [] [] (Owns fun c => c.up = u ∧ c.head La = [] ∧ c.lh = []) := by
  have hinstall : (logic La d₀ V).Triple p
      (At p [] [] (Owns fun c => c.up = u ∧ c.lh = c.head La ∧ c.installed = 0))
      (installTrans La) fun _ => At p [] [] (Owns fun c => ∃ l, Installing La u l l.length c) := by
    refine lh_spec.bind fun l => ?_
    refine (Triple.pre (installFrom_spec u l l 0 rfl (Nat.zero_le _)) fun s g _ h =>
      h.mono (Owns.mono fun c hc => ?_)).post fun _ s g _ h => h.mono (Owns.mono fun c hc => ⟨l, hc⟩)
    exact ⟨hc.1.1, hc.1.2.1 ▸ hc.2, hc.2, hc.1.2.2⟩
  refine hinstall.bind fun _ => (setLh_spec [] ?_).bind fun _ => ?_
  · rintro c ⟨l, hc⟩ - hh
    rw [hc.lh, ← hc.head, hh]
  refine (writeHead_spec ?_).post fun _ s g _ h => h.mono (Owns.mono ?_)
  · rintro _ d ⟨c, ⟨l, hc⟩, -, rfl⟩ hd hh
    refine Com.writes_erase hd ?_ rfl hh
    by_cases hl : l = []
    · exact if_pos (hc.head.trans hl)
    · refine (if_neg fun he => hl (hc.head.symm.trans he)).trans ?_
      exact List.drop_eq_nil_of_le (by rw [hc.installed]; exact (congrArg List.length hc.head).le)
  · rintro _ ⟨_, d, ⟨c, ⟨l, hc⟩, -, rfl⟩, -, hh, rfl⟩
    exact ⟨hc.up, by rw [Com.head, Com.write_disk_self]; exact hh, rfl⟩

theorem Com.Durable.cur_of_lh {c : Com} (h : c.Durable La d₀) (hh : c.head La = [])
    (hl : c.lh = []) : c.cur = [] := h.cur_eq_nil (by rw [Com.pend, if_pos hh, hl])

theorem commit_spec :
    (logic La d₀ V).Triple p (At p [] [] (Owns fun c => c.up = true ∧ c.head La = [])) (commit La)
      fun _ => At p [] [] (Owns fun c => c.up = true ∧ c.head La = [] ∧ c.lh = []) := by
  refine lh_spec.bind fun l => ?_
  split
  · rename_i hl
    exact Triple.ret fun s g _ h => h.mono (Owns.mono fun c hc => ⟨hc.1.1, hc.1.2, hc.2.trans hl⟩)
  · rename_i hl
    have hlog : (logic La d₀ V).Triple p
        (At p [] [] (Owns fun c => (c.up = true ∧ c.head La = []) ∧ c.lh = l)) (writeLog La)
        fun _ => At p [] [] (Owns (Logging La d₀ l l.length)) := by
      refine lh_spec.bind fun l' => ?_
      refine Triple.assume (φ := l' = l) (fun s g _ h => ?_) fun hl' => ?_
      · obtain ⟨-, hc⟩ := owns_iff.mp h.2
        exact hc.2.symm.trans hc.1.2
      subst hl'
      refine (writeLogFrom_spec l' l' 0 rfl).pre fun s g _ h => h.mono (Owns.mono fun c hc => ?_)
      exact ⟨hc.1.1.1, hc.1.1.2, hc.2, by simp, by simp⟩
    have hlen : 0 < l.length := List.length_pos_iff.mpr hl
    refine hlog.bind fun _ => (writeHead_spec fun c d hc hd hh => ?_).bind fun _ => ?_
    · refine Com.writes_seal hd hc.head hh (hc.lh ▸ hl) (hc.lh ▸ hc.room hlen) ?_
      rw [hc.lh]
      exact fun j b hb => hc.log j b (List.getElem?_eq_some_iff.mp hb).1 hb
    · refine (install_spec true).pre fun s g _ h => h.mono (Owns.mono ?_)
      rintro _ ⟨c, d, hc, -, hh, rfl⟩
      exact ⟨hc.up, by rw [Com.head, Com.write_disk_self]; exact hh.symm, rfl⟩

theorem recoverFromLog_spec :
    (logic La d₀ V).Triple p
      (At p [] [] (Owns fun c => c.up = false ∧ c.cur = [] ∧ c.installed = 0)) (recoverFromLog La)
      fun _ => At p [] [] (Owns fun c => c.up = false ∧ c.head La = [] ∧ c.lh = []) := by
  have hread : (logic La d₀ V).Triple p
      (At p [] [] (Owns fun c => c.up = false ∧ c.cur = [] ∧ c.installed = 0)) (readHead La)
      fun _ => At p [] [] (Owns fun c => c.up = false ∧ c.lh = c.head La ∧ c.installed = 0) := by
    refine (bread_owned La.start).bind fun i => (data_spec List.mem_cons_self).bind fun d => ?_
    refine (Triple.pre (P := At p [] [⟨i, La.start, none⟩] (Owns fun c =>
      (c.up = false ∧ c.cur = [] ∧ c.installed = 0) ∧ c.head La = header d))
      ((setLh_spec (header d) ?_).bind fun _ => ?_) fun s g _ h => ⟨h.1, ?_⟩)
    · rintro c ⟨⟨-, hcur, -⟩, hh⟩ hd hnil
      rw [← hh, hnil]
      refine List.eq_nil_iff_forall_not_mem.mpr fun b hb => ?_
      obtain ⟨u, hu, -⟩ := ((hd.open hnil).mem b).mp hb
      simp [hcur] at hu
    · refine (brelse_spec i La.start (by simp)).post fun _ s g _ h => h.mono (Owns.mono ?_)
      rintro _ ⟨c, hc, -, rfl⟩
      exact ⟨hc.1.1, hc.2.symm, hc.1.2.2⟩
    · obtain ⟨⟨c, hc, hPc⟩, hdata⟩ := h.2
      refine ⟨c, hc, hPc.1, ?_⟩
      rw [hdata c hc, Option.getD_none, Com.look_of_log (Com.not_home_start La), Com.head]
  exact hread.bind fun _ => install_spec false

end Owner

end Chameleon.Log
