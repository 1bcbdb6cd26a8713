import Chameleon.Log.Commit

/-! Operations between `begin_op` and `end_op`, and the whole system: every thread of the log keeps
the invariant in every interleaving, through crashes. -/

namespace Chameleon.Log
open Conc Conc.Logic Bio
open Prog (lift)
variable {La : Area} {d₀ : Nat → Block} {V : Prop} {p q : Pid} {s : State} {g : Ghost} {H : List Entry}

/-- A process outside any operation, which holds no buffer. -/
def Idle (p : Pid) : State → Ghost → Prop := At p [] [] fun r => r.op = none ∧ r.com = none

/-- A process in an operation. -/
def InOp (r : Rest) : Prop := r.op ≠ none ∧ r.com = none

theorem rest_com_eq_none : (rest p s g).com = none ↔ g.who ≠ some p := by
  unfold rest
  by_cases hw : g.who = some p <;> simp [hw]

def Ghost.setWho (g : Ghost) (w : Option Pid) : Ghost := { g with who := w }

theorem endCommit_spec :
    (logic La d₀ V).Triple p (At p [] [] (Owns fun c => c.up = true ∧ c.head La = [] ∧ c.lh = []))
      (lift .endCommit) fun _ => Idle p := by
  refine Triple.once free (at_stable _ _ _) (fun s s' => answer_ne) fun s g _ s' hi hP _ hs => ?_
  obtain ⟨-, rfl⟩ := answer_eq hs
  obtain ⟨hwho, hu, hh, hl⟩ := owns_iff.mp hP.2
  have hidle := hi.idle (by simp [hwho])
  have hcur : s.hist.cur = [] := hi.durable.cur_of_lh hh hl
  have hup : s.up = true := hu
  refine ⟨g.setWho none, ?_, fun q hq => ?_, hP.1.of_cache rfl rfl rfl, hidle p, ?_⟩
  · exact { hi with
      idle := fun _ => hidle
      quiet := fun _ => hh
      who := by simp [Ghost.setWho, hup]
      settled := fun _ _ => hcur
      down := fun hd => absurd (hup.symm.trans hd) (by simp) }
  · refine { Rely.refl q s g with who := ?_, com := fun hq' => ?_ }
    · simpa [Ghost.setWho, hwho] using Ne.symm hq
    · exact absurd (Option.some.inj (hq'.symm.trans hwho)) hq
  · exact rest_com_eq_none.mpr (by simp [Ghost.setWho])

theorem ready_spec :
    (logic La d₀ V).Triple p (At p [] [] (Owns fun c => c.up = false ∧ c.head La = [] ∧ c.lh = []))
      (lift .ready) fun _ => Idle p := by
  refine Triple.once free (at_stable _ _ _) (fun s s' => answer_ne) fun s g _ s' hi hP _ hs => ?_
  obtain ⟨-, rfl⟩ := answer_eq hs
  obtain ⟨hwho, hu, hh, hl⟩ := owns_iff.mp hP.2
  have hidle := hi.idle (by simp [hwho])
  have hcur : s.hist.cur = [] := hi.durable.cur_of_lh hh hl
  have ho := hi.durable.open hh
  have hdur : (com { s with up := true } (g.setWho none)).Durable La d₀ :=
    Com.Open.durable ⟨ho.disk, ho.home, ho.nodup, ho.mem, ho.room⟩ hh
  have hpend' : (com { s with up := true } (g.setWho none)).pend La = [] :=
    (Com.pend_of_head hh).trans hl
  refine ⟨g.setWho none, ?_, fun q hq => ?_, hP.1.of_cache rfl rfl rfl, hidle p, ?_⟩
  · refine { hi with
      clean := fun {i b} hv hc hm => ?_
      pins := fun _ b hb => by simp [hpend'] at hb
      durable := hdur
      idle := fun _ => hidle
      quiet := fun _ => hh
      who := by simp [Ghost.setWho, (hi.down hu).1]
      settled := fun _ _ => hcur
      down := by simp }
    rw [Com.look_eq_disk hdur (by simp [hpend']), hi.clean hv hc hm, Com.look_of_down hu]
    rfl
  · refine { Rely.refl q s g with who := ?_, com := fun hq' => ?_, up := fun _ => rfl }
    · simpa [Ghost.setWho, hwho] using Ne.symm hq
    · exact absurd (Option.some.inj (hq'.symm.trans hwho)) hq
  · exact rest_com_eq_none.mpr (by simp [Ghost.setWho])

theorem initlog_spec :
    (logic La d₀ V).Triple p
      (At p [] [] (Owns fun c => c.up = false ∧ c.cur = [] ∧ c.installed = 0)) (initlog La)
      fun _ => Idle p := recoverFromLog_spec.bind fun _ => ready_spec

section Ops

theorem card_enter {f : Pid → Option Nat} (hp : f p = none) (o : Nat) :
    (Finset.univ.filter fun q => Function.update f p (some o) q ≠ none).card =
      (Finset.univ.filter fun q => f q ≠ none).card + 1 := by
  rw [← Finset.card_insert_of_notMem (a := p) (by simp [hp])]
  congr 1
  ext q
  by_cases hq : q = p
  · simp [hq]
  · simp [hq]

theorem card_leave {f : Pid → Option Nat} (hp : f p ≠ none) :
    (Finset.univ.filter fun q => Function.update f p none q ≠ none).card =
      (Finset.univ.filter fun q => f q ≠ none).card - 1 := by
  rw [← Finset.card_erase_of_mem (a := p) (by simpa using hp)]
  congr 1
  ext q
  by_cases hq : q = p
  · simp [hq]
  · simp [hq]

theorem HistWf.enter {h : Hist} (hw : HistWf h) (p : Pid) :
    HistWf { h with op := Function.update h.op p (some h.nextOp), nextOp := h.nextOp + 1 } := by
  refine ⟨fun {q o} hq => ?_, fun {q q' o} hq hq' => ?_, fun u hu => ?_, fun u hu q hq => ?_,
    hw.sep, hw.pair⟩
  · by_cases hqp : q = p
    · subst hqp
      obtain rfl : h.nextOp = o := by simpa using hq
      exact Nat.lt_succ_self _
    · exact Nat.lt_succ_of_lt (hw.lt (by simpa [Function.update_of_ne hqp] using hq))
  · by_cases hqp : q = p <;> by_cases hqp' : q' = p
    · rw [hqp, hqp']
    · have h₁ : h.nextOp = o := by simpa [hqp] using hq
      have h₂ : o < h.nextOp := hw.lt (by simpa [Function.update_of_ne hqp'] using hq')
      omega
    · have h₁ : h.nextOp = o := by simpa [hqp'] using hq'
      have h₂ : o < h.nextOp := hw.lt (by simpa [Function.update_of_ne hqp] using hq)
      omega
    · exact hw.inj (by simpa [Function.update_of_ne hqp] using hq)
        (by simpa [Function.update_of_ne hqp'] using hq')
  · exact Nat.lt_succ_of_lt (hw.old u hu)
  · by_cases hqp : q = p
    · have h₁ : h.nextOp = u.op := by simpa [hqp] using hq
      have h₂ := hw.old u (List.mem_append_left _ hu)
      omega
    · exact hw.gone u hu q (by simpa [Function.update_of_ne hqp] using hq)

theorem HistWf.leave {h : Hist} (hw : HistWf h) (p : Pid) :
    HistWf { h with op := Function.update h.op p none } := by
  have hback : ∀ {q o}, Function.update h.op p none q = some o → h.op q = some o := by
    intro q o hq
    by_cases hqp : q = p
    · simp [hqp] at hq
    · simpa [Function.update_of_ne hqp] using hq
  exact ⟨fun hq => hw.lt (hback hq), fun hq hq' => hw.inj (hback hq) (hback hq'), hw.old,
    fun u hu q hq => hw.gone u hu q (hback hq), hw.sep, hw.pair⟩

theorem HistWf.append {h : Hist} (hw : HistWf h) {o : Nat} (hp : h.op p = some o) (b : Nat)
    (d : Block) : HistWf { h with cur := h.cur ++ [⟨o, b, d⟩] } := by
  refine ⟨hw.lt, hw.inj, fun u hu => ?_, hw.gone, fun u hu v hv => ?_, hw.pair⟩
  · rw [← List.append_assoc] at hu
    rcases List.mem_append.mp hu with hu | hu
    · exact hw.old u hu
    · obtain rfl := List.mem_singleton.mp hu
      exact hw.lt hp
  · rcases List.mem_append.mp hv with hv | hv
    · exact hw.sep u hu v hv
    · obtain rfl := List.mem_singleton.mp hv
      exact fun he => hw.gone u hu p (he ▸ hp)

end Ops

theorem Inv.who_of_up (h : Inv La d₀ s g) (hu : s.up = true) (hc : s.committing = false) :
    g.who = none := by simpa [hu, hc] using h.who

/-- While an operation runs nobody commits. -/
theorem Inv.who_of_op (h : Inv La d₀ s g) (hp : s.hist.op p ≠ none) : g.who = none := by
  by_contra hw
  exact hp (h.idle hw p)

theorem Inv.up_of_op (h : Inv La d₀ s g) (hp : s.hist.op p ≠ none) : s.up = true := by
  have hflags : (s.committing || !s.up) = false := by rw [← h.who, h.who_of_op hp]; rfl
  simpa using (Bool.or_eq_false_iff.mp hflags).2

theorem beginOp_spec :
    (logic La d₀ V).Triple p (fun s g => Idle p s g ∧ s.up = true) (lift .beginOp)
      fun _ => At p [] [] InOp := by
  refine Triple.act free (fun s g s' g' hr hi h => ⟨at_stable _ _ _ s g s' g' hr hi h.1, hr.up h.2⟩)
    (fun s g s' hi hP _ hs => ?_) fun s g _ s' hi hP _ hs => ?_
  · simp only [logic, sem] at hs
    split at hs
    · simp at hs
    · split at hs
      · obtain rfl : s.sleepOn p = s' := by simpa using hs
        exact ⟨g, { hi with }, fun q => { Rely.refl q s g with }⟩
      · exact absurd hs answer_ne
  · simp only [logic, sem] at hs
    split at hs
    · simp at hs
    · split at hs
      · simp at hs
      · rename_i hfull
        obtain ⟨-, rfl⟩ := answer_eq hs
        obtain ⟨⟨hheld, hop, hcom⟩, hup⟩ := hP
        have hop : s.hist.op p = none := hop
        have hnot : s.committing = false := by
          by_contra hc
          exact hfull (by simp [State.full, hc])
        have hwho := hi.who_of_up hup hnot
        refine ⟨g, ?_, fun q hq => ?_, hheld.of_cache rfl rfl rfl, ?_, ?_⟩
        · refine { hi with
            ops := ?_
            idle := fun hne => absurd hwho hne
            settled := fun _ h0 => absurd h0 (Nat.succ_ne_zero _)
            hist := hi.hist.enter p }
          change s.outstanding + 1 = _
          rw [hi.ops]
          exact (card_enter hop _).symm
        · exact { Rely.refl q s g with op := Function.update_of_ne hq .. }
        · simp [rest, enterOp]
        · exact rest_com_eq_none.mpr (by simp [hwho])

theorem endOp_action_spec :
    (logic La d₀ V).Triple p (At p [] [] InOp) (lift .endOp) fun r s g =>
      (r = some true ∧ At p [] [] (Owns fun c => c.up = true ∧ c.head La = []) s g) ∨
        (r = some false ∧ Idle p s g) := by
  refine Triple.once free (at_stable _ _ _) (fun s s' hs => ?_) fun s g r s' hi hP _ hs => ?_
  · simp only [logic, sem] at hs
    split at hs <;> exact answer_ne hs
  obtain ⟨hheld, hop, hcom⟩ := hP
  have hop : s.hist.op p ≠ none := hop
  have hwho := hi.who_of_op hop
  have hflags : (s.committing || !s.up) = false := by rw [← hi.who, hwho]; rfl
  obtain ⟨hnot, hup⟩ : s.committing = false ∧ s.up = true := by simpa using hflags
  simp only [logic, sem] at hs
  rw [if_neg (by simp [hnot])] at hs
  obtain ⟨rfl, rfl⟩ := answer_eq hs
  have hops : s.outstanding - 1 =
      (Finset.univ.filter fun q => (leave p s).hist.op q ≠ none).card := by
    rw [hi.ops]
    exact (card_leave hop).symm
  have hothers : ∀ q, q ≠ p → Rely q s g (leave p s) g := fun q hq =>
    { Rely.refl q s g with op := Function.update_of_ne hq .. }
  by_cases hlast : s.outstanding - 1 = 0
  · have hnone : ∀ q, (leave p s).hist.op q = none := by
      intro q
      have hcard := Finset.card_eq_zero.mp (hops.symm.trans hlast)
      by_contra hq
      exact Finset.notMem_empty q (hcard ▸ Finset.mem_filter.mpr ⟨Finset.mem_univ q, hq⟩)
    refine ⟨g.setWho (some p), ?_, fun q hq => ?_, .inl ⟨by simp [hlast], hheld.of_cache rfl rfl rfl,
      owns_iff.mpr ⟨rfl, hup, hi.quiet hwho⟩⟩⟩
    · exact { hi with
        ops := hops
        idle := fun _ => hnone
        quiet := fun hn => absurd hn (by simp [Ghost.setWho])
        who := by simp [leave, Ghost.setWho, hlast]
        settled := fun hn => absurd hn (by simp [Ghost.setWho])
        down := fun hd => absurd (hup.symm.trans hd) (by simp)
        hist := hi.hist.leave p }
    · exact { hothers q hq with
        who := by simpa [Ghost.setWho, hwho] using Ne.symm hq
        com := fun hq' => absurd (hwho.symm.trans hq') (by simp) }
  · refine ⟨g, ?_, hothers, .inr ⟨by simp [hlast], hheld.of_cache rfl rfl rfl, ?_, ?_⟩⟩
    · exact { hi with
        ops := hops
        idle := fun hne => absurd hwho hne
        who := by simp [leave, hwho, hlast, hnot, hup]
        settled := fun _ h0 => absurd h0 hlast
        down := fun hd => absurd (hup.symm.trans hd) (by simp)
        hist := hi.hist.leave p }
    · simp [rest, leave]
    · exact rest_com_eq_none.mpr (by simp [hwho])

theorem endOp_spec : (logic La d₀ V).Triple p (At p [] [] InOp) (endOp La) fun _ => Idle p := by
  refine endOp_action_spec.bind fun r => ?_
  rcases r with _ | _ | _
  · exact Triple.panic fun s g _ h => by simp at h
  · exact Triple.ret fun s g _ h => by simpa using h
  · exact (commit_spec.pre fun s g _ h => by simpa using h).bind fun _ => endCommit_spec

theorem Com.Open.append {c : Com} (h : c.Open La d₀) {b : Nat} (hb : La.Home b)
    (hroom : LOGSIZE ≤ La.size ∨ b ∈ c.lh ∨ c.lh.length + 1 < La.size) (o : Nat) (d : Block) :
    ({ c with lh := if b ∈ c.lh then c.lh else c.lh ++ [b], cur := c.cur ++ [⟨o, b, d⟩] } : Com).Open
      La d₀ := by
  by_cases hmem : b ∈ c.lh
  · refine ⟨h.disk, ?_, ?_, fun b' => ?_, ?_⟩ <;> simp only [if_pos hmem]
    · exact h.home
    · exact h.nodup
    · rw [h.mem b']
      constructor
      · rintro ⟨u, hu, rfl⟩
        exact ⟨u, List.mem_append_left _ hu, rfl⟩
      · rintro ⟨u, hu, rfl⟩
        rcases List.mem_append.mp hu with hu | hu
        · exact ⟨u, hu, rfl⟩
        · obtain rfl := List.mem_singleton.mp hu
          exact (h.mem b).mp hmem
    · exact h.room
  · refine ⟨h.disk, ?_, ?_, fun b' => ?_, ?_⟩ <;> simp only [if_neg hmem]
    · intro b' hb'
      rcases List.mem_append.mp hb' with hb' | hb'
      · exact h.home b' hb'
      · rwa [List.mem_singleton.mp hb']
    · exact List.nodup_append.mpr ⟨h.nodup, List.nodup_singleton b, by
        rintro x hx _ hy rfl
        exact hmem (List.mem_singleton.mp hy ▸ hx)⟩
    · rw [List.mem_append, h.mem b', List.mem_singleton]
      constructor
      · rintro (⟨u, hu, rfl⟩ | rfl)
        · exact ⟨u, List.mem_append_left _ hu, rfl⟩
        · exact ⟨_, List.mem_append_right _ List.mem_cons_self, rfl⟩
      · rintro ⟨u, hu, rfl⟩
        rcases List.mem_append.mp hu with hu | hu
        · exact .inl ⟨u, hu, rfl⟩
        · rw [List.mem_singleton.mp hu]
          exact .inr rfl
    · rw [List.length_append, List.length_singleton]
      rcases hroom with hroom | hroom | hroom
      · exact .inl hroom
      · exact absurd hroom hmem
      · exact .inr hroom

theorem Inv.append (h : Inv La d₀ s g) {i : Fin NBUF} {b o : Nat} (hb : La.Home b)
    (hop : s.hist.op p = some o) (hc : (s.buf i).caches b) (hv : (s.buf i).valid = true)
    (hroom : LOGSIZE ≤ La.size ∨ b ∈ s.lh ∨ s.lh.length + 1 < La.size) :
    Inv La d₀ (append p s i) (g.setMod i false) := by
  have hwho := h.who_of_op (p := p) (by simp [hop])
  have hh := h.quiet hwho
  have ho := h.durable.open hh
  have hup := h.up_of_op (p := p) (by simp [hop])
  have hcom : com (Log.append p s i) (g.setMod i false) = { com s g with
      lh := if b ∈ (com s g).lh then (com s g).lh else (com s g).lh ++ [b]
      cur := (com s g).cur ++ [⟨o, b, (s.buf i).data⟩] } := by
    simp only [com, Log.append, hop, Option.getD_some, hc.2]
    rfl
  have hok := h.sound_setBuf (i := i) (x := { s.buf i with dirty := true }) (m := false)
    ⟨h.refs i, fun _ => h.held, fun _ => hv, fun _ => hc.1, fun hf => absurd hf Bool.false_ne_true⟩
  have hhead : (com (Log.append p s i) (g.setMod i false)).head La = [] := hh
  have hopen : (com (Log.append p s i) (g.setMod i false)).Open La d₀ := by
    rw [hcom]
    exact ho.append hb hroom _ _
  have hview : (com (Log.append p s i) (g.setMod i false)).view d₀ =
      Function.update ((com s g).view d₀) b (s.buf i).data := by
    rw [hcom]
    exact apply_concat ..
  refine ⟨h.cache.setBuf fun _ hb' => hb', fun j => (hok j).refs, fun {j q} => (hok j).held q,
    fun {j} => (hok j).dirtyValid, fun {j} => (hok j).dev, fun {j} => (hok j).modHeld, fun {j b'} => ?_,
    fun _ b' hb' => ?_, hopen.durable hhead, h.ops, h.idle, fun _ => hhead, h.who, fun _ h0 => ?_, fun hd => ?_, ?_⟩
  · refine Bcache.forall_setBuf (P := fun j x => x.valid = true → x.caches b' → (g.setMod i false).mod j = false →
      x.data = (com (Log.append p s i) (g.setMod i false)).look La d₀ b') (fun _ hcj _ => ?_)
      (fun j hj hvj hcj hm => ?_) j
    · obtain rfl : b = b' := hc.2.symm.trans hcj.2
      rw [Com.look_of_home hb hup, hview, Function.update_self]
    · have hbb : b' ≠ b := fun he => hj (h.cache.uniq hcj (he ▸ hc))
      rw [h.clean hvj hcj ((g.setMod_of_ne hj false).symm.trans hm), Com.look, Com.look, hview,
        Function.update_of_ne hbb]
      rfl
  · have hmem : b' ∈ s.lh ∨ b' = b := by
      rw [Com.pend_of_head hhead, hcom] at hb'
      by_cases hbl : b ∈ s.lh
      · exact .inl (by simpa [com, hbl] using hb')
      · simpa [com, hbl] using hb'
    -- A block logged before keeps its pinned buffer; the one logged now is in buffer `i`.
    rcases hmem with hmem | rfl
    · obtain ⟨j, hcj, hdj⟩ := h.pins hup b' ((Com.pend_of_head hh).symm ▸ hmem)
      exact ⟨j, Bcache.forall_setBuf (i := i) (x := { s.buf i with dirty := true })
        (P := fun j x => (s.buf j).caches b' → (s.buf j).dirty = true → x.caches b' ∧ x.dirty = true)
        (fun hc _ => ⟨hc, rfl⟩) (fun j _ hc hd => ⟨hc, hd⟩) j hcj hdj⟩
    · refine ⟨i, ?_⟩
      rw [State.buf, Log.append, Bcache.setBuf_self]
      exact ⟨hc, rfl⟩
  · have hpos : 0 < (Finset.univ.filter fun q => s.hist.op q ≠ none).card :=
      Finset.card_pos.mpr ⟨p, by simp [hop]⟩
    have h0 : s.outstanding = 0 := h0
    rw [← h.ops] at hpos
    omega
  · exact absurd (hup.symm.trans hd) (by simp)
  · have hhist : (Log.append p s i).hist =
        { s.hist with cur := s.hist.cur ++ [⟨o, b, (s.buf i).data⟩] } := by
      simp only [Log.append, hop, Option.getD_some, hc.2]
    rw [hhist]
    exact h.hist.append hop _ _

theorem append_spec {i : Fin NBUF} {b : Nat} {m : Option Block} (hb : La.Home b)
    (hne : ∀ e ∈ H, e.blockno ≠ b) :
    (logic La d₀ V).Triple p (At p [] (⟨i, b, m⟩ :: H) InOp) (lift (.append i))
      fun _ => At p [] (⟨i, b, none⟩ :: H) InOp := by
  refine Triple.once free (at_stable _ _ _) (fun s s' => answer_ne) fun s g _ s' hi hP hok hs => ?_
  obtain ⟨-, rfl⟩ := answer_eq hs
  have he := hP.1.entry _ List.mem_cons_self
  obtain ⟨o, hop⟩ : ∃ o, s.hist.op p = some o := Option.ne_none_iff_exists'.mp hP.2.1
  have hwho := hi.who_of_op (p := p) (by simp [hop])
  have hother : ∀ j, j ≠ i → (Log.append p s i).buf j = s.buf j := fun j hj =>
    Bcache.setBuf_of_ne _ hj _
  have hself : (Log.append p s i).buf i = { s.buf i with dirty := true } := Bcache.setBuf_self ..
  have hroom : LOGSIZE ≤ La.size ∨ b ∈ s.lh ∨ s.lh.length + 1 < La.size := by
    have hno : (s.buf i).blockno = b := he.caches.2
    rw [← hno]
    exact hok.1 (hi.up_of_op (p := p) (by simp [hop]))
  have hlock : ∀ j, ((Log.append p s i).buf j).holder = (s.buf j).holder := by
    intro j
    by_cases hj : j = i
    · rw [hj, hself]
    · rw [hother j hj]
  refine ⟨g.setMod i false, hi.append hb hop he.caches he.valid hroom, fun q hq => ?_,
    ⟨hP.1.ref, by simp, fun e he' => ?_, fun j hj => hP.1.locks j ((hlock j).symm.trans hj)⟩,
    hP.2.1, rest_com_eq_none.mpr ?_⟩
  · refine ⟨fun _ => rfl, fun j _ => ?_, fun j => by rw [hlock j], fun j hj => ?_, rfl, Iff.rfl,
      fun hq' => absurd (hwho.symm.trans hq') (by simp), id⟩
    · by_cases hj : j = i
      · rw [hj, hself]
        exact ⟨rfl, rfl⟩
      · rw [hother j hj]
        exact ⟨rfl, rfl⟩
    · have hji : j ≠ i := by
        rintro rfl
        exact hq (Option.some.inj (hj.symm.trans he.holder))
      rw [hother j hji]
      exact ⟨rfl, rfl, rfl, g.setMod_of_ne hji false⟩
  · rcases List.mem_cons.mp he' with rfl | he'
    · refine ⟨?_, ?_, ?_, Ghost.setMod_self .., by simp⟩ <;> rw [hself]
      · exact he.holder
      · exact he.caches
      · exact he.valid
    · have hok' := hP.1.entry e (List.mem_cons_of_mem _ he')
      have hei := ne_of_caches hok'.caches he.caches (hne e he')
      refine ⟨?_, ?_, ?_, (g.setMod_of_ne hei false).trans hok'.mod, ?_⟩ <;> rw [hother _ hei]
      · exact hok'.holder
      · exact hok'.caches
      · exact hok'.valid
      · exact hok'.data
  · simp [Ghost.setMod, hwho]

/-- While an operation runs the in-memory header lists what has been logged. -/
theorem Inv.length_lh (h : Inv La d₀ s g) (hp : s.hist.op p ≠ none) :
    s.lh.length = s.hist.logged.length := by
  have ho := h.durable.open (h.quiet (h.who_of_op hp))
  have hnodup : s.lh.Nodup := ho.nodup
  refine ((List.perm_ext_iff_of_nodup hnodup (List.nodup_dedup _)).mpr fun b => ?_).length_eq
  rw [List.mem_dedup, List.mem_map]
  exact ho.mem b

theorem lhN_spec :
    (logic La d₀ V).Triple p (At p [] H InOp) (lift .lhN)
      fun n s g => (V → n < LOGSIZE ∧ n + 1 < La.size) ∧ At p [] H InOp s g := by
  refine Triple.once free (at_stable _ _ _) (fun s s' => answer_ne) fun s g n s' hi hP hok hs => ?_
  obtain ⟨rfl, rfl⟩ := answer_eq hs
  refine ⟨g, hi, fun q _ => Rely.refl q _ g, fun hV => ?_, hP⟩
  rw [hi.length_lh hP.2.1]
  exact hok.2 hV

theorem outstanding_spec :
    (logic La d₀ V).Triple p (At p [] H InOp) (lift .outstanding)
      fun n s g => 0 < n ∧ At p [] H InOp s g := by
  refine Triple.read free (at_stable _ _ _)
    (fun _ _ _ hs => (Prod.mk.inj (Option.some.inj hs)).2.symm) fun s g n hi hP hs => ?_
  obtain ⟨rfl, -⟩ := answer_eq hs
  refine ⟨?_, hP⟩
  have hop : s.hist.op p ≠ none := hP.2.1
  rw [hi.ops]
  exact Finset.card_pos.mpr ⟨p, by simpa using hop⟩

theorem logWrite_spec {i : Fin NBUF} {b : Nat} {m : Option Block} (hb : La.Home b)
    (hne : ∀ e ∈ H, e.blockno ≠ b) :
    (logic La d₀ V).Triple p (At p [] (⟨i, b, m⟩ :: H) InOp) (logWrite La i)
      fun _ => At p [] (⟨i, b, none⟩ :: H) InOp := by
  refine lhN_spec.bind fun n => ?_
  split
  · refine Triple.panic fun _ _ _ h => .inr ⟨fun hV => ?_, rfl⟩
    have := h.1 hV
    omega
  refine (lhN_spec.pre fun _ _ _ h => h.2).bind fun n' => ?_
  split
  · refine Triple.panic fun _ _ _ h => .inr ⟨fun hV => ?_, rfl⟩
    have := h.1 hV
    omega
  refine (outstanding_spec.pre fun _ _ _ h => h.2).bind fun out => ?_
  split
  · exact Triple.panic fun _ _ _ h => by omega
  · exact (append_spec hb hne).pre fun _ _ _ h => h.2

section Client

/-- The program's record of the buffers it holds. -/
def locs (H : List Entry) : List (Nat × Fin NBUF) := H.map fun e => (e.blockno, e.buf)

/-- The protocol's record of them. -/
def marks (H : List Entry) : List (Nat × Bool) := H.map fun e => (e.blockno, e.change.isSome)

def keep (H : List Entry) (b : Nat) : List Entry := H.filter fun e => e.blockno ≠ b

/-- An operation's buffers: blocks outside the log, each held once. -/
structure Client (La : Area) (H : List Entry) : Prop where
  home : ∀ e ∈ H, La.Home e.blockno
  nodup : (H.map Entry.blockno).Nodup

theorem keep_ne {b : Nat} : ∀ e ∈ keep H b, e.blockno ≠ b := by
  intro e he
  simpa using (List.mem_filter.mp he).2

theorem Client.keep (h : Client La H) (b : Nat) : Client La (keep H b) :=
  ⟨fun e he => h.home e (List.mem_filter.mp he).1,
    h.nodup.sublist (List.filter_sublist.map _)⟩

/-- A held block is found, and the rest of the buffers are those of the other blocks. -/
theorem Client.locate (h : Client La H) {b : Nat} (hb : (marks H).any fun e => e.1 = b) :
    ∃ e, e.blockno = b ∧ locate (locs H) b = some e.buf ∧ H.Perm (e :: Log.keep H b) := by
  induction H with
  | nil => simp [marks] at hb
  | cons e H ih =>
    have hnot := (List.nodup_cons.mp h.nodup).1
    by_cases he : e.blockno = b
    · refine ⟨e, he, by simp [Log.locate, locs, he], ?_⟩
      have hkeep : Log.keep (e :: H) b = H := by
        rw [Log.keep, List.filter_cons_of_neg (by simp [he])]
        refine List.filter_eq_self.mpr fun x hx => decide_eq_true fun hxb => ?_
        exact hnot ((he.trans hxb.symm) ▸ List.mem_map_of_mem hx)
      rw [hkeep]
    · have hH : Client La H :=
        ⟨fun x hx => h.home x (List.mem_cons_of_mem _ hx), (List.nodup_cons.mp h.nodup).2⟩
      have hb' : (marks H).any fun e => e.1 = b := by simpa [marks, he] using hb
      obtain ⟨x, hx, hloc, hperm⟩ := ih hH hb'
      refine ⟨x, hx, ?_, ?_⟩
      · simpa [Log.locate, locs, he] using hloc
      · have hkeep : Log.keep (e :: H) b = e :: Log.keep H b := by simp [Log.keep, he]
        rw [hkeep]
        exact (hperm.cons e).trans (List.Perm.swap ..)

/-- The buffers once the one of block `b` has the change `m`. -/
def setChange (H : List Entry) (b : Nat) (m : Option Block) : List Entry :=
  H.map fun e => if e.blockno = b then { e with change := m } else e

theorem locs_setChange (b : Nat) (m : Option Block) : locs (setChange H b m) = locs H := by
  simp only [locs, setChange, List.map_map]
  refine List.map_congr_left fun e _ => ?_
  by_cases he : e.blockno = b <;> simp [he]

theorem marks_setChange (b : Nat) (m : Option Block) :
    marks (setChange H b m) = (marks H).map fun e => if e.1 = b then (b, m.isSome) else e := by
  simp only [marks, setChange, List.map_map]
  refine List.map_congr_left fun e _ => ?_
  by_cases he : e.blockno = b <;> simp [he]

theorem Client.setChange (h : Client La H) (b : Nat) (m : Option Block) :
    Client La (setChange H b m) := by
  have hno : (Log.setChange H b m).map Entry.blockno = H.map Entry.blockno := by
    simp only [Log.setChange, List.map_map]
    refine List.map_congr_left fun e _ => ?_
    by_cases he : e.blockno = b <;> simp [he]
  refine ⟨fun e he => ?_, hno ▸ h.nodup⟩
  have hmem : e.blockno ∈ H.map Entry.blockno := hno ▸ List.mem_map_of_mem he
  obtain ⟨e', he', heq⟩ := List.mem_map.mp hmem
  exact heq ▸ h.home e' he'

theorem setChange_perm {e : Entry} {b : Nat} (he : e.blockno = b) (m : Option Block)
    (hp : H.Perm (e :: keep H b)) :
    (⟨e.buf, b, m⟩ :: keep H b : List Entry).Perm (setChange H b m) := by
  have hkeep : setChange (keep H b) b m = keep H b := by
    refine (List.map_congr_left fun x hx => if_neg (keep_ne x hx)).trans (List.map_id' _)
  have := hp.map fun e : Entry => if e.blockno = b then { e with change := m } else e
  refine List.Perm.symm (this.trans ?_)
  simp only [List.map_cons, if_pos he]
  exact (congrArg (List.cons _) hkeep : _) ▸ (he ▸ List.Perm.refl _)

theorem locs_keep (b : Nat) : locs (keep H b) = (locs H).filter fun e => e.1 ≠ b := by
  rw [locs, locs, keep, List.filter_map]
  rfl

theorem marks_keep (b : Nat) : marks (keep H b) = (marks H).filter fun e => e.1 ≠ b := by
  rw [marks, marks, keep, List.filter_map]
  rfl

theorem change_eq_none {e : Entry} {b : Nat} (he : e.blockno = b) (hp : H.Perm (e :: keep H b))
    (hb : (marks H).contains (b, false) = true) : e.change = none := by
  obtain ⟨e', hmem, heq⟩ := List.mem_map.mp (List.contains_iff_mem.mp hb)
  obtain ⟨hno, hch⟩ := Prod.mk.inj heq
  rcases List.mem_cons.mp (hp.mem_iff.mp hmem) with rfl | hk
  · simpa using hch
  · exact absurd hno (keep_ne e' hk)

theorem marks_any {b : Nat} (hb : (marks H).contains (b, false) = true) :
    (marks H).any fun e => e.1 = b := by
  exact List.any_eq_true.mpr ⟨_, List.contains_iff_mem.mp hb, by simp⟩

-- Induction on the commands left; the buffers held are those of the commands already run.
theorem opBody_spec (cs : List Cmd) (hc : Client La H) (hf : follows La cs (marks H) = true) :
    (logic La d₀ V).Triple p (At p [] H InOp) (opBody La cs (locs H)) fun _ => Idle p := by
  -- By induction on the commands left, for whatever buffers the process holds before the first of them.
  induction cs generalizing H with
  | nil =>
    obtain rfl : H = [] := by simpa [follows, marks] using hf
    exact endOp_spec
  | cons cmd cs ih =>
    cases cmd with
    | bread b =>
      simp only [follows, Bool.and_eq_true, decide_eq_true_eq] at hf
      obtain ⟨⟨hhome, hnew⟩, hf⟩ := hf
      have hnot : ∀ e ∈ H, e.blockno ≠ b := by simpa [marks] using hnew
      refine (bread_spec b).bind fun i => ?_
      refine (ih (H := ⟨i, b, none⟩ :: H) ⟨?_, ?_⟩ hf).pre fun s g _ h => h.mono fun r hr => hr.1
      · intro e he
        rcases List.mem_cons.mp he with rfl | he
        · exact hhome
        · exact hc.home e he
      · refine List.nodup_cons.mpr ⟨fun hb => ?_, hc.nodup⟩
        obtain ⟨e, he, heq⟩ := List.mem_map.mp hb
        exact hnot e he heq
    | modify b f =>
      simp only [follows, Bool.and_eq_true] at hf
      obtain ⟨e, heb, hloc, hperm⟩ := hc.locate hf.1
      simp only [opBody, hloc]
      refine triple_perm hperm ((data_spec List.mem_cons_self).bind fun d => ?_)
      refine (Triple.pre (setData_spec (H := keep H b) (R := InOp) e.buf b e.change (f d) keep_ne)
        fun s g _ h => ?_).bind fun _ => ?_
      · subst heb
        exact h.mono fun r hr => hr.1
      · have hstep := ih (hc.setChange b (some (f d))) (by rw [marks_setChange]; exact hf.2)
        rw [locs_setChange] at hstep
        exact triple_perm (setChange_perm heb _ hperm) hstep
    | logWrite b =>
      simp only [follows, Bool.and_eq_true] at hf
      obtain ⟨e, heb, hloc, hperm⟩ := hc.locate hf.1
      simp only [opBody, hloc]
      have hhome : La.Home b := heb ▸ hc.home e (hperm.mem_iff.mpr List.mem_cons_self)
      refine triple_perm hperm ((Triple.pre (logWrite_spec (i := e.buf) (H := keep H b)
        (m := e.change) hhome keep_ne) fun s g _ h => ?_).bind fun _ => ?_)
      · subst heb
        exact h
      · have hstep := ih (hc.setChange b none) (by rw [marks_setChange]; exact hf.2)
        rw [locs_setChange] at hstep
        exact triple_perm (setChange_perm heb _ hperm) hstep
    | brelse b =>
      simp only [follows, Bool.and_eq_true] at hf
      obtain ⟨e, heb, hloc, hperm⟩ := hc.locate (marks_any hf.1)
      have hclean := change_eq_none heb hperm hf.1
      simp only [opBody, hloc]
      refine triple_perm hperm ((Triple.pre (brelse_spec (H := keep H b) (R := InOp) e.buf b
        keep_ne) fun s g _ h => ?_).bind fun _ => ?_)
      · subst heb
        rw [← hclean]
        exact h
      · have hstep := ih (hc.keep b) (by rw [marks_keep]; exact hf.2)
        rwa [locs_keep] at hstep

end Client

theorem body_spec (j : Job) (hj : may La j s = true) (hi : Inv La d₀ s g) (h : Idle p s g) :
    (logic La d₀ V).Safe p (body La j) (fun _ => Idle p) s g := by
  cases j with
  | op cs =>
    obtain ⟨hup, hf⟩ : s.up = true ∧ follows La cs [] = true := by simpa [may] using hj
    exact (beginOp_spec.bind fun _ => opBody_spec cs ⟨by simp, List.nodup_nil⟩ hf) s g hi ⟨h, hup⟩
  | read b =>
    refine ((bread_spec b).bind fun i => ?_) s g hi h
    exact (brelse_spec i b (by simp)).post fun _ s g _ h => h.mono fun r hr => hr.1

/-- What a crash leaves of the log. -/
def Com.crash (c : Com) : Com := { c with lh := [], cur := [], up := false, installed := 0 }

theorem Com.Durable.crash {c : Com} (h : c.Durable La d₀) : c.crash.Durable La d₀ := by
  by_cases hh : c.head La = []
  · have ho := h.open hh
    have hh' : c.crash.head La = [] := hh
    exact Com.Open.durable ⟨ho.disk, by simp [Com.crash], by simp [Com.crash], by simp [Com.crash],
      .inr La.pos⟩ hh'
  · have hs := h.sealed hh
    have hh' : c.crash.head La ≠ [] := hh
    refine Com.Sealed.durable ⟨rfl, hs.home, hs.nodup, hs.room, hs.log, fun b hb hmem => ?_⟩ hh'
    exact hs.disk b hb fun hd => hmem (List.mem_of_mem_drop hd)

theorem HistWf.crash {h : Hist} (hw : HistWf h) :
    HistWf { h with cur := [], op := fun _ => none } := by
  refine ⟨by simp, by simp, fun u hu => hw.old u ?_, by simp, by simp, hw.pair⟩
  exact List.mem_append_left _ (by simpa using hu)

/-- Nobody holds a buffer, and the boot process is to recover. -/
def Ghost.boot : Ghost := ⟨fun _ _ => 0, fun _ => false, some Log.boot, 0⟩

theorem inv_reboot (hdur : (com s g).Durable La d₀) (hw : HistWf s.hist) :
    Inv La d₀ s.reboot Ghost.boot where
  cache := wf_binit
  refs i := by simp [State.reboot, binit, Buf.zero, Ghost.boot]
  held {i p} hp := absurd hp (by simp [State.reboot, binit, Buf.zero])
  dirtyValid {i} hd := absurd hd (by simp [State.reboot, binit, Buf.zero])
  dev {i} hv := absurd hv (by simp [State.reboot, binit, Buf.zero])
  modHeld {i} hm := absurd hm (by simp [Ghost.boot])
  clean {i b} hv := absurd hv (by simp [State.reboot, binit, Buf.zero])
  pins hu := absurd hu (by simp [State.reboot])
  durable := hdur.crash
  ops := by simp [State.reboot]
  idle _ _ := rfl
  quiet hn := absurd hn (by simp [Ghost.boot])
  who := rfl
  settled hn := absurd hn (by simp [Ghost.boot])
  down _ := ⟨rfl, rfl, rfl⟩
  hist := hw.crash

theorem held_reboot : Held p [] [] s.reboot Ghost.boot :=
  ⟨fun _ => rfl, by simp, by simp, fun i hi => absurd hi (by simp [State.reboot, binit, Buf.zero])⟩

/-- After a crash the boot process recovers and the others are idle. -/
theorem crash_safe {w : World} (hdur : (com w.st g).Durable La d₀) (hw : HistWf w.st.hist) :
    Inv La d₀ (World.crash La w).st Ghost.boot ∧ ∀ p, (logic La d₀ V).Safe p
      ((World.crash La w).thr p) (fun _ => Idle p) (World.crash La w).st Ghost.boot := by
  have hi := inv_reboot hdur hw
  refine ⟨hi, fun p => ?_⟩
  by_cases hp : p = boot
  · simp only [World.crash, if_pos hp]
    refine initlog_spec _ _ hi ⟨held_reboot, owns_iff.mpr ⟨?_, rfl, rfl, rfl⟩⟩
    rw [hp]
    rfl
  · simp only [World.crash, if_neg hp]
    refine ⟨held_reboot, rfl, rest_com_eq_none.mpr fun he => hp ?_⟩
    exact (Option.some.inj he).symm

theorem powerOn_safe {disk : Nat → Block} (h : header (disk La.start) = []) :
    Inv La disk (powerOn La disk).st Ghost.boot ∧ ∀ p, (logic La disk V).Safe p
      ((powerOn La disk).thr p) (fun _ => Idle p) (powerOn La disk).st Ghost.boot := by
  refine crash_safe (g := Ghost.boot) (Com.Open.durable ?_ h) ?_
  · exact ⟨fun _ _ => rfl, by simp [com, diskState], by simp [com, diskState],
      by simp [com, diskState], .inr La.pos⟩
  · exact ⟨by simp [diskState], by simp [diskState], by simp [diskState], by simp [diskState],
      by simp [diskState], List.Pairwise.nil⟩

theorem good_of_reach {disk : Nat → Block} {w : World}
    (h : Machine.Reach (step La) (Init La disk) (Acts (logic La disk V).ok) w) :
    Good (logic La disk V) Idle w := by
  refine Good.of_reach (S := system La) rfl (fun p => at_stable _ _ _)
    (fun p j s g hi hj hP => body_spec j hj hi hP) (fun e w w' hw he => ?_) (fun w hw => ?_) h
  · obtain rfl := Option.some.inj he
    obtain ⟨g, hi, -⟩ := hw
    exact ⟨Ghost.boot, crash_safe hi.durable hi.hist⟩
  · rw [hw.2]
    exact ⟨Ghost.boot, powerOn_safe hw.1⟩

end Chameleon.Log
