import Chameleon.Dev.Console

/-! The line discipline of the console: what the indices mean, and what readers are given. -/

namespace Chameleon.Console
open Machine

/-- The buffer holds the committed characters `xs`, then the line being edited `ys`; `k` characters
were taken before. -/
structure Rep (s : Input) (k : Nat) (xs ys : List UInt8) : Prop where
  holds : Ring.Holds 128 s.buf k (k + (xs ++ ys).length) (xs ++ ys)
  r : s.r.toNat = k % 2 ^ 32
  w : s.w.toNat = (k + xs.length) % 2 ^ 32
  e : s.e.toNat = (k + (xs ++ ys).length) % 2 ^ 32
  full : (xs ++ ys).length = 128 → ys = []

section Rep

variable {s : Input} {k : Nat} {xs ys : List UInt8}

theorem Rep.between_rw (h : Rep s k xs ys) : (s.w - s.r).toNat = xs.length := by
  rw [UInt32.toNat_sub, h.r, h.w]
  exact h.holds.left.sub_mod (by decide)

theorem Rep.between_re (h : Rep s k xs ys) : (s.e - s.r).toNat = (xs ++ ys).length := by
  rw [UInt32.toNat_sub, h.r, h.e]
  exact h.holds.sub_mod (by decide)

/-- Cells are found from an index as from the total it stands for. -/
theorem between_eq {s : Input} {a b : UInt32} {j : Nat} {zs : List UInt8} {w : Nat}
    (ha : a.toNat = j % 2 ^ 32) (hlen : (b - a).toNat = zs.length)
    (h : Ring.Holds 128 s.buf j w zs) : s.between a b = zs := by
  have hmap := h.eq_map
  rw [h.total, Nat.add_sub_cancel_left] at hmap
  rw [Input.between, hlen]
  conv_rhs => rw [hmap]
  refine List.map_congr_left fun i _ => congrArg s.buf ?_
  have hdvd : j % 2 ^ 32 % 128 = j % 128 := Nat.mod_mod_of_dvd j (by decide)
  rw [ha, show INPUT_BUF.toNat = 128 from rfl, Nat.add_mod, hdvd, ← Nat.add_mod]

theorem Rep.unread_eq (h : Rep s k xs ys) : s.unread = xs :=
  between_eq h.r h.between_rw h.holds.left

theorem Rep.empty_iff (h : Rep s k xs ys) : s.r = s.w ↔ xs = [] := by
  rw [Ring.counter_inj h.r h.w]
  exact h.holds.left.empty_iff (by decide)

theorem Rep.clean_iff (h : Rep s k xs ys) : s.e = s.w ↔ ys = [] := by
  rw [eq_comm, Ring.counter_inj h.w h.e]
  exact h.holds.right.empty_iff (by decide)

theorem Rep.room_iff (h : Rep s k xs ys) : s.e - s.r < INPUT_BUF ↔ (xs ++ ys).length < 128 := by
  rw [UInt32.lt_iff_toNat_lt, h.between_re]
  rfl

/-- The last character of the line being edited goes. -/
theorem Rep.back {y : UInt8} (h : Rep s k xs (ys ++ [y])) : Rep s.back k xs ys := by
  have hlen : k + (xs ++ (ys ++ [y])).length = k + (xs ++ ys).length + 1 := by
    simp
    omega
  have hholds := h.holds
  rw [← List.append_assoc] at hholds
  refine ⟨hholds.left, h.r, h.w, Ring.counter_pred (hlen ▸ h.e), fun hfull => ?_⟩
  have hfits := h.holds.fits
  simp at hfits hfull
  omega

theorem Rep.killLine (n : Nat) (h : Rep s k xs ys) : ∃ zs, Rep (s.killLine n) k xs zs := by
  induction n generalizing s ys with
  | zero => exact ⟨ys, h⟩
  | succ n ih =>
    rw [Input.killLine]
    split_ifs with hgo
    · rcases List.eq_nil_or_concat ys with rfl | ⟨zs, y, rfl⟩
      · exact absurd (h.clean_iff.mpr rfl) hgo.1
      · rw [List.concat_eq_append] at h
        exact ih h.back
    · exact ⟨ys, h⟩

/-- A character is stored and, if it ends a line or fills the buffer, the line is committed. -/
theorem Rep.put_finish (h : Rep s k xs ys) (hroom : (xs ++ ys).length < 128) (c : UInt8) :
    Rep ((s.put c).finish c).1 k (xs ++ ys ++ [c]) [] ∨
      Rep ((s.put c).finish c).1 k xs (ys ++ [c]) := by
  have hholds := h.holds.push hroom c
  have hidx : (s.e % INPUT_BUF).toNat = (k + (xs ++ ys).length) % 128 :=
    Ring.counter_index h.e (by decide)
  have hlen : k + (xs ++ ys ++ [c]).length = k + (xs ++ ys).length + 1 := by
    simp
    omega
  rw [← hidx] at hholds
  have he := Ring.counter_succ h.e
  unfold Input.finish
  split_ifs with hdone
  · left
    refine ⟨?_, h.r, ?_, ?_, fun _ => rfl⟩
    · rw [List.append_nil, hlen]
      exact hholds
    · rw [hlen]; exact he
    · rw [List.append_nil, hlen]; exact he
  · right
    have hrep : Ring.Holds 128 (s.put c).buf k (k + (xs ++ (ys ++ [c])).length) (xs ++ (ys ++ [c])) := by
      rw [← List.append_assoc, hlen]
      exact hholds
    refine ⟨hrep, h.r, h.w, ?_, fun hfull => ?_⟩
    · rw [← List.append_assoc, hlen]; exact he
    · -- a full buffer would have been committed
      refine absurd (.inr (.inr ?_)) hdone
      have hfull' := hrep.full_iff (M := 2 ^ 32) (by decide) |>.mpr hfull
      rw [← UInt32.toNat_inj, UInt32.toNat_add]
      rw [← List.append_assoc, hlen] at hfull'
      show (s.e + 1).toNat = (s.r.toNat + 128) % 2 ^ 32
      rw [he, h.r]
      exact hfull'

/-- The interrupt side leaves the committed characters where they are, and commits more of them
by moving `w`. -/
theorem Rep.intr (h : Rep s k xs ys) (c : UInt8) : ∃ zs us, Rep (s.intr c).1 k (xs ++ zs) us ∧
    (s.intr c).1.between s.w (s.intr c).1.w = zs ∧
    (c = ctrlU ∨ c = ctrlH ∨ c = del → zs = []) := by
  -- a state with the same indices `r` and `w` has committed nothing
  have hnone : ∀ {t : Input} {us}, Rep t k xs us → t.between s.w t.w = [] := by
    intro t us ht
    have hw : t.w = s.w := UInt32.toNat_inj.mp (ht.w.trans h.w.symm)
    rw [Input.between, hw, UInt32.sub_self]
    rfl
  have hkeep : ∀ {t : Input} {us}, Rep t k xs us → ∃ zs us, Rep t k (xs ++ zs) us ∧
      t.between s.w t.w = zs ∧ (c = ctrlU ∨ c = ctrlH ∨ c = del → zs = []) := fun ht =>
    ⟨[], _, by rwa [List.append_nil], hnone ht, fun _ => rfl⟩
  unfold Input.intr
  split_ifs with hP hU hH hne hput
  · exact hkeep h
  · obtain ⟨zs, hzs⟩ := h.killLine (s.e - s.w).toNat
    exact hkeep hzs
  · rcases List.eq_nil_or_concat ys with rfl | ⟨zs, y, rfl⟩
    · exact absurd (h.clean_iff.mpr rfl) hne
    · rw [List.concat_eq_append] at h
      exact hkeep h.back
  · exact hkeep h
  · rcases h.put_finish (h.room_iff.mp hput.2) (Input.lineEnd c) with hrep | hrep
    · refine ⟨ys ++ [Input.lineEnd c], [], by rwa [← List.append_assoc], ?_, ?_⟩
      · have hright := hrep.holds.left
        rw [List.append_assoc] at hright
        refine between_eq h.w ?_ hright.right
        have hw := hrep.w
        rw [List.append_assoc] at hw
        rw [UInt32.toNat_sub, h.w, hw]
        exact hright.right.sub_mod (by decide)
      · rintro (rfl | rfl | rfl)
        · exact absurd rfl hU
        · exact absurd (.inl rfl) hH
        · exact absurd (.inr rfl) hH
    · exact hkeep hrep
  · exact hkeep h

theorem Rep.advance {x : UInt8} (h : Rep s k (x :: xs) ys) :
    s.buf (s.r % INPUT_BUF).toNat = x ∧ Rep { s with r := s.r + 1 } (k + 1) xs ys := by
  have hlen : k + (x :: xs ++ ys).length = k + 1 + (xs ++ ys).length := by
    simp
    omega
  have hlen' : k + (x :: xs).length = k + 1 + xs.length := by
    simp
    omega
  obtain ⟨hx, hpop⟩ := h.holds.pop
  refine ⟨?_, hlen ▸ hpop, Ring.counter_succ h.r, hlen' ▸ h.w, hlen ▸ h.e, fun hfull => ?_⟩
  · rw [Ring.counter_index h.r (by decide)]
    exact hx
  · have hfits := h.holds.fits
    simp at hfits hfull
    omega

/-- What `r` moves over. -/
theorem Rep.between_taken {t : Input} {used rest : List UInt8} (h : Rep s k (used ++ rest) ys)
    (ht : t.r.toNat = (k + used.length) % 2 ^ 32) : s.between s.r t.r = used := by
  have hleft := h.holds.left.left
  refine between_eq h.r ?_ hleft
  rw [UInt32.toNat_sub, h.r, ht]
  exact hleft.sub_mod (by decide)

/-- A stretch of `consoleread` takes a first part of the committed characters and delivers them,
`^D` excepted. -/
theorem readLoop_spec (killed : Bool) (target n : Nat) (got : List UInt8) (h : Rep s k xs ys) :
    ∃ used rest, xs = used ++ rest ∧
      Rep (readLoop killed target n s got).1 (k + used.length) rest ys ∧
      (readLoop killed target n s got).2.1 = got ++ used.filter (· ≠ ctrlD) := by
  induction n generalizing s k xs got with
  | zero => exact ⟨[], xs, rfl, h, by simp [readLoop]⟩
  | succ n ih =>
    rw [readLoop]
    by_cases hempty : s.r = s.w
    · rw [if_pos hempty]
      exact ⟨[], xs, rfl, h, by simp⟩
    · rw [if_neg hempty]
      cases xs with
      | nil => exact absurd (h.empty_iff.mpr rfl) hempty
      | cons x xs =>
        obtain ⟨hx, hrep⟩ := h.advance
        dsimp only
        rw [hx]
        by_cases hD : x = ctrlD
        · rw [if_pos hD]
          -- Behind other characters `^D` is left for the next call, which then returns 0.
          by_cases hdata : n + 1 < target
          · refine ⟨[], x :: xs, rfl, ?_, by simp⟩
            simp only [if_pos hdata, UInt32.add_sub_cancel]
            exact h
          · refine ⟨[x], xs, rfl, ?_, by simp [hD]⟩
            simp only [if_neg hdata]
            exact hrep
        · rw [if_neg hD]
          by_cases hnl : x = newline
          · rw [if_pos hnl]
            exact ⟨[x], xs, rfl, hrep, by simp [hD]⟩
          · rw [if_neg hnl]
            obtain ⟨used, rest, hxs, hrep', hgot⟩ := ih (got ++ [x]) hrep
            refine ⟨x :: used, rest, by rw [hxs]; rfl, ?_, ?_⟩
            · rw [List.length_cons, show k + (used.length + 1) = k + 1 + used.length by omega]
              exact hrep'
            · rw [hgot, List.filter_cons_of_pos (by simpa using hD), List.append_assoc]
              rfl

/-- A stretch that meets `^D` returns. With data in hand it leaves `^D` there; otherwise it takes it
and returns none. -/
theorem readLoop_eof {killed : Bool} {target n : Nat} (got : List UInt8) {ds rest : List UInt8}
    (h : Rep s k (ds ++ ctrlD :: rest) ys) (hds : ∀ c ∈ ds, c ≠ ctrlD ∧ c ≠ newline)
    (hn : ds.length < n) (htarget : n + got.length = target) :
    (readLoop killed target n s got).2 = (got ++ ds, .returned) ∧
      (readLoop killed target n s got).1.unread =
        if got ++ ds = [] then rest else ctrlD :: rest := by
  induction ds generalizing s k n got with
  | nil =>
    obtain ⟨n, rfl⟩ := Nat.exists_eq_succ_of_ne_zero (Nat.ne_of_gt hn)
    have hne : s.r ≠ s.w := fun heq => List.cons_ne_nil _ _ (h.empty_iff.mp heq)
    have h : Rep s k (ctrlD :: rest) ys := h
    obtain ⟨hx, hrep⟩ := h.advance
    rw [readLoop, if_neg hne]
    dsimp only
    rw [hx, if_pos rfl, List.append_nil]
    by_cases hgot : got = []
    · subst hgot
      have hlast : ¬ n + 1 < target := by
        rw [List.length_nil] at htarget
        omega
      rw [if_neg hlast, if_pos rfl]
      exact ⟨rfl, hrep.unread_eq⟩
    · have hmore : n + 1 < target := by
        have := List.length_pos_iff.mpr hgot
        omega
      rw [if_pos hmore, if_neg hgot, UInt32.add_sub_cancel]
      exact ⟨rfl, h.unread_eq⟩
  | cons x ds ih =>
    obtain ⟨n, rfl⟩ := Nat.exists_eq_succ_of_ne_zero (Nat.ne_of_gt (Nat.zero_lt_of_lt hn))
    have hne : s.r ≠ s.w := fun heq => List.cons_ne_nil _ _ (h.empty_iff.mp heq)
    have h : Rep s k (x :: (ds ++ ctrlD :: rest)) ys := h
    obtain ⟨hx, hrep⟩ := h.advance
    have hxs := hds x (List.mem_cons_self ..)
    rw [readLoop, if_neg hne]
    dsimp only
    rw [hx, if_neg hxs.1, if_neg hxs.2]
    have hlen : n + (got ++ [x]).length = target := by
      rw [List.length_append, List.length_singleton]
      omega
    have hgo := ih (got ++ [x]) hrep (fun c hc => hds c (List.mem_cons_of_mem _ hc))
      (Nat.lt_of_succ_lt_succ hn) hlen
    simpa only [List.append_assoc, List.singleton_append] using hgo

end Rep

section Run

variable {ι : Type} [DecidableEq ι] {s s' : State ι}

def Pc.got : Pc → List UInt8
  | .user => []
  | .reading _ got => got

/-- The bytes that reader `q` was given. -/
def givenTo (l : List (ι × UInt8)) (q : ι) : List UInt8 :=
  (l.filter fun x => x.1 = q).map Prod.snd

/-- What the buffer holds, and what has left it. -/
structure Lines (s : State ι) : Prop where
  rep : ∃ k xs ys, Rep s.input k xs ys ∧ s.hist.committed = s.hist.taken ++ xs
  delivered : s.hist.delivered.map Prod.snd = s.hist.taken.filter (· ≠ ctrlD)

omit [DecidableEq ι] in
theorem Lines.intr (h : Lines s) (c : UInt8) : Lines (s.intr c) := by
  obtain ⟨k, xs, ys, hrep, hcom⟩ := h.rep
  obtain ⟨zs, us, hrep', hzs, -⟩ := hrep.intr c
  refine ⟨⟨k, xs ++ zs, us, hrep', ?_⟩, h.delivered⟩
  show s.hist.committed ++ _ = s.hist.taken ++ (xs ++ zs)
  rw [hzs, hcom, List.append_assoc]

theorem Lines.read (h : Lines s) (q : ι) (target : Nat) (got : List UInt8) :
    Lines (s.read q target got) := by
  obtain ⟨k, xs, ys, hrep, hcom⟩ := h.rep
  obtain ⟨used, rest, rfl, hrep', hgot⟩ :=
    readLoop_spec (s.proc q).killed target (target - got.length) got hrep
  have htaken := hrep.between_taken hrep'.r
  refine ⟨⟨_, rest, ys, hrep', ?_⟩, ?_⟩
  · show s.hist.committed = s.hist.taken ++ _ ++ rest
    rw [htaken, hcom, List.append_assoc]
  · show (s.hist.delivered ++ _).map Prod.snd = (s.hist.taken ++ _).filter _
    rw [htaken, hgot, List.drop_left, List.map_append, List.filter_append, h.delivered, List.map_map]
    simp [Function.comp_def]

theorem Lines.step {e : Event ι} (h : Lines s) (hs : step s e = some s') : Lines s' := by
  cases e with
  | intr cs =>
    obtain rfl := Option.some.inj hs
    clear hs
    induction cs generalizing s with
    | nil => exact h
    | cons c cs ih => exact ih (h.intr c)
  | read q n =>
    simp only [Console.step] at hs
    split at hs
    · obtain rfl := Option.some.inj hs
      exact h.read q n []
    · cases hs
  | run q =>
    simp only [Console.step] at hs
    split at hs
    · split_ifs at hs
      obtain rfl := Option.some.inj hs
      exact h.read q _ _
    · cases hs
  | kill q =>
    obtain rfl := Option.some.inj hs
    exact ⟨h.rep, h.delivered⟩

theorem lines_of_reach {ok : State ι → Event ι → Prop} (h : Reach step Init ok s) : Lines s := by
  refine h.invariant ?_ fun _ _ _ hi _ hs => hi.step hs
  rintro s ⟨hr, hw, he, -, -, hhist⟩
  refine ⟨⟨0, [], [], ⟨Ring.Holds.nil .., ?_, ?_, ?_, fun _ => rfl⟩, ?_⟩, ?_⟩
  · rw [hr]; rfl
  · rw [hw]; rfl
  · rw [he]; rfl
  · rw [hhist]; rfl
  · rw [hhist]; rfl

/-- Nobody is killed, and every byte a reader was given is in what its calls return. -/
structure Given (s : State ι) : Prop where
  unkilled : ∀ q, (s.proc q).killed = false
  calls : ∀ q, givenTo s.hist.delivered q = (s.hist.returned q).flatten ++ (s.proc q).pc.got

theorem givenTo_append (l : List (ι × UInt8)) (q q' : ι) (bs : List UInt8) :
    givenTo (l ++ bs.map fun c => (q, c)) q' = givenTo l q' ++ if q' = q then bs else [] := by
  simp only [givenTo, List.filter_append, List.map_append]
  congr 1
  split_ifs with hq
  · subst hq
    simp [List.filter_map, Function.comp_def]
  · simp [List.filter_map, Function.comp_def, Ne.symm hq]

/-- A reader that nobody kills returns or sleeps. -/
theorem readLoop_ne_failed (target n : Nat) (i : Input) (got : List UInt8) :
    (readLoop false target n i got).2.2 ≠ .failed := by
  induction n generalizing i got with
  | zero => simp [readLoop]
  | succ n ih =>
    rw [readLoop]
    by_cases hempty : i.r = i.w
    · rw [if_pos hempty]
      exact ReadEnd.noConfusion
    · rw [if_neg hempty]
      dsimp only
      split
      · exact ReadEnd.noConfusion
      · split
        · exact ReadEnd.noConfusion
        · exact ih _ _

theorem Given.read (h : Given s) (hl : Lines s) {q : ι} {target : Nat} {got : List UInt8}
    (hpc : (s.proc q).pc.got = got) : Given (s.read q target got) := by
  obtain ⟨k, xs, ys, hrep, -⟩ := hl.rep
  obtain ⟨used, rest, -, -, hgot⟩ :=
    readLoop_spec (s.proc q).killed target (target - got.length) got hrep
  have hend := readLoop_ne_failed target (target - got.length) s.input got
  rw [← h.unkilled q] at hend
  refine ⟨fun q' => ?_, fun q' => ?_⟩
  · by_cases hq : q' = q
    · subst hq
      show (Function.update s.proc q' _ q').killed = false
      rw [Function.update_self]
      cases (readLoop (s.proc q').killed target (target - got.length) s.input got).2.2 <;>
        exact h.unkilled q'
    · show (Function.update s.proc q _ q').killed = false
      rw [Function.update_of_ne hq]
      exact h.unkilled q'
  · show givenTo (s.hist.delivered ++ _) q' =
      (Function.update s.hist.returned q _ q').flatten ++ (Function.update s.proc q _ q').pc.got
    rw [givenTo_append, h.calls q', hgot, List.drop_left]
    by_cases hq : q' = q
    · subst hq
      rw [if_pos rfl, Function.update_self, Function.update_self, hpc, List.append_assoc]
      cases hcase : (readLoop (s.proc q').killed target (target - got.length) s.input got).2.2 with
      | returned => simp [ReadEnd.note, Proc.leave, Pc.got]
      | failed => exact absurd hcase hend
      | asleep => simp [ReadEnd.note, Proc.leave, Pc.got]
    · rw [if_neg hq, Function.update_of_ne hq, Function.update_of_ne hq, List.append_nil]

theorem Given.intr (h : Given s) (c : UInt8) : Given (s.intr c) := by
  have hproc : ∀ q, ((s.intr c).proc q).killed = (s.proc q).killed ∧
      ((s.intr c).proc q).pc = (s.proc q).pc := by
    intro q
    unfold State.intr wakeup
    dsimp only
    split_ifs <;> exact ⟨rfl, rfl⟩
  refine ⟨fun q => (hproc q).1.trans (h.unkilled q), fun q => ?_⟩
  rw [(hproc q).2]
  exact h.calls q

theorem given_of_reach (h : Reach step Init NoKill s) : Given s := by
  have hboth : Lines s ∧ Given s := by
    refine h.invariant (I := fun s => Lines s ∧ Given s) (fun s hs => ⟨?_, ?_⟩) ?_
    · have hstart : Reach step Init NoKill s := .start hs
      exact lines_of_reach hstart
    · obtain ⟨-, -, -, hpc, hk, hhist⟩ := hs
      refine ⟨hk, fun q => ?_⟩
      rw [hpc q, hhist]
      rfl
    · rintro s e s' ⟨hl, hg⟩ hok hs
      refine ⟨hl.step hs, ?_⟩
      cases e with
      | intr cs =>
        obtain rfl := Option.some.inj hs
        clear hs hok
        -- One interrupt can bring several characters.
        induction cs generalizing s with
        | nil => exact hg
        | cons c cs ih => exact ih _ (hl.intr c) (hg.intr c)
      | read q n =>
        simp only [Console.step] at hs
        split at hs
        · rename_i hpc
          obtain rfl := Option.some.inj hs
          exact hg.read hl (by rw [hpc]; rfl)
        · cases hs
      | run q =>
        simp only [Console.step] at hs
        split at hs
        · rename_i hpc
          split_ifs at hs
          obtain rfl := Option.some.inj hs
          exact hg.read hl (by rw [hpc]; rfl)
        · cases hs
      | kill q => exact hok.elim
  exact hboth.2

/-- In every run the indices are in order and a full buffer is committed; backspace and kill-line
leave the committed characters alone. As long as nobody is killed, the readers are given exactly
the committed characters, in order and without `^D`; what a reader is given is what its calls
return; and a reader that meets `^D` returns what it has, taking `^D` only if that is nothing. -/
theorem console_line_discipline (h : Reach step Init Any s) :
    (s.input.w - s.input.r ≤ s.input.e - s.input.r ∧ s.input.e - s.input.r ≤ INPUT_BUF ∧
      (s.input.e - s.input.r = INPUT_BUF → s.input.w = s.input.e)) ∧
    (∀ c, c = ctrlU ∨ c = ctrlH ∨ c = del →
      (s.input.intr c).1.r = s.input.r ∧ (s.input.intr c).1.w = s.input.w ∧
        (s.input.intr c).1.unread = s.input.unread) ∧
    (Reach step Init NoKill s →
      s.hist.committed = s.hist.taken ++ s.input.unread ∧
      s.hist.delivered.map Prod.snd = s.hist.taken.filter (· ≠ ctrlD) ∧
      (∀ q, givenTo s.hist.delivered q = (s.hist.returned q).flatten ++ (s.proc q).pc.got) ∧
      ∀ target got ds rest, s.input.unread = ds ++ ctrlD :: rest →
        (∀ c ∈ ds, c ≠ ctrlD ∧ c ≠ newline) → got.length + ds.length < target →
        (readLoop false target (target - got.length) s.input got).2 = (got ++ ds, .returned) ∧
        (readLoop false target (target - got.length) s.input got).1.unread =
          if got ++ ds = [] then rest else ctrlD :: rest) := by
  obtain ⟨⟨k, xs, ys, hrep, hcom⟩, hdel⟩ := lines_of_reach h
  refine ⟨⟨?_, ?_, fun hfull => ?_⟩, fun c hc => ?_, fun hnk => ⟨?_, hdel, (given_of_reach hnk).calls,
    fun target got ds rest hun hds hlt => ?_⟩⟩
  · rw [UInt32.le_iff_toNat_le, hrep.between_rw, hrep.between_re, List.length_append]
    exact Nat.le_add_right _ _
  · rw [UInt32.le_iff_toNat_le, hrep.between_re]
    exact hrep.holds.fits
  · have hlen : (xs ++ ys).length = 128 := by
      rw [← hrep.between_re, hfull]
      rfl
    exact (hrep.clean_iff.mpr (hrep.full hlen)).symm
  · obtain ⟨zs, us, hrep', -, hzs⟩ := hrep.intr c
    rw [hzs hc, List.append_nil] at hrep'
    refine ⟨UInt32.toNat_inj.mp (hrep'.r.trans hrep.r.symm),
      UInt32.toNat_inj.mp (hrep'.w.trans hrep.w.symm), ?_⟩
    rw [hrep'.unread_eq, hrep.unread_eq]
  · rw [hrep.unread_eq, hcom]
  · rw [hrep.unread_eq] at hun
    subst hun
    exact readLoop_eof _ hrep hds (by omega) (by omega)

end Run

/-- A console and three processes. -/
def fresh : State (Fin 3) where
  input := ⟨fun _ => 0, 0, 0, 0⟩
  proc := fun _ => ⟨.user, false, false⟩
  hist := ⟨[], [], [], fun _ => []⟩

theorem init_fresh : Init fresh := ⟨rfl, rfl, rfl, fun _ => rfl, fun _ => rfl, rfl⟩

/-- A reader sleeps while a line is typed and corrected; the line ends with `^D`, which the first
reader leaves to the second. -/
def typed : List (Event (Fin 3)) :=
  [.read 0 9, .intr [97, 98, ctrlH, 99], .intr [ctrlD, 100], .run 0, .read 1 5]

theorem console_line_discipline_typed : ∃ s, exec step fresh typed = some s ∧
    s.hist.returned 0 = [[97, 99]] ∧ s.hist.returned 1 = [[]] ∧
    s.hist.committed = s.hist.taken ++ s.input.unread := by
  have hrun : (exec step fresh typed).any
      (fun s => s.hist.returned 0 == [[97, 99]] && s.hist.returned 1 == [[]]) = true := by
    decide +kernel
  obtain ⟨s, hs, hret⟩ := (Option.any_eq_true _ _).mp hrun
  have hany : Reach step Init Any s := (Reach.start init_fresh).exec typed (.any _ _) hs
  have hnk : Reach step Init NoKill s := (Reach.start init_fresh).exec typed (by decide +kernel) hs
  rw [Bool.and_eq_true, beq_iff_eq, beq_iff_eq] at hret
  exact ⟨s, hs, hret.1, hret.2, ((console_line_discipline hany).2.2 hnk).1⟩

end Chameleon.Console
