import Chameleon.Lib.Machine
import Chameleon.Fs.Filewrite

/-! Processes that write through one shared `struct file`, a turn of the loop of `filewrite` at a time. -/

namespace Chameleon.Fs
open Conc Hoare

section Turn

variable {sb : Super} {p : Pid} {f : FileId} {e : Entry} {s t : State} {file : Nat → Nat → UInt8} {src : List UInt8}

/-- What `filewrite` does with the result of `writei` for the chunk at the head of `src`. -/
def checked (src : List UInt8) : Option Nat → M (Option (List UInt8))
  | none => pure none
  | some m =>
    if m = (src.take filewriteMax).length then pure (some (src.drop filewriteMax)) else .panic "short filewrite"

/-- One turn of the loop of `filewrite`: the bytes that are left after it. -/
def chunk (sb : Super) (f : FileId) (e : Entry) (src : List UInt8) : M (Option (List UInt8)) := do
  let r ← filewriteOnce sb f e (src.take filewriteMax)
  checked src r

/-- A chunk is refused, or all of it is written. -/
theorem filewriteOnce_result {r : Option Nat} (h : Regular sb file f e s) (hsrc : src.length ≤ filewriteMax)
    (hrun : (solo (sem sb) p (filewriteOnce sb f e src)).run s = .ok (r, t)) :
    (r = none ∧ Advanced sb file f e [] s t) ∨ (r = some src.length ∧ Advanced sb file f e src s t) := by
  by_cases hend : (s.tab.file f).off + src.length ≤ MAXFILE * BSIZE
  · exact Or.inr ((filewriteOnce_spec h hsrc hend False.elim).result rfl hrun)
  · obtain ⟨u, hnone, hu⟩ := filewriteOnce_refused (p := p) h hsrc (Nat.lt_of_not_le hend)
    obtain ⟨rfl, rfl⟩ := Prod.mk.inj (Except.ok.inj (hnone.symm.trans hrun))
    exact Or.inl ⟨rfl, hu⟩

end Turn

section Machine

variable {sb : Super} {p : Pid} {f : FileId} {e : Entry} {s : State} {file : Nat → Nat → UInt8} {src : List UInt8}

/-- The processes that share `f`: what is left of the calls of each, the chunks written so far, and whether a call has
returned -1. -/
structure Writers where
  state : State
  left : Pid → List (List UInt8)
  chunks : List (Pid × List UInt8)
  failed : Bool

/-- A turn of process `p`. A panic ends the run. -/
def turn (sb : Super) (f : FileId) (e : Entry) (w : Writers) (p : Pid) : Option Writers :=
  match w.left p with
  | [] => none
  | src :: calls =>
    if src = [] then some { w with left := Function.update w.left p calls }
    else
      match (solo (sem sb) p (chunk sb f e src)).run w.state with
      | .error _ => none
      | .ok (none, s) => some ⟨s, Function.update w.left p calls, w.chunks, true⟩
      | .ok (some rest, s) =>
        some ⟨s, Function.update w.left p (rest :: calls), w.chunks ++ [(p, src.take filewriteMax)], w.failed⟩

/-- The state after a chunk of `src` for which `writei` returned `r`. -/
def Writers.after (w : Writers) (p : Pid) (src : List UInt8) (calls : List (List UInt8)) (s : State) (r : Option Nat) :
    Writers where
  state := s
  left := Function.update w.left p (r.elim calls fun _ => src.drop filewriteMax :: calls)
  chunks := r.elim w.chunks fun _ => w.chunks ++ [(p, src.take filewriteMax)]
  failed := r.elim true fun _ => w.failed

theorem turn_of_once {w : Writers} {calls : List (List UInt8)} {r : Option Nat} (hleft : w.left p = src :: calls)
    (hsrc : src ≠ []) (hrun : (solo (sem sb) p (filewriteOnce sb f e (src.take filewriteMax))).run w.state = .ok (r, s))
    (hr : r = none ∨ r = some (src.take filewriteMax).length) : turn sb f e w p = some (w.after p src calls s r) := by
  have hchunk : (solo (sem sb) p (chunk sb f e src)).run w.state = .ok (r.map fun _ => src.drop filewriteMax, s) := by
    rw [chunk, solo_bind, run_bind_of_ok hrun]
    rcases hr with rfl | rfl
    · rfl
    · rw [checked, if_pos rfl]
      rfl
  unfold turn
  simp only [hleft, if_neg hsrc, hchunk]
  cases r <;> rfl

theorem turn_cases {w w' : Writers} (h : turn sb f e w p = some w') :
    (∃ calls, w.left p = [] :: calls ∧ w' = { w with left := Function.update w.left p calls }) ∨
    ∃ src calls r s, w.left p = src :: calls ∧ src ≠ [] ∧
      (solo (sem sb) p (filewriteOnce sb f e (src.take filewriteMax))).run w.state = .ok (r, s) ∧
      w' = w.after p src calls s r := by
  unfold turn at h
  cases hleft : w.left p with
  | nil =>
    rw [hleft] at h
    cases h
  | cons src calls =>
    simp only [hleft] at h
    by_cases hsrc : src = []
    · rw [if_pos hsrc] at h
      subst hsrc
      exact Or.inl ⟨calls, rfl, (Option.some.inj h).symm⟩
    · rw [if_neg hsrc, chunk, solo_bind] at h
      cases hrun : (solo (sem sb) p (filewriteOnce sb f e (src.take filewriteMax))).run w.state with
      | error msg =>
        rw [StateT.run_bind, hrun] at h
        cases h
      | ok v =>
        obtain ⟨r, s⟩ := v
        refine Or.inr ⟨src, calls, r, s, rfl, hsrc, hrun, ?_⟩
        rw [run_bind_of_ok hrun] at h
        cases r with
        | none => exact (Option.some.inj h).symm
        | some m =>
          by_cases hm : m = (src.take filewriteMax).length
          · rw [checked, if_pos hm] at h
            exact (Option.some.inj h).symm
          · rw [checked, if_neg hm] at h
            cases h

/-- The chunks of a call, by a bound for their number. -/
def pieces : Nat → List UInt8 → List (List UInt8)
  | 0, _ => []
  | fuel + 1, src => if src = [] then [] else src.take filewriteMax :: pieces fuel (src.drop filewriteMax)

/-- The chunks that `filewrite` writes. -/
def chunksOf (src : List UInt8) : List (List UInt8) := pieces src.length src

theorem pieces_eq (n m : Nat) (hn : src.length ≤ n) (hm : src.length ≤ m) : pieces n src = pieces m src := by
  induction n generalizing m src with
  | zero =>
    obtain rfl : src = [] := List.length_eq_zero_iff.mp (Nat.le_zero.mp hn)
    cases m with
    | zero => rfl
    | succ m => rfl
  | succ n ih =>
    by_cases hsrc : src = []
    · subst hsrc
      cases m with
      | zero => rfl
      | succ m => rfl
    · obtain ⟨m, rfl⟩ : ∃ m', m = m' + 1 :=
        Nat.exists_eq_succ_of_ne_zero (Nat.ne_of_gt (Nat.lt_of_lt_of_le (List.length_pos_of_ne_nil hsrc) hm))
      rw [pieces, pieces, if_neg hsrc, if_neg hsrc,
        ih m (length_drop_lt (by decide) hsrc hn) (length_drop_lt (by decide) hsrc hm)]

theorem chunksOf_nil : chunksOf [] = [] := rfl

theorem chunksOf_of_ne (hsrc : src ≠ []) : chunksOf src = src.take filewriteMax :: chunksOf (src.drop filewriteMax) := by
  obtain ⟨n, hn⟩ := Nat.exists_eq_succ_of_ne_zero (Nat.ne_of_gt (List.length_pos_of_ne_nil hsrc))
  rw [chunksOf, hn, pieces, if_neg hsrc]
  congr 1
  exact pieces_eq n _ (length_drop_lt (by decide) hsrc (Nat.le_of_eq hn)) (Nat.le_refl _)

/-- The chunks of process `p`. -/
def chunksBy (cs : List (Pid × List UInt8)) (p : Pid) : List (List UInt8) := (cs.filter fun c => c.1 = p).map Prod.snd

theorem chunksBy_append_self (cs : List (Pid × List UInt8)) (p : Pid) (c : List UInt8) :
    chunksBy (cs ++ [(p, c)]) p = chunksBy cs p ++ [c] := by
  simp [chunksBy]

theorem chunksBy_append_of_ne (cs : List (Pid × List UInt8)) {p q : Pid} (h : q ≠ p) (c : List UInt8) :
    chunksBy (cs ++ [(p, c)]) q = chunksBy cs q := by
  simp [chunksBy, h.symm]

/-- The chunks written so far and those of the calls that are left are the chunks of `calls`. -/
def Ordered (calls left : Pid → List (List UInt8)) (cs : List (Pid × List UInt8)) : Prop :=
  ∀ p, chunksBy cs p ++ (left p).flatMap chunksOf = (calls p).flatMap chunksOf

theorem Ordered.returned {calls left : Pid → List (List UInt8)} {cs : List (Pid × List UInt8)} {rest : List (List UInt8)}
    (h : Ordered calls left cs) (hleft : left p = [] :: rest) : Ordered calls (Function.update left p rest) cs := by
  intro q
  have hq := h q
  by_cases hqp : q = p
  · subst hqp
    rw [hleft, List.flatMap_cons, chunksOf_nil, List.nil_append] at hq
    rw [Function.update_self]
    exact hq
  · rw [Function.update_of_ne hqp]
    exact hq

theorem Ordered.wrote {calls left : Pid → List (List UInt8)} {cs : List (Pid × List UInt8)} {rest : List (List UInt8)}
    (h : Ordered calls left cs) (hleft : left p = src :: rest) (hsrc : src ≠ []) :
    Ordered calls (Function.update left p (src.drop filewriteMax :: rest)) (cs ++ [(p, src.take filewriteMax)]) := by
  intro q
  have hq := h q
  by_cases hqp : q = p
  · subst hqp
    rw [hleft, List.flatMap_cons, chunksOf_of_ne hsrc] at hq
    rw [Function.update_self, chunksBy_append_self, List.flatMap_cons, List.append_assoc]
    exact hq
  · rw [Function.update_of_ne hqp, chunksBy_append_of_ne cs hqp]
    exact hq

/-- Nothing is written yet. -/
def Writers.start (s : State) (calls : Pid → List (List UInt8)) : Writers := ⟨s, calls, [], false⟩

/-- All that was written is in the file, in the order of the turns. -/
structure Kept (sb : Super) (file : Nat → Nat → UInt8) (f : FileId) (e : Entry) (s : State)
    (calls : Pid → List (List UInt8)) (w : Writers) : Prop where
  advanced : Advanced sb file f e (w.chunks.flatMap Prod.snd) s w.state
  order : Ordered calls w.left w.chunks

theorem Kept.turn {calls : Pid → List (List UInt8)} {w w' : Writers} (h : Kept sb file f e s calls w)
    (hturn : turn sb f e w p = some w') (hok : w'.failed = false) : Kept sb file f e s calls w' := by
  obtain ⟨rest, hleft, rfl⟩ | ⟨src, rest, r, t, hleft, hsrc, hrun, rfl⟩ := turn_cases hturn
  · exact ⟨h.advanced, h.order.returned hleft⟩
  · rcases filewriteOnce_result h.advanced.regular (List.length_take_le ..) hrun with ⟨rfl, -⟩ | ⟨rfl, hadv⟩
    · exact absurd hok nofun
    · refine ⟨?_, h.order.wrote hleft hsrc⟩
      change Advanced sb file f e ((w.chunks ++ [(p, src.take filewriteMax)]).flatMap Prod.snd) s t
      rw [List.flatMap_append, List.flatMap_singleton]
      exact h.advanced.trans hadv

theorem failed_of_turn {w w' : Writers} (hturn : Fs.turn sb f e w p = some w') (hok : w'.failed = false) :
    w.failed = false := by
  obtain ⟨rest, -, rfl⟩ | ⟨src, rest, r, t, -, -, -, rfl⟩ := turn_cases hturn
  · exact hok
  · cases r with
    | none => exact absurd hok nofun
    | some m => exact hok

theorem kept_of_reach {calls : Pid → List (List UInt8)} {w : Writers} (h : Regular sb file f e s)
    (hw : Machine.Reach (turn sb f e) (· = .start s calls) Machine.Any w) : w.failed = false → Kept sb file f e s calls w := by
  apply hw.invariant
  · rintro _ rfl -
    exact ⟨.refl h, fun _ => rfl⟩
  · intro w p w' hI _ hturn hok
    exact (hI (failed_of_turn hturn hok)).turn hturn hok

/-- A turn writes its chunk while the file has room for it. -/
theorem turn_wrote {w : Writers} {calls : List (List UInt8)} (h : Regular sb file f e w.state) (hleft : w.left p = src :: calls)
    (hsrc : src ≠ []) (hend : (w.state.tab.file f).off + (src.take filewriteMax).length ≤ MAXFILE * BSIZE)
    (hroom : Enough sb f e (src.take filewriteMax).length w.state) :
    ∃ t, turn sb f e w p = some ⟨t, Function.update w.left p (src.drop filewriteMax :: calls),
      w.chunks ++ [(p, src.take filewriteMax)], w.failed⟩ ∧
      Advanced sb file f e (src.take filewriteMax) w.state t := by
  obtain ⟨t, hrun, ht⟩ := filewriteOnce_ends (p := p) h (List.length_take_le ..) hend hroom
  exact ⟨t, turn_of_once hleft hsrc hrun (Or.inr rfl), ht⟩

end Machine

end Chameleon.Fs
