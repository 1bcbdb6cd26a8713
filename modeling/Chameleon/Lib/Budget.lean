import Mathlib.Data.Finset.Card
import Chameleon.Lib.Solo

/-! How many different things a thread that runs alone can be seen to do. -/

namespace Conc
open Hoare

section Budget
variable {σ ι ω α β : Type} {A : Type → Type}

/-- Started in `s` after `K` was seen, the program is seen to do `B` different things at most, and if it ends, it ends as
`Q` says of its result, its state and a bound for what was seen. -/
def Within (sem : Sem σ ι A) (obs : ∀ {β : Type}, A β → σ → β → List ω) (p : ι) (B : Nat) (K : Finset ω) (s : σ)
    (x : Prog A α) (Q : α → σ → Finset ω → Prop) : Prop :=
  ∃ L, K ⊆ L ∧ (∀ w ∈ trace sem obs p x s, w ∈ L) ∧ L.card ≤ B ∧ ∀ a t, (solo sem p x).run s = .ok (a, t) → Q a t L

variable {sem : Sem σ ι A} {obs : ∀ {β : Type}, A β → σ → β → List ω} {p : ι} {B : Nat}
variable {K : Finset ω} {s : σ} {x : Prog A α} {Q : α → σ → Finset ω → Prop}

theorem Within.ret {a : α} (hB : K.card ≤ B) (h : Q a s K) : Within sem obs p B K s (pure a) Q := by
  refine ⟨K, Finset.Subset.refl _, fun w hw => absurd hw List.not_mem_nil, hB, ?_⟩
  intro b t hrun
  obtain ⟨rfl, rfl⟩ := Prod.mk.inj (Except.ok.inj hrun)
  exact h

theorem Within.panic {msg : String} (hB : K.card ≤ B) : Within sem obs p B K s (.panic msg) Q := by
  refine ⟨K, Finset.Subset.refl _, fun w hw => absurd hw List.not_mem_nil, hB, ?_⟩
  intro b t hrun
  cases hrun

/-- What is to come may be counted in advance. -/
theorem Within.count {K' : Finset ω} (hK : K ⊆ K') (hx : Within sem obs p B K' s x Q) : Within sem obs p B K s x Q := by
  obtain ⟨L, hsub, hrest⟩ := hx
  exact ⟨L, hK.trans hsub, hrest⟩

theorem Within.bind {f : α → Prog A β} {R : β → σ → Finset ω → Prop} (hx : Within sem obs p B K s x Q)
    (hf : ∀ a t L, K ⊆ L → Q a t L → Within sem obs p B L t (f a) R) : Within sem obs p B K s (x >>= f) R := by
  obtain ⟨L, hsub, hseen, hcard, hend⟩ := hx
  cases hrun : (solo sem p x).run s with
  | error msg =>
    refine ⟨L, hsub, ?_, hcard, ?_⟩
    · rw [trace_bind, hrun]
      intro w hw
      exact hseen w ((List.append_nil _).subst hw)
    · intro b u hrun'
      rw [solo_bind, StateT.run_bind, hrun] at hrun'
      cases hrun'
  | ok r =>
    obtain ⟨L', hsub', hseen', hcard', hend'⟩ := hf r.1 r.2 L hsub (hend r.1 r.2 hrun)
    refine ⟨L', hsub.trans hsub', ?_, hcard', ?_⟩
    · rw [trace_bind_of_ok hrun]
      intro w hw
      rcases List.mem_append.mp hw with hw | hw
      · exact hsub' (hseen w hw)
      · exact hseen' w hw
    · intro b u hrun'
      rw [solo_bind, run_bind_of_ok hrun] at hrun'
      exact hend' b u hrun'

theorem Within.act {a : A α} {b : α} {t : σ} {f : α → Prog A β} {R : β → σ → Finset ω → Prop}
    (hrun : sem p a s = some (some b, t)) (hobs : ∀ w ∈ obs a s b, w ∈ K) (hf : Within sem obs p B K t (f b) R) :
    Within sem obs p B K s (Prog.lift a >>= f) R := by
  obtain ⟨L, hsub, hseen, hcard, hend⟩ := hf
  have hsolo : (solo sem p (Prog.lift a)).run s = .ok (b, t) := by
    rw [solo_lift]
    exact run_once hrun
  refine ⟨L, hsub, ?_, hcard, ?_⟩
  · rw [trace_bind_of_ok hsolo, trace_lift hrun]
    intro w hw
    rcases List.mem_append.mp hw with hw | hw
    · exact hsub (hobs w hw)
    · exact hseen w hw
  · intro c u hrun'
    rw [solo_bind, run_bind_of_ok hsolo] at hrun'
    exact hend c u hrun'

theorem Within.unseen {a : A α} {b : α} {t : σ} {f : α → Prog A β} {R : β → σ → Finset ω → Prop}
    (hrun : sem p a s = some (some b, t)) (hobs : obs a s b = []) (hf : Within sem obs p B K t (f b) R) :
    Within sem obs p B K s (Prog.lift a >>= f) R :=
  Within.act hrun (by rw [hobs]; exact fun w hw => absurd hw List.not_mem_nil) hf

theorem Within.post {Q' : α → σ → Finset ω → Prop} (hx : Within sem obs p B K s x Q)
    (hQ : ∀ a t L, K ⊆ L → Q a t L → Q' a t L) : Within sem obs p B K s x Q' := by
  obtain ⟨L, hsub, hseen, hcard, hend⟩ := hx
  exact ⟨L, hsub, hseen, hcard, fun a t hrun => hQ a t L hsub (hend a t hrun)⟩

theorem trace_quiet (hx : x.All (fun {_} a => ∀ s b, obs a s b = []) fun _ => True) : trace sem obs p x s = [] := by
  induction x generalizing s with
  | ret a => rfl
  | panic msg => rfl
  | act a k ih =>
    rw [trace]
    split
    · rw [hx.1, ih _ (hx.2 _)]
      rfl
    · rfl

theorem Within.quiet (hx : x.All (fun {_} a => ∀ s b, obs a s b = []) fun _ => True) (hB : K.card ≤ B)
    (hQ : ∀ a t, (solo sem p x).run s = .ok (a, t) → Q a t K) : Within sem obs p B K s x Q := by
  refine ⟨K, Finset.Subset.refl _, ?_, hB, hQ⟩
  rw [trace_quiet hx]
  exact fun w hw => absurd hw List.not_mem_nil

theorem Within.card_le [DecidableEq ω] (hx : Within sem obs p B ∅ s x Q) : (trace sem obs p x s).toFinset.card ≤ B := by
  obtain ⟨L, -, hseen, hcard, -⟩ := hx
  apply Nat.le_trans (Finset.card_le_card _) hcard
  intro w hw
  exact hseen w (List.mem_toFinset.mp hw)

end Budget

end Conc
