import Mathlib.Logic.Basic
import Mathlib.Data.Option.Basic

/-! Machines given by a partial step function on labelled steps. A run is a list of labels.
The predicate `ok` restricts the steps a run may take, so that one machine carries both its
unconditional and its conditional safety statements. -/

namespace Machine
variable {σ ε : Type*} {step : σ → ε → Option σ} {init : σ → Prop} {ok : σ → ε → Prop}

/-- The state in which a run of labels ends, when every step of it is enabled. -/
def exec (step : σ → ε → Option σ) : σ → List ε → Option σ
  | s, [] => some s
  | s, e :: es => (step s e).bind fun s' => exec step s' es

/-- The states that runs from `init` reach with every step satisfying `ok`. -/
inductive Reach (step : σ → ε → Option σ) (init : σ → Prop) (ok : σ → ε → Prop) : σ → Prop
  | start {s : σ} (h : init s) : Reach step init ok s
  | next {s s' : σ} {e : ε} (h : Reach step init ok s) (hok : ok s e)
      (hs : step s e = some s') : Reach step init ok s'

/-- A run with no restriction on its steps. -/
def Any (_ : σ) (_ : ε) : Prop := True

/-- An invariant needs to survive only the steps a run may take. -/
theorem Reach.invariant {I : σ → Prop} (h₀ : ∀ s, init s → I s)
    (hstep : ∀ s e s', I s → ok s e → step s e = some s' → I s')
    {s : σ} (h : Reach step init ok s) : I s := by
  induction h with
  | start hi => exact h₀ _ hi
  | next _ hok hs ih => exact hstep _ _ _ ih hok hs

theorem Reach.mono {ok' : σ → ε → Prop} (hle : ∀ s e, ok s e → ok' s e)
    {s : σ} (h : Reach step init ok s) : Reach step init ok' s := by
  induction h with
  | start hi => exact .start hi
  | next _ hok hs ih => exact .next ih (hle _ _ hok) hs

/-- An invariant by which the steps that satisfy `ok` also satisfy `ok'`. What is known of the runs
of `ok'` serves to prove it. -/
theorem Reach.relax {ok' : σ → ε → Prop} {I : σ → Prop} (h₀ : ∀ s, init s → I s)
    (hok : ∀ s e, Reach step init ok' s → I s → ok s e → ok' s e)
    (hstep : ∀ s e s', Reach step init ok' s → Reach step init ok' s' → I s → ok s e →
      step s e = some s' → I s') {s : σ} (h : Reach step init ok s) :
    Reach step init ok' s ∧ I s := by
  induction h with
  | start hi => exact ⟨.start hi, h₀ _ hi⟩
  | next _ hokse hs ih =>
    have hnext := Reach.next ih.1 (hok _ _ ih.1 ih.2 hokse) hs
    exact ⟨hnext, hstep _ _ _ ih.1 hnext ih.2 hokse hs⟩

/-- Every step of a run satisfies `ok` in the state it is taken from. -/
def Meets (step : σ → ε → Option σ) (ok : σ → ε → Prop) : σ → List ε → Prop
  | _, [] => True
  | s, e :: es => ok s e ∧ (step s e).elim True fun s' => Meets step ok s' es

instance Meets.decidable [∀ s e, Decidable (ok s e)] :
    ∀ s es, Decidable (Meets step ok s es)
  | _, [] => inferInstanceAs (Decidable True)
  | s, e :: es =>
    haveI : Decidable ((step s e).elim True fun s' => Meets step ok s' es) :=
      match step s e with
      | none => inferInstanceAs (Decidable True)
      | some s' => Meets.decidable s' es
    inferInstanceAs (Decidable (ok s e ∧ _))

theorem Meets.any (s : σ) (es : List ε) : Meets step Any s es := by
  induction es generalizing s with
  | nil => trivial
  | cons e es ih =>
    refine ⟨trivial, ?_⟩
    cases step s e with
    | none => trivial
    | some t => exact ih t

theorem Reach.exec {s s' : σ} (h : Reach step init ok s) (es : List ε)
    (hok : Meets step ok s es) (he : exec step s es = some s') : Reach step init ok s' := by
  induction es generalizing s with
  | nil =>
    obtain rfl : s = s' := by simpa only [Machine.exec, Option.some.injEq] using he
    exact h
  | cons e es ih =>
    obtain ⟨t, ht, hrest⟩ := Option.bind_eq_some_iff.mp he
    have htail : Meets step ok t es := by simpa only [ht, Option.elim_some] using hok.2
    exact ih (.next h hok.1 ht) htail hrest

/-- The machine that refuses the steps that do not satisfy `ok`. -/
def guarded (step : σ → ε → Option σ) (ok : σ → ε → Prop) [∀ s e, Decidable (ok s e)] (s : σ)
    (e : ε) : Option σ := if ok s e then step s e else none

theorem exec_guarded [∀ s e, Decidable (ok s e)] {s s' : σ} {es : List ε}
    (h : Machine.exec (guarded step ok) s es = some s') :
    Meets step ok s es ∧ Machine.exec step s es = some s' := by
  induction es generalizing s with
  | nil => exact ⟨trivial, h⟩
  | cons e es ih =>
    obtain ⟨t, ht, hrest⟩ := Option.bind_eq_some_iff.mp h
    obtain ⟨hok, hs⟩ := Option.ite_none_right_eq_some.mp ht
    obtain ⟨hmeets, hexec⟩ := ih hrest
    refine ⟨⟨hok, ?_⟩, ?_⟩
    · rwa [hs]
    · rw [Machine.exec, hs]
      exact hexec

/-- How many steps of a run satisfy `f`. -/
def tally (step : σ → ε → Option σ) (f : σ → ε → Bool) : σ → List ε → Nat
  | _, [] => 0
  | s, e :: es => (f s e).toNat + (step s e).elim 0 fun s' => tally step f s' es

/-- A quantity that the steps in `f` raise by one and those in `g` lower by one. -/
theorem tally_balance {f g : σ → ε → Bool} {I : σ → Prop} {n : σ → Nat}
    (hI : ∀ s e s', I s → step s e = some s' → I s')
    (hstep : ∀ s e s', I s → step s e = some s' → n s + (f s e).toNat = (g s e).toNat + n s')
    {s s' : σ} (hs : I s) {es : List ε} (h : exec step s es = some s') :
    n s + tally step f s es = tally step g s es + n s' := by
  induction es generalizing s with
  | nil =>
    obtain rfl := Option.some.inj h
    simp [tally]
  | cons e es ih =>
    obtain ⟨t, ht, hrest⟩ := Option.bind_eq_some_iff.mp h
    have hone := hstep s e t hs ht
    have hmany := ih (hI s e t hs ht) hrest
    simp only [tally, ht, Option.elim_some]
    omega

end Machine
