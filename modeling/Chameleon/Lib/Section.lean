import Chameleon.Lib.Solo

/-! Threads that change the state only in sections under one lock, and otherwise only read. Whatever their
interleaving, the states in which the lock is free are those of a machine that takes each section in one step. -/

namespace Conc
open Hoare Machine

/-- A lock: who holds it, and what is true of the state whether or not it is held. -/
structure Lock (σ ι : Type) (A : Type → Type) where
  sem : Sem σ ι A
  holder : σ → Option ι
  Inv : σ → Prop

namespace Lock
variable {σ ι α β : Type} {A : Type → Type}

/-- Thread `p` is in a section: it never waits, and it keeps the lock up to an action after which the rest of its
program and the state satisfy `Q`. -/
def Inside (L : Lock σ ι A) (p : ι) (Q : Prog A α → σ → Prop) : Prog A α → σ → Prop
  | .ret _, _ => False
  | .panic _, _ => True
  | .act a k, s => ∀ r s', L.sem p a s = some (r, s') → ∃ b, r = some b ∧ L.Inv s' ∧
      ((L.holder s' = some p ∧ L.Inside p Q (k b) s') ∨ (L.holder s' = none ∧ Q (k b) s'))

/-- A program that is a section from its first action to its last one. -/
def Section (L : Lock σ ι A) (p : ι) : Prog A α → σ → Prop := L.Inside p fun y _ => ∃ a, y = .ret a

/-- An action that keeps the lock. -/
def Keeps (L : Lock σ ι A) (p : ι) (a : A β) : Prop :=
  ∀ s r s', L.Inv s → L.holder s = some p → L.sem p a s = some (r, s') →
    (∃ b, r = some b) ∧ L.Inv s' ∧ L.holder s' = some p

variable {L : Lock σ ι A} {p : ι} {s s' : σ} {Q : Prog A α → σ → Prop}

theorem Inside.lift {a : A β} {b : β} {f : β → Prog A α} (hsem : L.sem p a s = some (some b, s')) (hinv : L.Inv s')
    (hheld : L.holder s' = some p) (hf : L.Inside p Q (f b) s') : L.Inside p Q (Prog.lift a >>= f) s := by
  intro r t hr
  obtain ⟨rfl, rfl⟩ := Prod.mk.inj (Option.some.inj (hsem.symm.trans hr))
  exact ⟨b, rfl, hinv, Or.inl ⟨hheld, hf⟩⟩

/-- The actions of `x` keep the lock. -/
theorem Inside.keeps {x : Prog A β} {f : β → Prog A α} (hx : x.All (L.Keeps p) fun _ => True) (hinv : L.Inv s)
    (hheld : L.holder s = some p)
    (hf : ∀ b t, (solo L.sem p x).run s = .ok (b, t) → L.Inv t → L.holder t = some p → L.Inside p Q (f b) t) :
    L.Inside p Q (x >>= f) s := by
  induction x generalizing s with
  | ret b => exact hf b s rfl hinv hheld
  | panic msg => trivial
  | act a k ih =>
    intro r t hr
    obtain ⟨⟨b, rfl⟩, hinv', hheld'⟩ := hx.1 s r t hinv hheld hr
    refine ⟨b, rfl, hinv', Or.inl ⟨hheld', ih b (hx.2 b) hinv' hheld' fun c u hrun => hf c u ?_⟩⟩
    rw [solo, run_bind_of_ok (run_once hr)]
    exact hrun

/-- A section leaves the state that it leaves when its thread runs alone. -/
theorem Section.bind {x : Prog A β} {f : β → Prog A α} (hx : L.Section p x s)
    (hf : ∀ b t, (solo L.sem p x).run s = .ok (b, t) → Q (f b) t) : L.Inside p Q (x >>= f) s := by
  induction x generalizing s with
  | ret b => exact hx.elim
  | panic msg => trivial
  | act a k ih =>
    intro r t hr
    obtain ⟨b, rfl, hinv, hrest⟩ := hx r t hr
    have hrun : (solo L.sem p (.act a k)).run s = (solo L.sem p (k b)).run t := by
      rw [solo, run_bind_of_ok (run_once hr)]
    refine ⟨b, rfl, hinv, hrest.imp (fun hin => ⟨hin.1, ih b hin.2 fun c u hc => hf c u (hrun.trans hc)⟩) ?_⟩
    rintro ⟨hfree, c, hc⟩
    refine ⟨hfree, ?_⟩
    change Q (k b >>= f) t
    rw [hc] at hrun ⊢
    exact hf c t hrun

/-- The next action of thread `p` outside its sections reads, or it takes the lock. A section that begins in `s₀` ends
in `Q`. -/
def Outside (L : Lock σ ι A) (p : ι) (P : Prog A Unit → Prop) (s₀ : σ) (Q : Prog A Unit → σ → Prop) :
    Prog A Unit → Prop
  | .ret _ => True
  | .panic _ => True
  | .act a k =>
    (∀ s r s', L.Inv s → L.sem p a s = some (r, s') → s' = s ∧ ∃ b, r = some b ∧ P (k b)) ∨
    ∀ s r s', L.sem p a s = some (r, s') → L.holder s = none ∧
      (s = s₀ → ∃ b, r = some b ∧ L.Inv s' ∧ L.holder s' = some p ∧ L.Inside p Q (k b) s')

end Lock

section Serial
variable {σ ι ω J ε : Type} {A : Type → Type} (L : Lock σ ι A)
variable (R : ω → Prop) (st : ω → σ) (Rep : ι → Prog A Unit → ω → Prop)

/-- The machine has taken a section of thread `p`, which still has to run `y`. -/
def Taken (p : ι) (w : ω) (y : Prog A Unit) (t : σ) : Prop :=
  ∃ w', R w' ∧ st w' = t ∧ Rep p y w' ∧ ∀ q, q ≠ p → ∀ z, Rep q z w → Rep q z w'

/-- A machine that takes the sections one by one. Its states are those with `R`; in `w` the shared state is `st w`, and
`Rep p x w` says that thread `p` still has to run `x`. -/
structure Serial : Prop where
  free : ∀ w, R w → L.Inv (st w) ∧ L.holder (st w) = none
  next : ∀ w p x, R w → Rep p x w → L.Outside p (Rep p · w) (st w) (Taken R st Rep p w) x

/-- The pool is where the machine is. -/
def Between (c : Pool σ ι A) : Prop := ∃ w, R w ∧ st w = c.st ∧ ∀ p, Rep p (c.thr p) w

/-- Thread `q` is in a section, which the machine takes when it ends. -/
structure During (w : ω) (q : ι) (c : Pool σ ι A) : Prop where
  reached : R w
  inv : L.Inv c.st
  held : L.holder c.st = some q
  inside : L.Inside q (Taken R st Rep q w) (c.thr q) c.st
  others : ∀ p, p ≠ q → Rep p (c.thr p) w

variable {L R st Rep} [DecidableEq ι] {S : System σ ι J ε A} {p q : ι} {c c' : Pool σ ι A} {w : ω}

theorem runStep_cases (h : S.runStep p c = some c') : ∃ (β : Type) (a : A β) (k : β → Prog A Unit) (r : Option β),
    c.thr p = .act a k ∧ S.sem p a c.st = some (r, c'.st) ∧ ∀ b, r = some b → c'.thr = Function.update c.thr p (k b) := by
  unfold System.runStep at h
  split at h
  case h_1 β a k hthr =>
    obtain ⟨⟨r, t⟩, hsem, rfl⟩ := Option.map_eq_some_iff.mp h
    refine ⟨β, a, k, r, hthr, hsem, ?_⟩
    rintro b rfl
    rfl
  case h_2 => cases h

theorem Between.step (h : Serial L R st Rep) (hsem : @S.sem = @L.sem) (hc : Between R st Rep c)
    (hs : S.runStep p c = some c') : Between R st Rep c' ∨ ∃ w, During L R st Rep w p c' := by
  obtain ⟨w, hw, hst, hrep⟩ := hc
  obtain ⟨β, a, k, r, hthr, hact, hrest⟩ := runStep_cases hs
  have hout := h.next w p _ hw (hrep p)
  rw [hthr] at hout
  rw [hsem] at hact
  rcases hout with hread | htake
  · obtain ⟨hsame, b, rfl, hb⟩ := hread _ _ _ (hst ▸ (h.free w hw).1) hact
    refine Or.inl ⟨w, hw, hst.trans hsame.symm, ?_⟩
    rw [hrest b rfl]
    exact (Function.forall_update_iff c.thr fun q x => Rep q x w).mpr ⟨hb, fun q _ => hrep q⟩
  · obtain ⟨b, rfl, hinv, hheld, hin⟩ := (htake _ _ _ hact).2 hst.symm
    refine Or.inr ⟨w, hw, hinv, hheld, ?_, fun q hq => ?_⟩
    · rw [hrest b rfl, Function.update_self]
      exact hin
    · rw [hrest b rfl, Function.update_of_ne hq]
      exact hrep q

/-- The thread in the section goes on; another one reads, or waits for the lock. -/
theorem During.step (h : Serial L R st Rep) (hsem : @S.sem = @L.sem) (hc : During L R st Rep w q c)
    (hs : S.runStep p c = some c') : Between R st Rep c' ∨ During L R st Rep w q c' := by
  obtain ⟨hw, hinv, hheld, hin, hothers⟩ := hc
  obtain ⟨β, a, k, r, hthr, hact, hrest⟩ := runStep_cases hs
  rw [hsem] at hact
  -- A step of the thread in the section; then one of another thread, which cannot take the lock.
  by_cases hpq : p = q
  · subst hpq
    rw [hthr] at hin
    obtain ⟨b, rfl, hinv', ⟨hheld', hin'⟩ | ⟨-, w', hw', hst', hrep', hkept⟩⟩ := hin _ _ hact
    · refine Or.inr ⟨hw, hinv', hheld', ?_, fun q hq => ?_⟩
      · rw [hrest b rfl, Function.update_self]
        exact hin'
      · rw [hrest b rfl, Function.update_of_ne hq]
        exact hothers q hq
    · refine Or.inl ⟨w', hw', hst', ?_⟩
      rw [hrest b rfl]
      exact (Function.forall_update_iff c.thr fun q x => Rep q x w').mpr ⟨hrep', fun q hq => hkept q hq _ (hothers q hq)⟩
  · have hout := h.next w p _ hw (hothers p hpq)
    rw [hthr] at hout
    rcases hout with hread | htake
    · obtain ⟨hsame, b, rfl, hb⟩ := hread _ _ _ hinv hact
      refine Or.inr ⟨hw, hsame ▸ hinv, hsame ▸ hheld, ?_, ?_⟩
      · rw [hrest b rfl, Function.update_of_ne (Ne.symm hpq), hsame]
        exact hin
      · rw [hrest b rfl]
        exact (Function.forall_update_iff c.thr fun p x => p ≠ q → Rep p x w).mpr ⟨fun _ => hb, fun p _ => hothers p⟩
    · have hfree := (htake _ _ _ hact).1
      rw [hheld] at hfree
      cases hfree

/-- Every interleaving of the threads is one of whole sections, as seen while nobody holds the lock. -/
theorem Serial.between [IsEmpty J] [IsEmpty ε] (h : Serial L R st Rep) (hsem : @S.sem = @L.sem) {init : Pool σ ι A → Prop}
    (hinit : ∀ c, init c → Between R st Rep c) (hc : Reach S.step init Any c) (hfree : L.holder c.st = none) :
    Between R st Rep c := by
  -- Either no thread is in a section, or exactly one is; every step keeps this.
  have hinv : Between R st Rep c ∨ ∃ w q, During L R st Rep w q c := by
    apply hc.invariant (fun c hc => Or.inl (hinit c hc))
    intro c e c' hI _ hs
    cases e with
    | run p =>
      rcases hI with hbetween | ⟨w, q, hduring⟩
      · exact (hbetween.step h hsem hs).imp_right fun ⟨w, hw⟩ => ⟨w, p, hw⟩
      · exact (hduring.step h hsem hs).imp_right fun hw => ⟨w, q, hw⟩
    | start p j => exact isEmptyElim j
    | env e => exact isEmptyElim e
  rcases hinv with hbetween | ⟨w, q, hduring⟩
  · exact hbetween
  · rw [hduring.held] at hfree
    cases hfree

end Serial

end Conc
