import Mathlib.Logic.Basic

/-! Sequential programs over a state, which may stop with a message, and their triples. -/

namespace Hoare

/-- A program over states `σ`: it ends with a result and a state, or stops with a message. -/
abbrev Prog (σ α : Type) := StateT σ (Except String) α

section Run
variable {σ α β : Type} {s s' : σ} {a : α} {x : Prog σ α}

theorem run_bind_of_ok {f : α → Prog σ β} (h : x.run s = .ok (a, s')) : (x >>= f).run s = (f a).run s' := by
  rw [StateT.run_bind, h]
  rfl

theorem run_get_bind (f : σ → Prog σ β) (s : σ) : (get >>= f).run s = (f s).run s := rfl

theorem run_modify_bind (f : σ → σ) (y : Prog σ β) (s : σ) : (modify f >>= fun _ => y).run s = y.run (f s) := rfl

end Run

/-- From a state in `P` the program stops only with messages in `stop`, and otherwise ends
in `Q`. -/
def Triple {σ α : Type} (stop : String → Prop) (P : σ → Prop) (x : Prog σ α)
    (Q : α → σ → Prop) : Prop :=
  ∀ s, P s → match x.run s with
    | .error e => stop e
    | .ok (a, s') => Q a s'

namespace Triple
variable {σ α β : Type} {stop : String → Prop} {P P' : σ → Prop} {Q Q' : α → σ → Prop}
variable {R : β → σ → Prop} {x : Prog σ α}

theorem ret {a : α} (h : ∀ s, P s → Q a s) : Triple stop P (Pure.pure a) Q := h

theorem fail {e : String} (h : stop e) : Triple stop P (throw e : Prog σ α) Q := fun _ _ => h

theorem conseq (hx : Triple stop P x Q) (hP : ∀ s, P' s → P s) (hQ : ∀ a s, Q a s → Q' a s) :
    Triple stop P' x Q' := by
  intro s hs
  have hrun := hx s (hP s hs)
  cases hr : x.run s with
  | error e => simpa only [hr] using hrun
  | ok r =>
    simp only [hr] at hrun
    exact hQ _ _ hrun

theorem pre (hx : Triple stop P x Q) (hP : ∀ s, P' s → P s) : Triple stop P' x Q :=
  hx.conseq hP fun _ _ h => h

theorem post (hx : Triple stop P x Q) (hQ : ∀ a s, Q a s → Q' a s) : Triple stop P x Q' :=
  hx.conseq (fun _ h => h) hQ

/-- More messages may be allowed. -/
theorem stops {stop' : String → Prop} (hx : Triple stop P x Q) (h : ∀ e, stop e → stop' e) : Triple stop' P x Q := by
  intro s hs
  have hrun := hx s hs
  cases hr : x.run s with
  | error e =>
    simp only [hr] at hrun
    exact h e hrun
  | ok r => simpa only [hr] using hrun

theorem bind {f : α → Prog σ β} (hx : Triple stop P x Q) (hf : ∀ a, Triple stop (Q a) (f a) R) :
    Triple stop P (x >>= f) R := by
  intro s hs
  have hrun := hx s hs
  rw [StateT.run_bind]
  cases hr : x.run s with
  | error e =>
    simp only [hr] at hrun
    exact hrun
  | ok r =>
    simp only [hr] at hrun
    exact hf r.1 r.2 hrun

theorem read {f : σ → Prog σ β} (hf : ∀ s, P s → Triple stop (fun s' => s' = s) (f s) R) :
    Triple stop P (get >>= f) R := fun s hs => hf s hs s rfl

/-- A triple from each state of the precondition. -/
theorem each (hx : ∀ s, P s → Triple stop (fun t => t = s) x Q) : Triple stop P x Q := fun s hs => hx s hs s rfl

/-- A first statement whose run is known. -/
theorem runs {s s' : σ} {a : α} {f : α → Prog σ β} (h : x.run s = .ok (a, s')) (hf : Triple stop (fun t => t = s') (f a) R) :
    Triple stop (fun t => t = s) (x >>= f) R := by
  rintro t rfl
  rw [run_bind_of_ok h]
  exact hf s' rfl

theorem ran {s s' : σ} {a : α} (h : x.run s = .ok (a, s')) (hQ : Q a s') : Triple stop (fun t => t = s) x Q := by
  rintro t rfl
  rw [h]
  exact hQ

theorem upd (P' : σ → Prop) {f : σ → σ} {y : Prog σ β} (hf : ∀ s, P s → P' (f s)) (hy : Triple stop P' y R) :
    Triple stop P (modify f >>= fun _ => y) R := fun s hs => hy (f s) (hf s hs)

theorem ite {c : Prop} [Decidable c] {y : Prog σ α} (hx : c → Triple stop P x Q)
    (hy : ¬ c → Triple stop P y Q) : Triple stop P (if c then x else y) Q := by
  split
  case isTrue h => exact hx h
  case isFalse h => exact hy h

/-- Two triples of one program: it stops only as the second allows. -/
theorem and {stop' : String → Prop} (hx : Triple stop P x Q) (hx' : Triple stop' P' x Q') :
    Triple stop' (fun s => P s ∧ P' s) x fun a s => Q a s ∧ Q' a s := by
  intro s hs
  have h := hx s hs.1
  have h' := hx' s hs.2
  cases hr : x.run s with
  | error e =>
    simp only [hr] at h'
    exact h'
  | ok r =>
    simp only [hr] at h h'
    exact ⟨h, h'⟩

/-- A fact about the state that does not depend on it can be taken out of the precondition. -/
theorem assume {p : Prop} (hx : p → Triple stop P x Q) :
    Triple stop (fun s => p ∧ P s) x Q := fun s hs => hx hs.1 s hs.2

/-- So can what follows from the precondition. -/
theorem given {p : Prop} (hp : ∀ s, P s → p) (hx : p → Triple stop P x Q) : Triple stop P x Q :=
  fun s hs => hx (hp s hs) s hs

/-- A precondition that names a witness holds for each of them. -/
theorem exists_pre {ι : Type*} {P : ι → σ → Prop} (hx : ∀ i, Triple stop (P i) x Q) :
    Triple stop (fun s => ∃ i, P i s) x Q := fun s hs => hs.elim fun i hi => hx i s hi

theorem exists_given {ι : Type*} {P : ι → σ → Prop} {p : ι → Prop} (hx : ∀ i, p i → Triple stop (P i) x Q) :
    Triple stop (fun s => ∃ i, P i s ∧ p i) x Q := by
  rintro s ⟨i, hs, hp⟩
  exact hx i hp s hs

theorem any : Triple (fun _ => True) P x fun _ _ => True := by
  intro s _
  cases x.run s <;> exact trivial

/-- What a run that ends leaves. -/
theorem result {s s' : σ} {a : α} (hx : Triple stop P x Q) (hs : P s) (h : x.run s = .ok (a, s')) : Q a s' := by
  have hrun := hx s hs
  rwa [h] at hrun

/-- A program that cannot stop ends. -/
theorem ends {s : σ} (hx : Triple (fun _ => False) P x Q) (hs : P s) : ∃ a s', x.run s = .ok (a, s') ∧ Q a s' := by
  have hrun := hx s hs
  cases hr : x.run s with
  | error e =>
    rw [hr] at hrun
    exact hrun.elim
  | ok r =>
    rw [hr] at hrun
    exact ⟨r.1, r.2, rfl, hrun⟩

end Triple

/-! ### Watched programs

A watch is a ghost statement that looks at the state and may stop the program. -/

def Watches {σ : Type} (w : Prog σ Unit) : Prop := ∀ s r, w.run s = .ok r → r = ((), s)

/-- When `x` ends, so does `y`, with the same result in the same state. -/
def Erases {σ α : Type} (x y : Prog σ α) : Prop := ∀ s r, x.run s = .ok r → y.run s = .ok r

namespace Erases
variable {σ α β : Type} {w : Prog σ Unit} {x y : Prog σ α} {f g : α → Prog σ β}

theorem refl (x : Prog σ α) : Erases x x := fun _ _ h => h

theorem bind (hx : Erases x y) (hf : ∀ a, Erases (f a) (g a)) : Erases (x >>= f) (y >>= g) := by
  intro s r h
  rw [StateT.run_bind] at h ⊢
  cases hr : x.run s with
  | error e =>
    rw [hr] at h
    cases h
  | ok p =>
    rw [hr] at h
    rw [hx s p hr]
    exact hf p.1 p.2 r h

/-- A watch may be replaced by a statement that does nothing. -/
theorem watch (hw : Watches w) (hx : Erases x y) :
    Erases (w >>= fun _ => x) (Pure.pure () >>= fun _ => y) := by
  intro s r h
  rw [StateT.run_bind] at h
  cases hr : w.run s with
  | error e =>
    rw [hr] at h
    cases h
  | ok p =>
    obtain rfl := hw s p hr
    rw [hr] at h
    exact hx s r h

theorem ite {c : Prop} [Decidable c] {x' y' : Prog σ α} (hx : Erases x y) (hx' : Erases x' y') :
    Erases (if c then x else x') (if c then y else y') := by
  split
  · exact hx
  · exact hx'

/-- What is known of a program whose end is not, holds of it with watches. -/
theorem triple {stop : String → Prop} {P : σ → Prop} {Q : α → σ → Prop} (h : Erases x y) (hstop : ∀ e, stop e)
    (hy : Triple stop P y Q) : Triple stop P x Q := by
  intro s hs
  have hrun := hy s hs
  cases hx : x.run s with
  | error e => exact hstop e
  | ok r =>
    rw [h s r hx] at hrun
    exact hrun

end Erases
end Hoare
