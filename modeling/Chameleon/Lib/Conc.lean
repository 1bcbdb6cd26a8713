import Mathlib.Logic.Function.Basic
import Mathlib.Tactic.Cases
import Chameleon.Lib.Machine

/-! Threads over shared state and a rely-guarantee logic for them. A program is a tree of atomic
actions; a system says what each action does, which programs a thread may start and what the
environment may do to the whole pool. `Safe` follows one thread through its program while the
other threads change the state as `Rely` allows. -/

namespace Conc

/-- Programs over the atomic actions `A`, with a panic as a second way to end. -/
inductive Prog (A : Type → Type) (α : Type) : Type 1
  | ret (a : α) : Prog A α
  | panic (msg : String) : Prog A α
  | act {β : Type} (a : A β) (k : β → Prog A α) : Prog A α

namespace Prog
variable {A : Type → Type} {α β : Type}

def bind : Prog A α → (α → Prog A β) → Prog A β
  | ret a, f => f a
  | panic msg, _ => panic msg
  | act a k, f => act a fun b => (k b).bind f

instance : Monad (Prog A) where
  pure := ret
  bind := bind

theorem bind_assoc {γ : Type} (x : Prog A α) (f : α → Prog A β) (g : β → Prog A γ) :
    x >>= f >>= g = x >>= fun a => f a >>= g := by
  induction x with
  | ret a => rfl
  | panic msg => rfl
  | act a k ih => exact congrArg (act a) (funext ih)

theorem bind_pure (x : Prog A α) : x >>= pure = x := by
  induction x with
  | ret a => rfl
  | panic msg => rfl
  | act a k ih => exact congrArg (act a) (funext ih)

/-- The program of one action. -/
def lift (a : A α) : Prog A α := act a ret

/-- Every action the program may take satisfies `P`, and every panic `E`. -/
def All (P : ∀ {β : Type}, A β → Prop) (E : String → Prop) : Prog A α → Prop
  | ret _ => True
  | panic msg => E msg
  | act a k => P a ∧ ∀ b, All P E (k b)

variable {P : ∀ {β : Type}, A β → Prop} {E : String → Prop}

theorem All.bind {x : Prog A α} {f : α → Prog A β} (hx : All P E x) (hf : ∀ a, All P E (f a)) :
    All P E (x >>= f) := by
  induction x with
  | ret a => exact hf a
  | panic msg => exact hx
  | act a k ih => exact ⟨hx.1, fun b => ih b (hx.2 b)⟩

theorem All.lift {a : A α} (h : P a) : All P E (lift a : Prog A α) := ⟨h, fun _ => trivial⟩

end Prog

/-- A shared state and the programs its threads still have to run. -/
structure Pool (σ ι : Type) (A : Type → Type) where
  st : σ
  thr : ι → Prog A Unit

/-- What the actions do. An action without outcome is blocked; one with the outcome `none` has
changed the state and is to be taken again, as a loop around `sleep` does. -/
abbrev Sem (σ ι : Type) (A : Type → Type) := ι → ∀ {β : Type}, A β → σ → Option (Option β × σ)

/-- Atomic actions, the programs `J` a thread may be given, and the events `ε` that reach the
pool from outside. -/
structure System (σ ι J ε : Type) (A : Type → Type) where
  sem : Sem σ ι A
  may : ι → J → σ → Bool
  body : ι → J → Prog A Unit
  env : ε → Pool σ ι A → Option (Pool σ ι A)

inductive Event (ι J ε : Type)
  | run (p : ι)
  | start (p : ι) (j : J)
  | env (e : ε)

section Semantics
variable {σ ι J ε : Type} {A : Type → Type} [DecidableEq ι]

namespace System

/-- The next action of thread `p`. A finished, panicked or blocked thread has none. -/
def runStep (S : System σ ι J ε A) (p : ι) (c : Pool σ ι A) : Option (Pool σ ι A) :=
  match c.thr p with
  | .act a k => (S.sem p a c.st).map fun r =>
      ⟨r.2, r.1.elim c.thr fun b => Function.update c.thr p (k b)⟩
  | _ => none

/-- An idle thread is given a new program. -/
def startStep (S : System σ ι J ε A) (p : ι) (j : J) (c : Pool σ ι A) :
    Option (Pool σ ι A) :=
  match c.thr p with
  | .ret _ => if S.may p j c.st then some ⟨c.st, Function.update c.thr p (S.body p j)⟩ else none
  | _ => none

def step (S : System σ ι J ε A) (c : Pool σ ι A) : Event ι J ε → Option (Pool σ ι A)
  | .run p => S.runStep p c
  | .start p j => S.startStep p j c
  | .env e => S.env e c

end System

/-- The runs in which every action satisfies `ok` in the state it is taken from. -/
def Acts (ok : ι → ∀ {β : Type}, A β → σ → Prop) (c : Pool σ ι A) : Event ι J ε → Prop
  | .run p =>
    match c.thr p with
    | .act a _ => ok p a c.st
    | _ => True
  | _ => True

omit [DecidableEq ι] in
theorem Acts.mono {ok ok' : ι → ∀ {β : Type}, A β → σ → Prop}
    (hle : ∀ p {β : Type} (a : A β) s, ok p a s → ok' p a s) {c : Pool σ ι A} {e : Event ι J ε}
    (h : Acts ok c e) : Acts ok' c e := by
  cases e with
  | run p =>
    cases hthr : c.thr p with
    | ret a => simp only [Acts, hthr]
    | panic msg => simp only [Acts, hthr]
    | act a k =>
      simp only [Acts, hthr] at h ⊢
      exact hle p a c.st h
  | start p j => trivial
  | env e => trivial

omit [DecidableEq ι] in
theorem Acts.of_forall {ok : ι → ∀ {β : Type}, A β → σ → Prop}
    (h : ∀ p {β : Type} (a : A β) s, ok p a s) (c : Pool σ ι A) (e : Event ι J ε) :
    Acts ok c e := by
  cases e with
  | run p =>
    cases hthr : c.thr p with
    | ret a => simp only [Acts, hthr]
    | panic msg => simp only [Acts, hthr]
    | act a k =>
      simp only [Acts, hthr]
      exact h p a c.st
  | start p j => trivial
  | env e => trivial

instance {ok : ι → ∀ {β : Type}, A β → σ → Prop} [∀ p (β : Type) (a : A β) s, Decidable (ok p a s)]
    (c : Pool σ ι A) : (e : Event ι J ε) → Decidable (Acts ok c e)
  | .run p =>
    match h : c.thr p with
    | .ret _ => .isTrue (by simp only [Acts, h])
    | .panic _ => .isTrue (by simp only [Acts, h])
    | .act a _ => decidable_of_iff (ok p a c.st) (by simp only [Acts, h])
  | .start _ _ => inferInstanceAs (Decidable True)
  | .env _ => inferInstanceAs (Decidable True)

end Semantics

/-- What a proof about a system fixes: the steps a run may take, what has to hold where a thread
is about to take an action, the invariant over the state and a ghost state, what a thread may rely
on, and the panics that are allowed. -/
structure Logic (σ γ ι : Type) (A : Type → Type) where
  sem : Sem σ ι A
  ok : ι → ∀ {β : Type}, A β → σ → Prop
  Must : ι → ∀ {β : Type}, A β → σ → γ → Prop := fun _ {_} _ _ _ => True
  Inv : σ → γ → Prop
  Rely : ι → σ → γ → σ → γ → Prop
  Allowed : String → Prop
  refl : ∀ p s g, Rely p s g s g
  trans : ∀ {p s g s₁ g₁ s₂ g₂}, Rely p s g s₁ g₁ → Rely p s₁ g₁ s₂ g₂ → Rely p s g s₂ g₂

namespace Logic
variable {σ γ ι α β : Type} {A : Type → Type} (L : Logic σ γ ι A)

/-- From `(s, g)` the thread keeps the invariant and the other threads' relies at each of its
actions, panics only as allowed, and ends with `Q`. -/
def Safe (p : ι) : Prog A α → (α → σ → γ → Prop) → σ → γ → Prop
  | .ret a, Q, s, g => Q a s g
  | .panic msg, _, _, _ => L.Allowed msg
  | .act a k, Q, s, g => ∀ s₁ g₁, L.Rely p s g s₁ g₁ → L.Inv s₁ g₁ → L.ok p a s₁ →
      L.Must p a s₁ g₁ ∧ (∀ s₂, L.sem p a s₁ = some (none, s₂) →
        ∃ g₂, L.Inv s₂ g₂ ∧ ∀ q, L.Rely q s₁ g₁ s₂ g₂) ∧
      ∀ b s₂, L.sem p a s₁ = some (some b, s₂) →
        ∃ g₂, L.Inv s₂ g₂ ∧ (∀ q, q ≠ p → L.Rely q s₁ g₁ s₂ g₂) ∧ Safe p (k b) Q s₂ g₂

def Stable (p : ι) (P : σ → γ → Prop) : Prop :=
  ∀ s g s₁ g₁, L.Rely p s g s₁ g₁ → L.Inv s₁ g₁ → P s g → P s₁ g₁

/-- Started in `P`, the program is safe and ends in `Q`. -/
def Triple (p : ι) (P : σ → γ → Prop) (x : Prog A α) (Q : α → σ → γ → Prop) : Prop :=
  ∀ s g, L.Inv s g → P s g → L.Safe p x Q s g

variable {L} {p : ι} {P P' : σ → γ → Prop} {s : σ} {g : γ}

theorem Safe.rely {x : Prog A α} {Q : α → σ → γ → Prop} (hQ : ∀ a, L.Stable p (Q a))
    (h : L.Safe p x Q s g) {s₁ : σ} {g₁ : γ} (hr : L.Rely p s g s₁ g₁) (hi : L.Inv s₁ g₁) :
    L.Safe p x Q s₁ g₁ := by
  cases x with
  | ret a => exact hQ a _ _ _ _ hr hi h
  | panic msg => exact h
  | act a k => exact fun s₂ g₂ hr₂ => h s₂ g₂ (L.trans hr hr₂)

-- The invariant holds again wherever the first program ends, so the second may assume it.
theorem Safe.bind {x : Prog A α} {f : α → Prog A β} {Q : α → σ → γ → Prop}
    {R : β → σ → γ → Prop} (hi : L.Inv s g) (h : L.Safe p x Q s g)
    (hf : ∀ a, L.Triple p (Q a) (f a) R) : L.Safe p (x.bind f) R s g := by
  induction x generalizing s g with
  | ret a => exact hf a s g hi h
  | panic msg => exact h
  | act a k ih =>
    intro s₁ g₁ hr hi₁ hok
    obtain ⟨hmust, hagain, hdone⟩ := h s₁ g₁ hr hi₁ hok
    refine ⟨hmust, hagain, fun b s₂ hs => ?_⟩
    obtain ⟨g₂, hi₂, hrest, hk⟩ := hdone b s₂ hs
    exact ⟨g₂, hi₂, hrest, ih b hi₂ hk⟩

theorem Triple.bind {x : Prog A α} {f : α → Prog A β} {Q : α → σ → γ → Prop}
    {R : β → σ → γ → Prop} (hx : L.Triple p P x Q) (hf : ∀ a, L.Triple p (Q a) (f a) R) :
    L.Triple p P (x >>= f) R :=
  fun s g hi hP => Safe.bind hi (hx s g hi hP) hf

theorem Triple.ret {a : α} {Q : α → σ → γ → Prop} (h : ∀ s g, L.Inv s g → P s g → Q a s g) :
    L.Triple p P (pure a) Q := h

theorem Triple.panic {msg : String} {Q : α → σ → γ → Prop}
    (h : ∀ s g, L.Inv s g → P s g → L.Allowed msg) : L.Triple p P (.panic msg) Q := h

theorem Triple.pre {x : Prog A α} {Q : α → σ → γ → Prop} (hx : L.Triple p P x Q)
    (h : ∀ s g, L.Inv s g → P' s g → P s g) : L.Triple p P' x Q :=
  fun s g hi hP => hx s g hi (h s g hi hP)

theorem Triple.post {x : Prog A α} {Q Q' : α → σ → γ → Prop} (hx : L.Triple p P x Q)
    (hQ : ∀ a s g, L.Inv s g → Q a s g → Q' a s g) : L.Triple p P x Q' := by
  rw [← x.bind_pure]
  exact hx.bind fun a => Triple.ret (hQ a)

theorem Triple.exists {δ : Type} {P : δ → σ → γ → Prop} {x : Prog A α} {Q : α → σ → γ → Prop}
    (h : ∀ d, L.Triple p (P d) x Q) : L.Triple p (fun s g => ∃ d, P d s g) x Q :=
  fun s g hi ⟨d, hd⟩ => h d s g hi hd

/-- A fact that follows from the precondition may be assumed. -/
theorem Triple.assume {φ : Prop} {x : Prog A α} {Q : α → σ → γ → Prop}
    (hφ : ∀ s g, L.Inv s g → P s g → φ) (h : φ → L.Triple p P x Q) : L.Triple p P x Q :=
  fun s g hi hP => h (hφ s g hi hP) s g hi hP

theorem Triple.given {φ : Prop} {x : Prog A α} {Q : α → σ → γ → Prop}
    (h : φ → L.Triple p P x Q) : L.Triple p (fun s g => φ ∧ P s g) x Q :=
  fun s g hi hP => h hP.1 s g hi hP.2

/-- A logic that asks nothing of the actions themselves. -/
class Free (L : Logic σ γ ι A) : Prop where
  must : ∀ p {β : Type} (a : A β) s g, L.Must p a s g

theorem free [L.Free] {a : A α} (s : σ) (g : γ) (_ : L.Inv s g) (_ : P s g) : L.Must p a s g := Free.must p a s g

/-- The rule for one action: its precondition is stable, and from a state that satisfies it the
action re-establishes the invariant for some ghost state the others may rely on. -/
theorem Triple.act {a : A α} {Q : α → σ → γ → Prop}
    (hmust : ∀ s g, L.Inv s g → P s g → L.Must p a s g) (hst : L.Stable p P)
    (hagain : ∀ s g s', L.Inv s g → P s g → L.ok p a s → L.sem p a s = some (none, s') →
      ∃ g', L.Inv s' g' ∧ ∀ q, L.Rely q s g s' g')
    (hdone : ∀ s g b s', L.Inv s g → P s g → L.ok p a s → L.sem p a s = some (some b, s') →
      ∃ g', L.Inv s' g' ∧ (∀ q, q ≠ p → L.Rely q s g s' g') ∧ Q b s' g') :
    L.Triple p P (.lift a) Q := by
  intro s g _ hP s₁ g₁ hr hi₁ hok
  have hP₁ := hst s g s₁ g₁ hr hi₁ hP
  exact ⟨hmust s₁ g₁ hi₁ hP₁, fun s₂ hs => hagain s₁ g₁ s₂ hi₁ hP₁ hok hs,
    fun b s₂ hs => hdone s₁ g₁ b s₂ hi₁ hP₁ hok hs⟩

/-- The rule for an action that is never taken again. -/
theorem Triple.once {a : A α} {Q : α → σ → γ → Prop}
    (hmust : ∀ s g, L.Inv s g → P s g → L.Must p a s g) (hst : L.Stable p P)
    (hnever : ∀ s s', L.sem p a s ≠ some (none, s'))
    (hdone : ∀ s g b s', L.Inv s g → P s g → L.ok p a s → L.sem p a s = some (some b, s') →
      ∃ g', L.Inv s' g' ∧ (∀ q, q ≠ p → L.Rely q s g s' g') ∧ Q b s' g') :
    L.Triple p P (.lift a) Q :=
  Triple.act hmust hst (fun s _ s' _ _ _ hs => absurd hs (hnever s s')) hdone

theorem Triple.read {a : A α} {Q : α → σ → γ → Prop}
    (hmust : ∀ s g, L.Inv s g → P s g → L.Must p a s g) (hst : L.Stable p P)
    (hsame : ∀ s r s', L.sem p a s = some (r, s') → s' = s)
    (h : ∀ s g b, L.Inv s g → P s g → L.sem p a s = some (some b, s) → Q b s g) :
    L.Triple p P (.lift a) Q := by
  refine Triple.act hmust hst (fun s g s' hi _ _ hs => ?_) fun s g b s' hi hP _ hs => ?_
  · obtain rfl := hsame s _ s' hs
    exact ⟨g, hi, fun q => L.refl q _ g⟩
  · obtain rfl := hsame s _ s' hs
    exact ⟨g, hi, fun q _ => L.refl q _ g, h _ g b hi hP hs⟩

/-- A program keeps what each of its actions keeps. -/
theorem Triple.all {K : ∀ {β : Type}, A β → Prop} {x : Prog A α} (hx : x.All K L.Allowed)
    (hK : ∀ {β : Type} (a : A β), K a → L.Triple p P (.lift a) fun _ => P) :
    L.Triple p P x fun _ => P := by
  induction x with
  | ret a => exact Triple.ret fun s g _ h => h
  | panic msg => exact Triple.panic fun _ _ _ _ => hx
  | act a k ih => exact (hK a hx.1).bind fun b => ih b (hx.2 b)

end Logic

/-- A pool every thread of which is safe for one common ghost state; an idle thread satisfies
`Idle`. -/
def Good {σ γ ι : Type} {A : Type → Type} (L : Logic σ γ ι A) (Idle : ι → σ → γ → Prop)
    (c : Pool σ ι A) : Prop :=
  ∃ g, L.Inv c.st g ∧ ∀ p, L.Safe p (c.thr p) (fun _ => Idle p) c.st g

section Soundness
variable {σ γ ι J ε : Type} {A : Type → Type} [DecidableEq ι]
  {S : System σ ι J ε A} {L : Logic σ γ ι A} {Idle : ι → σ → γ → Prop}

/-- One action of a pool with safe threads, seen from the state and from the other threads. -/
theorem runStep_safe (hsem : @L.sem = @S.sem) (hidle : ∀ p, L.Stable p (Idle p)) {p : ι}
    {c c' : Pool σ ι A} {g : γ} (hi : L.Inv c.st g)
    (hsafe : ∀ p, L.Safe p (c.thr p) (fun _ => Idle p) c.st g)
    (hok : Acts (J := J) (ε := ε) L.ok c (.run p)) (hs : S.runStep p c = some c') :
    ∃ (β : Type) (a : A β) (k : β → Prog A Unit) (r : Option β) (g' : γ), c.thr p = .act a k ∧
      L.sem p a c.st = some (r, c'.st) ∧ L.Inv c'.st g' ∧
      (∀ q, q ≠ p → L.Rely q c.st g c'.st g') ∧
      ∀ q, L.Safe q (c'.thr q) (fun _ => Idle q) c'.st g' := by
  unfold System.runStep at hs
  unfold Acts at hok
  split at hs
  · rename_i β a k hthr
    simp only [hthr] at hok
    obtain ⟨⟨r, s₂⟩, hsem₂, rfl⟩ := Option.map_eq_some_iff.mp hs
    have hp := hsafe p
    rw [hthr] at hp
    obtain ⟨-, hagain, hdone⟩ := hp _ _ (L.refl p c.st g) hi hok
    rw [← hsem] at hsem₂
    cases r with
    | none =>
      obtain ⟨g₂, hi₂, hrest⟩ := hagain s₂ hsem₂
      exact ⟨β, a, k, none, g₂, hthr, hsem₂, hi₂, fun q _ => hrest q,
        fun q => (hsafe q).rely (fun _ => hidle q) (hrest q) hi₂⟩
    | some b =>
      obtain ⟨g₂, hi₂, hrest, hk⟩ := hdone b s₂ hsem₂
      refine ⟨β, a, k, some b, g₂, hthr, hsem₂, hi₂, hrest, fun q => ?_⟩
      by_cases hq : q = p
      · subst hq
        simpa only [Option.elim_some, Function.update_self] using hk
      · simpa only [Option.elim_some, Function.update_of_ne hq] using
          (hsafe q).rely (fun _ => hidle q) (hrest q hq) hi₂
  · simp at hs

theorem Good.runStep (hsem : @L.sem = @S.sem) (hidle : ∀ p, L.Stable p (Idle p)) {p : ι}
    {c c' : Pool σ ι A} (h : Good L Idle c) (hok : Acts (J := J) (ε := ε) L.ok c (.run p))
    (hs : S.runStep p c = some c') : Good L Idle c' := by
  obtain ⟨g, hi, hsafe⟩ := h
  obtain ⟨_, _, _, _, g', -, -, hi', -, hsafe'⟩ := runStep_safe hsem hidle hi hsafe hok hs
  exact ⟨g', hi', hsafe'⟩

/-- A start changes one thread, and nothing of the shared state. -/
theorem startStep_safe (hbody : ∀ p j s g, L.Inv s g → S.may p j s = true → Idle p s g →
      L.Safe p (S.body p j) (fun _ => Idle p) s g) {p : ι} {j : J} {c c' : Pool σ ι A} {g : γ}
    (hi : L.Inv c.st g) (hsafe : ∀ p, L.Safe p (c.thr p) (fun _ => Idle p) c.st g)
    (hs : S.startStep p j c = some c') :
    c'.st = c.st ∧ ∀ q, L.Safe q (c'.thr q) (fun _ => Idle q) c.st g := by
  unfold System.startStep at hs
  split at hs
  · rename_i u hthr
    split at hs
    · rename_i hmay
      obtain rfl := Option.some.inj hs
      refine ⟨rfl, fun q => ?_⟩
      by_cases hq : q = p
      · subst hq
        have hp := hsafe q
        rw [hthr] at hp
        simpa only [Function.update_self] using hbody q j c.st g hi hmay hp
      · simpa only [Function.update_of_ne hq] using hsafe q
    · simp at hs
  · simp at hs

theorem Good.startStep (hbody : ∀ p j s g, L.Inv s g → S.may p j s = true → Idle p s g →
      L.Safe p (S.body p j) (fun _ => Idle p) s g) {p : ι} {j : J}
    {c c' : Pool σ ι A} (h : Good L Idle c) (hs : S.startStep p j c = some c') :
    Good L Idle c' := by
  obtain ⟨g, hi, hsafe⟩ := h
  obtain ⟨hst, hsafe'⟩ := startStep_safe hbody hi hsafe hs
  exact ⟨g, hst ▸ hi, hst ▸ hsafe'⟩

/-- Safe programs make every pool that a run reaches good. -/
theorem Good.of_reach {init : Pool σ ι A → Prop} (hsem : @L.sem = @S.sem)
    (hstable : ∀ p, L.Stable p (Idle p))
    (hbody : ∀ p j s g, L.Inv s g → S.may p j s = true → Idle p s g →
      L.Safe p (S.body p j) (fun _ => Idle p) s g)
    (henv : ∀ e c c', Good L Idle c → S.env e c = some c' → Good L Idle c')
    (hinit : ∀ c, init c → Good L Idle c) {c : Pool σ ι A}
    (h : Machine.Reach S.step init (Acts L.ok) c) : Good L Idle c := by
  refine h.invariant hinit fun c e c' hgood hok hs => ?_
  cases e with
  | run p => exact hgood.runStep hsem hstable hok hs
  | start p j => exact hgood.startStep hbody hs
  | env e => exact henv e c c' hgood hs

end Soundness

/-- A state `ω` that follows the actions of a pool and the events that reach it, and does not
influence them. Both functions are given the shared state before the event. -/
structure Observer (σ ι ε ω : Type) (A : Type → Type) where
  act : ι → ∀ {β : Type}, A β → σ → ω → ω
  env : ε → σ → ω → ω

section Observers
variable {σ γ ι J ε ω : Type} {A : Type → Type}

/-- What the observer makes of an event. -/
def Observer.follow (O : Observer σ ι ε ω A) (c : Pool σ ι A) : Event ι J ε → ω → ω
  | .run p, o =>
    match c.thr p with
    | .act a _ => O.act p a c.st o
    | _ => o
  | .start _ _, o => o
  | .env e, o => O.env e c.st o

variable [DecidableEq ι] {S : System σ ι J ε A} {O : Observer σ ι ε ω A} {L : Logic σ γ ι A}
  {Idle : ι → σ → γ → Prop}

def System.watched (S : System σ ι J ε A) (O : Observer σ ι ε ω A) (c : Pool σ ι A × ω)
    (e : Event ι J ε) : Option (Pool σ ι A × ω) :=
  (S.step c.1 e).map fun c' => (c', O.follow c.1 e c.2)

/-- A good pool together with what is known of its observer. -/
def GoodWith (L : Logic σ γ ι A) (Idle : ι → σ → γ → Prop) (T : σ → γ → Prop) (c : Pool σ ι A) :
    Prop :=
  ∃ g, L.Inv c.st g ∧ (∀ p, L.Safe p (c.thr p) (fun _ => Idle p) c.st g) ∧ T c.st g

/-- What each action keeps of the observer, given the invariant around it and what the other
threads may rely on, holds in every pool that a run reaches. -/
theorem GoodWith.of_reach {T : ω → σ → γ → Prop} {init : Pool σ ι A × ω → Prop}
    (hsem : @L.sem = @S.sem) (hstable : ∀ p, L.Stable p (Idle p))
    (hbody : ∀ p j s g, L.Inv s g → S.may p j s = true → Idle p s g →
      L.Safe p (S.body p j) (fun _ => Idle p) s g)
    (hact : ∀ p {β : Type} (a : A β) s g r s' g' o, L.Inv s g → L.sem p a s = some (r, s') →
      L.Inv s' g' → (∀ q, q ≠ p → L.Rely q s g s' g') → T o s g → T (O.act p a s o) s' g')
    (henv : ∀ e c c' o, GoodWith L Idle (T o) c → S.env e c = some c' →
      GoodWith L Idle (T (O.env e c.st o)) c')
    (hinit : ∀ c, init c → GoodWith L Idle (T c.2) c.1) {c : Pool σ ι A × ω}
    (h : Machine.Reach (S.watched O) init (fun c e => Acts L.ok c.1 e) c) :
    GoodWith L Idle (T c.2) c.1 := by
  refine h.invariant hinit fun c e c' hgood hok hs => ?_
  obtain ⟨c₁, hstep, rfl⟩ := Option.map_eq_some_iff.mp hs
  obtain ⟨g, hi, hsafe, hT⟩ := hgood
  cases e with
  | run p =>
    obtain ⟨β, a, k, r, g', hthr, hsem', hi', hrest, hsafe'⟩ :=
      runStep_safe hsem hstable hi hsafe hok hstep
    refine ⟨g', hi', hsafe', ?_⟩
    simp only [Observer.follow, hthr]
    exact hact p a c.1.st g r c₁.st g' c.2 hi hsem' hi' hrest hT
  | start p j =>
    obtain ⟨hst, hsafe'⟩ := startStep_safe hbody hi hsafe hstep
    refine ⟨g, ?_, ?_, ?_⟩ <;> rw [hst]
    · exact hi
    · exact hsafe'
    · exact hT
  | env e => exact henv e c.1 c₁ c.2 ⟨g, hi, hsafe, hT⟩ hstep

end Observers

end Conc
