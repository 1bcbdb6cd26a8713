import Chameleon.Lib.Conc
import Chameleon.Lib.Hoare

/-! One thread that runs alone: its program becomes a sequential one, which stops where it panics or would wait. -/

namespace Conc
open Hoare

section Run
variable {σ ι α β : Type} {A : Type → Type}

/-- One action of thread `p`. -/
def once (sem : Sem σ ι A) (p : ι) (a : A β) : Hoare.Prog σ β := fun s =>
  match sem p a s with
  | some (some b, s') => .ok (b, s')
  | _ => .error "waits"

/-- The run of a program by thread `p`, with no steps of other threads in between. -/
def solo (sem : Sem σ ι A) (p : ι) : Prog A α → Hoare.Prog σ α
  | .ret a => pure a
  | .panic msg => throw msg
  | .act a k => once sem p a >>= fun b => solo sem p (k b)

variable {sem : Sem σ ι A} {p : ι} {s s' : σ}

@[simp] theorem solo_lift (a : A β) : solo sem p (Prog.lift a) = once sem p a := bind_pure _

/-- Two programs one after the other. -/
@[simp] theorem solo_bind (x : Prog A α) (f : α → Prog A β) :
    solo sem p (x >>= f) = solo sem p x >>= fun a => solo sem p (f a) := by
  induction x with
  | ret a => rfl
  | panic msg => rfl
  | act a k ih =>
    change (once sem p a >>= fun b => solo sem p (k b >>= f)) = _
    rw [funext ih]
    exact (bind_assoc ..).symm

theorem run_once {a : A β} {b : β} (h : sem p a s = some (some b, s')) : (once sem p a).run s = .ok (b, s') := by
  change once sem p a s = _
  rw [once, h]

end Run

section Trace
variable {σ ι ω α β : Type} {A : Type → Type}

/-- What `obs` sees of the actions that thread `p` takes on its own, until its program ends or stops. -/
def trace (sem : Sem σ ι A) (obs : ∀ {β : Type}, A β → σ → β → List ω) (p : ι) : Prog A α → σ → List ω
  | .ret _, _ => []
  | .panic _, _ => []
  | .act a k, s =>
    match sem p a s with
    | some (some b, s') => obs a s b ++ trace sem obs p (k b) s'
    | _ => []

variable {sem : Sem σ ι A} {obs : ∀ {β : Type}, A β → σ → β → List ω} {p : ι} {s s' : σ}

theorem trace_act {a : A β} {k : β → Prog A α} {b : β} (h : sem p a s = some (some b, s')) :
    trace sem obs p (.act a k) s = obs a s b ++ trace sem obs p (k b) s' := by
  rw [trace, h]

theorem trace_lift {a : A β} {b : β} (h : sem p a s = some (some b, s')) :
    trace sem obs p (Prog.lift a) s = obs a s b := by
  rw [Prog.lift, trace_act h]
  exact List.append_nil _

/-- Two programs one after the other; the second one runs if the first one ends. -/
theorem trace_bind (x : Prog A α) (f : α → Prog A β) (s : σ) : trace sem obs p (x >>= f) s =
    trace sem obs p x s ++ ((solo sem p x).run s).toOption.elim [] fun r => trace sem obs p (f r.1) r.2 := by
  induction x generalizing s with
  | ret a => rfl
  | panic msg => rfl
  | act a k ih =>
    change trace sem obs p (.act a fun b => k b >>= f) s = _
    rcases hsem : sem p a s with _ | ⟨_ | b, s'⟩
    case some.some =>
      have hrun : (solo sem p (.act a k)).run s = (solo sem p (k b)).run s' := by
        rw [solo, run_bind_of_ok (run_once hsem)]
      rw [hrun, trace_act hsem, trace_act hsem, ih, List.append_assoc]
    all_goals
      have hrun : (solo sem p (.act a k)).run s = .error "waits" := by
        rw [solo, StateT.run_bind, StateT.run, once, hsem]
        rfl
      rw [hrun, trace, trace, hsem]
      rfl

theorem trace_bind_of_ok {x : Prog A α} {f : α → Prog A β} {a : α} (h : (solo sem p x).run s = .ok (a, s')) :
    trace sem obs p (x >>= f) s = trace sem obs p x s ++ trace sem obs p (f a) s' := by
  rw [trace_bind, h]
  rfl

end Trace

end Conc
