import Mathlib.Algebra.BigOperators.Group.Finset.Piecewise
import Mathlib.Algebra.Order.BigOperators.Group.Finset
import Mathlib.Data.Fintype.Card
import Mathlib.Data.List.Dedup
import Chameleon.Log.Model

/-! The invariant of the log. What survives a crash is stated over `Com`, the part of the state
that only a committing process changes; the cache is tied to it by the contents of its clean
buffers and by the pinned ones. -/

namespace Chameleon.Log
open Conc Bio

/-- The blocks after a list of updates. -/
def apply (us : List Update) (d : Nat → Block) : Nat → Block :=
  us.foldl (fun d u => Function.update d u.blockno u.data) d

theorem apply_append (us vs : List Update) (d : Nat → Block) :
    apply (us ++ vs) d = apply vs (apply us d) := List.foldl_append ..

theorem apply_concat (us : List Update) (u : Update) (d : Nat → Block) :
    apply (us ++ [u]) d = Function.update (apply us d) u.blockno u.data := apply_append ..

theorem apply_of_not_mem {us : List Update} {b : Nat} (h : ∀ u ∈ us, u.blockno ≠ b)
    (d : Nat → Block) : apply us d b = d b := by
  induction us generalizing d with
  | nil => rfl
  | cons u us ih =>
    have hu : b ≠ u.blockno := (h u List.mem_cons_self).symm
    exact (ih (fun v hv => h v (List.mem_cons_of_mem _ hv)) _).trans (Function.update_of_ne hu ..)

theorem header_putHeader (l : List Nat) (d : Block) : header (putHeader l d) = l := by
  refine List.ext_getElem (by simp [header, putHeader]) fun i _ hi => ?_
  simp [header, putHeader, hi]

theorem header_eq_nil {d : Block} : header d = [] ↔ d 0 = 0 := by simp [header]

/-- What a committing or recovering process owns: the disk, the in-memory header, the history, and
how many blocks of the header on disk it has installed. -/
structure Com where
  disk : Nat → Block
  lh : List Nat
  groups : List (List Update)
  cur : List Update
  up : Bool
  installed : Nat

namespace Com

/-- The home blocks as the committed groups leave them. -/
def committed (c : Com) (d₀ : Nat → Block) : Nat → Block := apply c.groups.flatten d₀

/-- The home blocks with the updates that are not committed yet. -/
def view (c : Com) (d₀ : Nat → Block) : Nat → Block := apply c.cur (c.committed d₀)

def head (c : Com) (La : Area) : List Nat := header (c.disk La.start)

/-- The blocks whose home on disk is behind. -/
def pend (c : Com) (La : Area) : List Nat :=
  if c.head La = [] then c.lh else (c.head La).drop c.installed

/-- What a clean buffer of the block holds. -/
def look (c : Com) (La : Area) (d₀ : Nat → Block) (b : Nat) : Block :=
  if La.Home b ∧ c.up = true then c.view d₀ b else c.disk b

/-- The disk while its header is empty. -/
structure Open (c : Com) (La : Area) (d₀ : Nat → Block) : Prop where
  disk : ∀ b, La.Home b → c.disk b = c.committed d₀ b
  home : ∀ b ∈ c.lh, La.Home b
  nodup : c.lh.Nodup
  mem : ∀ b, b ∈ c.lh ↔ ∃ u ∈ c.cur, u.blockno = b
  room : LOGSIZE ≤ La.size ∨ c.lh.length + 1 ≤ La.size

/-- The disk while its header names the blocks of the last committed group. -/
structure Sealed (c : Com) (La : Area) (d₀ : Nat → Block) : Prop where
  cur : c.cur = []
  home : ∀ b ∈ c.head La, La.Home b
  nodup : (c.head La).Nodup
  room : (c.head La).length + 1 ≤ La.size
  log : ∀ j (hj : j < (c.head La).length),
    c.disk (La.start + j + 1) = c.committed d₀ ((c.head La).get ⟨j, hj⟩)
  disk : ∀ b, La.Home b → b ∉ (c.head La).drop c.installed → c.disk b = c.committed d₀ b

/-- What recovery needs of the disk. -/
def Durable (c : Com) (La : Area) (d₀ : Nat → Block) : Prop :=
  if c.head La = [] then c.Open La d₀ else c.Sealed La d₀

variable {c : Com} {La : Area} {d₀ : Nat → Block}

theorem Durable.open (h : c.Durable La d₀) (hh : c.head La = []) : c.Open La d₀ := by
  simpa only [Durable, if_pos hh] using h

theorem Durable.sealed (h : c.Durable La d₀) (hh : c.head La ≠ []) : c.Sealed La d₀ := by
  simpa only [Durable, if_neg hh] using h

theorem Open.durable (h : c.Open La d₀) (hh : c.head La = []) : c.Durable La d₀ := by
  simpa only [Durable, if_pos hh] using h

theorem Sealed.durable (h : c.Sealed La d₀) (hh : c.head La ≠ []) : c.Durable La d₀ := by
  simpa only [Durable, if_neg hh] using h

theorem Open.view_of_not_mem (h : c.Open La d₀) {b : Nat} (hb : b ∉ c.lh) :
    c.view d₀ b = c.committed d₀ b :=
  apply_of_not_mem (fun u hu he => hb ((h.mem b).mpr ⟨u, hu, he⟩)) _

/-- A home block that is not pending is up to date on disk. -/
theorem Durable.disk_eq_view (h : c.Durable La d₀) {b : Nat} (hb : La.Home b)
    (hp : b ∉ c.pend La) : c.disk b = c.view d₀ b := by
  by_cases hh : c.head La = []
  · have ho := h.open hh
    rw [pend, if_pos hh] at hp
    rw [ho.view_of_not_mem hp, ho.disk b hb]
  · have hs := h.sealed hh
    rw [pend, if_neg hh] at hp
    rw [view, hs.cur, hs.disk b hb hp]
    rfl

theorem pend_of_head (hh : c.head La = []) : c.pend La = c.lh := if_pos hh

theorem look_of_home {b : Nat} (hb : La.Home b) (hu : c.up = true) :
    c.look La d₀ b = c.view d₀ b := if_pos ⟨hb, hu⟩

theorem look_of_log {b : Nat} (hb : ¬ La.Home b) : c.look La d₀ b = c.disk b :=
  if_neg fun h => hb h.1

theorem look_of_down {b : Nat} (hu : c.up = false) : c.look La d₀ b = c.disk b :=
  if_neg fun h => by simp [hu] at h

theorem look_eq_disk (h : c.Durable La d₀) {b : Nat} (hp : c.up = true → b ∉ c.pend La) :
    c.look La d₀ b = c.disk b := by
  by_cases hb : La.Home b
  · cases hu : c.up with
    | false => exact look_of_down hu
    | true => rw [look_of_home hb hu, h.disk_eq_view hb (hp hu)]
  · exact look_of_log hb

end Com

/-- Ghost state: the references each process has taken, the buffers whose holder has changed
them without logging or writing them, the process that commits or recovers, and its progress. -/
structure Ghost where
  ref : Pid → Fin NBUF → Nat
  mod : Fin NBUF → Bool
  who : Option Pid
  installed : Nat

def com (s : State) (g : Ghost) : Com where
  disk := s.disk
  lh := s.lh
  groups := s.hist.groups
  cur := s.hist.cur
  up := s.up
  installed := g.installed

/-- Operations keep to one group, and nothing of an outstanding one is committed. -/
structure HistWf (h : Hist) : Prop where
  lt : ∀ {p o}, h.op p = some o → o < h.nextOp
  inj : ∀ {p q o}, h.op p = some o → h.op q = some o → p = q
  old : ∀ u ∈ h.groups.flatten ++ h.cur, u.op < h.nextOp
  gone : ∀ u ∈ h.groups.flatten, ∀ p, h.op p ≠ some u.op
  sep : ∀ u ∈ h.groups.flatten, ∀ v ∈ h.cur, u.op ≠ v.op
  pair : h.groups.Pairwise fun G G' => ∀ u ∈ G, ∀ v ∈ G', u.op ≠ v.op

structure Inv (La : Area) (d₀ : Nat → Block) (s : State) (g : Ghost) : Prop where
  cache : Bio.Wf s.cache
  refs : ∀ i, (s.buf i).refcnt = ∑ p, g.ref p i
  held : ∀ {i p}, (s.buf i).holder = some p → 0 < g.ref p i
  dirtyValid : ∀ {i}, (s.buf i).dirty = true → (s.buf i).valid = true
  dev : ∀ {i}, (s.buf i).valid = true → (s.buf i).dev = ROOTDEV
  modHeld : ∀ {i}, g.mod i = true → (s.buf i).holder ≠ none
  clean : ∀ {i b}, (s.buf i).valid = true → (s.buf i).caches b → g.mod i = false →
    (s.buf i).data = (com s g).look La d₀ b
  pins : s.up = true → ∀ b ∈ (com s g).pend La,
    ∃ i, (s.buf i).caches b ∧ (s.buf i).dirty = true
  durable : (com s g).Durable La d₀
  ops : s.outstanding = (Finset.univ.filter fun p => s.hist.op p ≠ none).card
  idle : g.who ≠ none → ∀ p, s.hist.op p = none
  quiet : g.who = none → (com s g).head La = []
  who : g.who.isSome = (s.committing || !s.up)
  settled : g.who = none → s.outstanding = 0 → s.hist.cur = []
  down : s.up = false → s.committing = false ∧ g.who = some boot ∧ s.hist.cur = []
  hist : HistWf s.hist

/-- What a process may rely on: its references keep their buffers, a buffer it has locked changes
only by itself, and while it commits the log is its own. -/
structure Rely (p : Pid) (s : State) (g : Ghost) (s' : State) (g' : Ghost) : Prop where
  ref : ∀ i, g'.ref p i = g.ref p i
  ident : ∀ i, 0 < g.ref p i →
    (s'.buf i).dev = (s.buf i).dev ∧ (s'.buf i).blockno = (s.buf i).blockno
  lock : ∀ i, (s'.buf i).holder = some p ↔ (s.buf i).holder = some p
  locked : ∀ i, (s.buf i).holder = some p → (s'.buf i).valid = (s.buf i).valid ∧
    (s'.buf i).dirty = (s.buf i).dirty ∧ (s'.buf i).data = (s.buf i).data ∧ g'.mod i = g.mod i
  op : s'.hist.op p = s.hist.op p
  who : g'.who = some p ↔ g.who = some p
  com : g.who = some p → com s' g' = com s g
  up : s.up = true → s'.up = true

theorem Rely.refl (p : Pid) (s : State) (g : Ghost) : Rely p s g s g :=
  ⟨fun _ => rfl, fun _ _ => ⟨rfl, rfl⟩, fun _ => Iff.rfl, fun _ _ => ⟨rfl, rfl, rfl, rfl⟩, rfl,
    Iff.rfl, fun _ => rfl, id⟩

theorem Rely.trans {p : Pid} {s s₁ s₂ : State} {g g₁ g₂ : Ghost} (h : Rely p s g s₁ g₁)
    (h' : Rely p s₁ g₁ s₂ g₂) : Rely p s g s₂ g₂ where
  ref i := (h'.ref i).trans (h.ref i)
  ident i hi := by
    have h₁ := h.ident i hi
    have h₂ := h'.ident i (h.ref i ▸ hi)
    exact ⟨h₂.1.trans h₁.1, h₂.2.trans h₁.2⟩
  lock i := (h'.lock i).trans (h.lock i)
  locked i hi := by
    obtain ⟨a, b, c, d⟩ := h.locked i hi
    obtain ⟨a', b', c', d'⟩ := h'.locked i ((h.lock i).mpr hi)
    exact ⟨a'.trans a, b'.trans b, c'.trans c, d'.trans d⟩
  op := h'.op.trans h.op
  who := h'.who.trans h.who
  com hp := (h'.com (h.who.mpr hp)).trans (h.com hp)
  up := h'.up ∘ h.up

/-- A block that is added to the header has room in the log area, unless the area is as long as
`LOGSIZE`: then the cache runs out of buffers before the log does. -/
def Roomy (La : Area) (_ : Pid) {β : Type} : Act β → State → Prop
  | .append i, s => s.up = true →
      LOGSIZE ≤ La.size ∨ (s.buf i).blockno ∈ s.lh ∨ s.lh.length + 1 < La.size
  | _, _ => True

/-- The blocks logged since the last commit, without repetition. -/
def Hist.logged (h : Hist) : List Nat := (h.cur.map Update.blockno).dedup

/-- `log_write` reads the size of a log that has fewer blocks than its two limits. -/
def Short (La : Area) (_ : Pid) {β : Type} : Act β → State → Prop
  | .lhN, s => s.hist.logged.length < LOGSIZE ∧ s.hist.logged.length + 1 < La.size
  | _, _ => True

/-- Runs in which logged blocks have room; those in which `V` holds also keep the log short, and
do not run into the limits of `log_write`. -/
def logic (La : Area) (d₀ : Nat → Block) (V : Prop) : Logic State Ghost Pid Act where
  sem := sem La
  ok := fun p {_} a s => Roomy La p a s ∧ (V → Short La p a s)
  Inv := Inv La d₀
  Rely := Rely
  Allowed := fun msg => msg = "bget: no buffers" ∨ ¬ V ∧ msg = "too big a transaction"
  refl := Rely.refl
  trans := Rely.trans

instance {La : Area} {d₀ : Nat → Block} {V : Prop} : (logic La d₀ V).Free :=
  ⟨fun _ _ _ _ _ => trivial⟩

end Chameleon.Log
