import Mathlib.Data.List.FinRange
import Mathlib.Data.List.Perm.Basic
import Mathlib.Logic.Function.Basic
import Chameleon.Param

/-! The buffer cache of `bio.c`. Each function here is the section that runs under `bcache.lock`;
the linked list through `next` and `prev` is the list of its buffers from `head.next` on. -/

namespace Chameleon

/-- A process, by its slot in the process table. -/
abbrev Pid := Fin NPROC

/-- The contents of a disk block, as its 32-bit words. -/
abbrev Block := Nat → Nat

namespace Bio

structure Buf where
  valid : Bool
  dirty : Bool
  dev : Nat
  blockno : Nat
  /-- The process that holds the sleep lock. -/
  holder : Option Pid
  refcnt : Nat
  data : Block

def Buf.zero : Buf where
  valid := false
  dirty := false
  dev := 0
  blockno := 0
  holder := none
  refcnt := 0
  data := fun _ => 0

/-- The buffer caches block `b` of the file-system disk. -/
def Buf.caches (x : Buf) (b : Nat) : Prop := x.dev = ROOTDEV ∧ x.blockno = b

instance (x : Buf) (b : Nat) : Decidable (x.caches b) := inferInstanceAs (Decidable (_ ∧ _))

/-- `bget` may reuse the buffer for another block. -/
def Buf.unused (x : Buf) : Prop := x.refcnt = 0 ∧ x.dirty = false

instance (x : Buf) : Decidable x.unused := inferInstanceAs (Decidable (_ ∧ _))

structure Bcache where
  buf : Fin NBUF → Buf
  list : List (Fin NBUF)

namespace Bcache

def setBuf (c : Bcache) (i : Fin NBUF) (x : Buf) : Bcache :=
  { c with buf := Function.update c.buf i x }

@[simp] theorem setBuf_self (c : Bcache) (i : Fin NBUF) (x : Buf) : (c.setBuf i x).buf i = x :=
  Function.update_self ..

theorem setBuf_of_ne (c : Bcache) {i j : Fin NBUF} (h : j ≠ i) (x : Buf) :
    (c.setBuf i x).buf j = c.buf j :=
  Function.update_of_ne h ..

theorem forall_setBuf {c : Bcache} {i : Fin NBUF} {x : Buf} {P : Fin NBUF → Buf → Prop} (hi : P i x)
    (h : ∀ j, j ≠ i → P j (c.buf j)) (j : Fin NBUF) : P j ((c.setBuf i x).buf j) := by
  by_cases hj : j = i
  · subst hj
    rwa [c.setBuf_self]
  · rw [c.setBuf_of_ne hj]
    exact h j hj

end Bcache

/-- Each buffer is put in front of those before it. -/
def binit : Bcache where
  buf := fun _ => .zero
  list := (List.finRange NBUF).reverse

def cached (c : Bcache) (b : Nat) : Option (Fin NBUF) :=
  c.list.find? fun i => (c.buf i).caches b

def recyclable (c : Bcache) : Option (Fin NBUF) :=
  c.list.reverse.find? fun i => (c.buf i).unused

def Buf.getRef (x : Buf) : Buf := { x with refcnt := x.refcnt + 1 }

def Buf.recycle (x : Buf) (b : Nat) : Buf :=
  { x with dev := ROOTDEV, blockno := b, valid := false, dirty := false, refcnt := 1 }

/-- `bget` up to `acquiresleep`; `none` is its panic. -/
def bget (c : Bcache) (b : Nat) : Option (Fin NBUF × Bcache) :=
  match cached c b with
  | some i => some (i, c.setBuf i (c.buf i).getRef)
  | none =>
    match recyclable c with
    | some i => some (i, c.setBuf i ((c.buf i).recycle b))
    | none => none

def Buf.dropRef (x : Buf) : Buf := { x with refcnt := x.refcnt - 1 }

def Bcache.toFront (c : Bcache) (i : Fin NBUF) : Bcache :=
  { c with list := i :: c.list.erase i }

/-- The last section of `brelse`. -/
def put (c : Bcache) (i : Fin NBUF) : Bcache :=
  if (c.buf i).dropRef.refcnt = 0 then (c.setBuf i (c.buf i).dropRef).toFront i
  else c.setBuf i (c.buf i).dropRef

theorem put_buf (c : Bcache) (i : Fin NBUF) :
    (put c i).buf = (c.setBuf i (c.buf i).dropRef).buf := by
  unfold put
  split <;> rfl

/-- Every buffer is on the list once, and no block is cached twice. -/
structure Wf (c : Bcache) : Prop where
  nodup : c.list.Nodup
  all : ∀ i, i ∈ c.list
  uniq : ∀ {i j b}, (c.buf i).caches b → (c.buf j).caches b → i = j

theorem wf_binit : Wf binit where
  nodup := List.nodup_reverse.mpr (List.nodup_finRange NBUF)
  all := fun i => List.mem_reverse.mpr (List.mem_finRange i)
  uniq := fun {_ _ _} hi => absurd hi.1 Nat.zero_ne_one

/-- A change that keeps which block a buffer caches keeps the cache well formed. -/
theorem Wf.setBuf {c : Bcache} (h : Wf c) {i : Fin NBUF} {x : Buf}
    (hx : ∀ b, x.caches b → (c.buf i).caches b) : Wf (c.setBuf i x) := by
  have hold : ∀ j b, ((c.setBuf i x).buf j).caches b → (c.buf j).caches b := by
    intro j b hj
    by_cases hji : j = i
    · subst hji
      exact hx b (by simpa using hj)
    · simpa only [c.setBuf_of_ne hji] using hj
  exact ⟨h.nodup, h.all, fun hi hj => h.uniq (hold _ _ hi) (hold _ _ hj)⟩

theorem Wf.put {c : Bcache} (h : Wf c) (i : Fin NBUF) : Wf (put c i) := by
  have h' : Wf (c.setBuf i (c.buf i).dropRef) := h.setBuf fun _ hb => hb
  unfold Bio.put
  split
  · refine ⟨List.nodup_cons.mpr ⟨h'.nodup.not_mem_erase, h'.nodup.erase i⟩, fun j => ?_, h'.uniq⟩
    by_cases hj : j = i
    · exact hj ▸ List.mem_cons_self
    · exact List.mem_cons_of_mem _ ((List.mem_erase_of_ne hj).mpr (h'.all j))
  · exact h'

theorem cached_eq_none {c : Bcache} (h : Wf c) {b : Nat} (hc : cached c b = none) (i : Fin NBUF) :
    ¬ (c.buf i).caches b := by
  simpa using List.find?_eq_none.mp hc i (h.all i)

/-- What `bget` does: it takes a reference to the buffer that caches the block, or turns an unused
buffer into one when there is none. -/
theorem bget_cases {c c' : Bcache} {b : Nat} {i : Fin NBUF} (h : Wf c)
    (hb : bget c b = some (i, c')) :
    ((c.buf i).caches b ∧ c' = c.setBuf i (c.buf i).getRef) ∨
      ((∀ j, ¬ (c.buf j).caches b) ∧ (c.buf i).unused ∧
        c' = c.setBuf i ((c.buf i).recycle b)) := by
  unfold bget at hb
  split at hb
  · rename_i j hj
    obtain ⟨rfl, rfl⟩ := Prod.mk.inj (Option.some.inj hb)
    exact .inl ⟨by simpa using List.find?_some hj, rfl⟩
  · rename_i hnone
    split at hb
    · rename_i j hj
      obtain ⟨rfl, rfl⟩ := Prod.mk.inj (Option.some.inj hb)
      exact .inr ⟨cached_eq_none h hnone, by simpa using List.find?_some hj, rfl⟩
    · simp at hb

theorem bget_eq_none {c : Bcache} {b : Nat} (h : Wf c) (hb : bget c b = none) :
    (∀ i, ¬ (c.buf i).caches b) ∧ ∀ i, ¬ (c.buf i).unused := by
  unfold bget at hb
  split at hb
  · cases hb
  · rename_i hnone
    split at hb
    · cases hb
    · rename_i hrec
      refine ⟨cached_eq_none h hnone, fun i => ?_⟩
      simpa using List.find?_eq_none.mp hrec i (List.mem_reverse.mpr (h.all i))

theorem Wf.bget {c c' : Bcache} {b : Nat} {i : Fin NBUF} (h : Wf c)
    (hb : bget c b = some (i, c')) : Wf c' := by
  rcases bget_cases h hb with ⟨_, rfl⟩ | ⟨hnone, _, rfl⟩
  · exact h.setBuf fun _ hx => hx
  · refine ⟨h.nodup, h.all, fun {j k b'} hj hk => ?_⟩
    by_cases hji : j = i <;> by_cases hki : k = i
    · rw [hji, hki]
    · subst hji
      rw [c.setBuf_of_ne hki] at hk
      have hbb : b = b' := by simpa [Buf.recycle, Buf.caches] using hj
      exact absurd (hbb ▸ hk) (hnone k)
    · subst hki
      rw [c.setBuf_of_ne hji] at hj
      have hbb : b = b' := by simpa [Buf.recycle, Buf.caches] using hk
      exact absurd (hbb ▸ hj) (hnone j)
    · rw [c.setBuf_of_ne hji] at hj
      rw [c.setBuf_of_ne hki] at hk
      exact h.uniq hj hk

end Bio

end Chameleon
