import Mathlib.Data.List.Basic
import Mathlib.Logic.Function.Basic

/-! Circular doubly linked lists through a head node. `Seg` reads a stretch of the list off the
pointers of both directions; `pushFront` and `unlink` are the usual pointer assignments, in their
usual order. -/

namespace Dll

/-- The pointers of the nodes; the node `none` is the head. -/
structure Links (α : Type) where
  next : Option α → Option α
  prev : Option α → Option α

variable {α : Type}

/-- A head that points to itself. -/
def Links.empty : Links α := ⟨fun _ => none, fun _ => none⟩

/-- The nodes from `n` on, up to the head. -/
def Links.walk (next : Option α → Option α) : Nat → Option α → List α
  | 0, _ => []
  | _ + 1, none => []
  | fuel + 1, some x => x :: walk next fuel (next (some x))

def Links.forward (l : Links α) (fuel : Nat) : List α := walk l.next fuel (l.next none)

def Links.backward (l : Links α) (fuel : Nat) : List α := walk l.prev fuel (l.prev none)

/-- Both directions of the pointers run through `xs` between the nodes `a` and `b`. -/
def Seg (l : Links α) : Option α → List α → Option α → Prop
  | a, [], b => l.next a = b ∧ l.prev b = a
  | a, x :: xs, b => (l.next a = some x ∧ l.prev (some x) = a) ∧ Seg l (some x) xs b

/-- The list holds `xs`, from the head around to the head. -/
def Rep (l : Links α) (xs : List α) : Prop := Seg l none xs none

theorem rep_empty : Rep (Links.empty (α := α)) [] := ⟨rfl, rfl⟩

section Seg
variable {l l' : Links α} {a b : Option α} {x : α} {xs ys : List α}

theorem seg_append : Seg l a (xs ++ x :: ys) b ↔ Seg l a xs (some x) ∧ Seg l (some x) ys b := by
  induction xs generalizing a with
  | nil => exact Iff.rfl
  | cons y xs ih =>
    have hrest := ih (a := some y)
    simp only [List.cons_append, Seg, hrest, and_assoc]

/-- Only the pointers between the nodes of a stretch matter. -/
theorem Seg.congr (hn : ∀ n, n = a ∨ (∃ y ∈ xs, n = some y) → l'.next n = l.next n)
    (hp : ∀ n, n = b ∨ (∃ y ∈ xs, n = some y) → l'.prev n = l.prev n) (h : Seg l a xs b) :
    Seg l' a xs b := by
  induction xs generalizing a with
  | nil => exact ⟨(hn a (.inl rfl)).trans h.1, (hp b (.inl rfl)).trans h.2⟩
  | cons y xs ih =>
    obtain ⟨⟨hnext, hprev⟩, hrest⟩ := h
    refine ⟨⟨(hn a (.inl rfl)).trans hnext, ?_⟩, ih (fun n hmem => hn n (.inr ?_)) (fun n hmem => hp n ?_) hrest⟩
    · exact (hp (some y) (.inr ⟨y, List.mem_cons_self, rfl⟩)).trans hprev
    · rcases hmem with rfl | ⟨z, hz, rfl⟩
      · exact ⟨y, List.mem_cons_self, rfl⟩
      · exact ⟨z, List.mem_cons_of_mem _ hz, rfl⟩
    · exact hmem.imp id fun ⟨z, hz, he⟩ => ⟨z, List.mem_cons_of_mem _ hz, he⟩

theorem Seg.next_mem (h : Seg l a xs b) : l.next a = b ∨ ∃ y ∈ xs, l.next a = some y := by
  cases xs with
  | nil => exact .inl h.1
  | cons y xs => exact .inr ⟨y, List.mem_cons_self, h.1.1⟩

theorem Seg.prev_mem (h : Seg l a xs b) : l.prev b = a ∨ ∃ y ∈ xs, l.prev b = some y := by
  induction xs generalizing a with
  | nil => exact .inl h.2
  | cons y xs ih =>
    rcases ih h.2 with he | ⟨z, hz, he⟩
    · exact .inr ⟨y, List.mem_cons_self, he⟩
    · exact .inr ⟨z, List.mem_cons_of_mem _ hz, he⟩

/-- Read backwards, the stretch is reversed. -/
theorem Seg.flip (h : Seg l a xs b) : Seg ⟨l.prev, l.next⟩ b xs.reverse a := by
  induction xs generalizing a with
  | nil => exact ⟨h.2, h.1⟩
  | cons y xs ih =>
    rw [List.reverse_cons]
    exact seg_append.mpr ⟨ih h.2, h.1.2, h.1.1⟩

theorem Seg.walk (h : Seg l a xs none) {fuel : Nat} (hf : xs.length ≤ fuel) :
    Links.walk l.next fuel (l.next a) = xs := by
  induction xs generalizing a fuel with
  | nil =>
    rw [h.1]
    cases fuel <;> rfl
  | cons y xs ih =>
    cases fuel with
    | zero => simp at hf
    | succ fuel =>
      rw [h.1.1]
      exact congrArg (y :: ·) (ih h.2 (Nat.le_of_succ_le_succ hf))

end Seg

section Rep
variable {l : Links α} {x : α} {xs ys : List α}

theorem Rep.forward_eq (h : Rep l xs) {fuel : Nat} (hf : xs.length ≤ fuel) : l.forward fuel = xs :=
  Seg.walk h hf

theorem Rep.backward_eq (h : Rep l xs) {fuel : Nat} (hf : xs.length ≤ fuel) :
    l.backward fuel = xs.reverse :=
  Seg.walk (Seg.flip h) (by rwa [List.length_reverse])

variable [DecidableEq α]

/-- Puts `x` behind the head. -/
def Links.pushFront (l : Links α) (x : α) : Links α :=
  -- x->next = head.next; x->prev = &head; head.next->prev = x; head.next = x
  let l : Links α := { l with next := Function.update l.next (some x) (l.next none) }
  let l : Links α := { l with prev := Function.update l.prev (some x) none }
  let l : Links α := { l with prev := Function.update l.prev (l.next none) (some x) }
  { l with next := Function.update l.next none (some x) }

/-- Takes `x` out. -/
def Links.unlink (l : Links α) (x : α) : Links α :=
  -- x->next->prev = x->prev; x->prev->next = x->next
  let l : Links α := { l with prev := Function.update l.prev (l.next (some x)) (l.prev (some x)) }
  { l with next := Function.update l.next (l.prev (some x)) (l.next (some x)) }

theorem Links.pushFront_next (l : Links α) (x : α) :
    (l.pushFront x).next = Function.update (Function.update l.next (some x) (l.next none)) none (some x) := rfl

theorem Links.pushFront_prev (l : Links α) (x : α) :
    (l.pushFront x).prev = Function.update (Function.update l.prev (some x) none) (l.next none) (some x) := by
  have hold : Function.update l.next (some x) (l.next none) none = l.next none :=
    Function.update_of_ne (by simp) ..
  simp only [Links.pushFront]
  rw [hold]

theorem Links.unlink_prev (l : Links α) (x : α) :
    (l.unlink x).prev = Function.update l.prev (l.next (some x)) (l.prev (some x)) := rfl

theorem Links.unlink_next {l : Links α} {x : α} (h : some x ≠ l.next (some x)) :
    (l.unlink x).next = Function.update l.next (l.prev (some x)) (l.next (some x)) := by
  simp only [Links.unlink]
  rw [Function.update_of_ne h]

theorem Rep.pushFront (h : Rep l xs) (hn : (x :: xs).Nodup) : Rep (l.pushFront x) (x :: xs) := by
  obtain ⟨hx, hnd⟩ := List.nodup_cons.mp hn
  have hxn : some x ≠ none := by simp
  refine ⟨⟨?_, ?_⟩, ?_⟩
  · rw [Links.pushFront_next, Function.update_self]
  · -- the old first node is not `x`
    have hne : some x ≠ l.next none := by
      rcases Seg.next_mem h with he | ⟨y, hy, he⟩
      · rw [he]
        simp
      · rw [he]
        rintro ⟨rfl⟩
        exact hx hy
    rw [Links.pushFront_prev, Function.update_of_ne hne, Function.update_self]
  · cases xs with
    | nil =>
      have hnext : l.next none = none := h.1
      refine ⟨?_, ?_⟩
      · rw [Links.pushFront_next, Function.update_of_ne hxn, Function.update_self, hnext]
      · rw [Links.pushFront_prev, hnext, Function.update_self]
    | cons y ys =>
      obtain ⟨hynot, -⟩ := List.nodup_cons.mp hnd
      have hnext : l.next none = some y := h.1.1
      refine ⟨⟨?_, ?_⟩, h.2.congr (fun n hmem => ?_) fun n hmem => ?_⟩
      · rw [Links.pushFront_next, Function.update_of_ne hxn, Function.update_self, hnext]
      · rw [Links.pushFront_prev, hnext, Function.update_self]
      · have hmem' : ∃ z ∈ y :: ys, n = some z := by
          rcases hmem with rfl | ⟨z, hz, rfl⟩
          · exact ⟨y, List.mem_cons_self, rfl⟩
          · exact ⟨z, List.mem_cons_of_mem _ hz, rfl⟩
        obtain ⟨z, hz, rfl⟩ := hmem'
        have hzx : some z ≠ some x := by
          rintro ⟨rfl⟩
          exact hx hz
        rw [Links.pushFront_next, Function.update_of_ne (by simp), Function.update_of_ne hzx]
      · have hxy : n ≠ some x ∧ n ≠ some y := by
          rcases hmem with rfl | ⟨z, hz, rfl⟩
          · exact ⟨by simp, by simp⟩
          · refine ⟨?_, ?_⟩
            · rintro ⟨rfl⟩
              exact hx (List.mem_cons_of_mem _ hz)
            · rintro ⟨rfl⟩
              exact hynot hz
        rw [Links.pushFront_prev, hnext, Function.update_of_ne hxy.2, Function.update_of_ne hxy.1]

/-- Around the node that is taken out, its two neighbours are joined. -/
theorem Seg.unlink {a b : Option α} (hn : (xs ++ x :: ys).Nodup)
    (ha : ∀ y ∈ xs ++ x :: ys, a ≠ some y) (hb : ∀ y ∈ xs ++ x :: ys, b ≠ some y)
    (h : Seg l a xs (some x)) (h' : Seg l (some x) ys b) : Seg (l.unlink x) a (xs ++ ys) b := by
  have hxx : some x ≠ l.next (some x) := by
    rcases h'.next_mem with he | ⟨y, hy, he⟩
    · rw [he]
      exact (hb x (by simp)).symm
    · rw [he]
      rintro ⟨rfl⟩
      exact (List.nodup_cons.mp (List.nodup_append.mp hn).2.1).1 hy
  have hnext := Links.unlink_next hxx
  -- Along the nodes before `x`: the last of them is the one that gets a new successor.
  induction xs generalizing a with
  | nil =>
    obtain ⟨hax, hxa⟩ := h
    cases ys with
    | nil =>
      refine ⟨?_, ?_⟩
      · rw [hnext, hxa, Function.update_self, h'.1]
      · rw [Links.unlink_prev, h'.1, hxa, Function.update_self]
    | cons y ys =>
      obtain ⟨⟨hxy, hyx⟩, hrest⟩ := h'
      refine ⟨⟨?_, ?_⟩, hrest.congr (fun n hmem => ?_) fun n hmem => ?_⟩
      · rw [hnext, hxa, Function.update_self, hxy]
      · rw [Links.unlink_prev, hxy, hxa, Function.update_self]
      · have hna : n ≠ a := by
          rcases hmem with rfl | ⟨z, hz, rfl⟩
          · exact (ha y (by simp)).symm
          · exact (ha z (by simp [hz])).symm
        rw [hnext, hxa, Function.update_of_ne hna]
      · have hny : n ≠ some y := by
          rcases hmem with rfl | ⟨z, hz, rfl⟩
          · exact hb y (by simp)
          · rintro ⟨rfl⟩
            simp [hz] at hn
        rw [Links.unlink_prev, hxy, Function.update_of_ne hny]
  | cons z xs ih =>
    obtain ⟨⟨haz, hza⟩, hrest⟩ := h
    have hz := List.nodup_cons.mp hn
    refine ⟨⟨?_, ?_⟩, ih hz.2 (fun y hy => ?_) (fun y hy => hb y (List.mem_cons_of_mem _ hy)) hrest⟩
    · have hne : a ≠ l.prev (some x) := by
        rcases hrest.prev_mem with he | ⟨y, hy, he⟩
        · rw [he]
          exact ha z (by simp)
        · rw [he]
          exact ha y (by simp [hy])
      rw [hnext, Function.update_of_ne hne, haz]
    · have hne : some z ≠ l.next (some x) := by
        rcases h'.next_mem with he | ⟨y, hy, he⟩
        · rw [he]
          exact (hb z (by simp)).symm
        · rw [he]
          rintro ⟨rfl⟩
          exact hz.1 (by simp [hy])
      rw [Links.unlink_prev, Function.update_of_ne hne, hza]
    · rintro ⟨rfl⟩
      exact hz.1 hy

/-- Taking a node out and putting it behind the head. -/
theorem Rep.toFront (h : Rep l xs) (hn : xs.Nodup) (hx : x ∈ xs) :
    Rep ((l.unlink x).pushFront x) (x :: xs.erase x) := by
  obtain ⟨ys, zs, rfl⟩ := List.append_of_mem hx
  obtain ⟨hys, hzs⟩ := seg_append.mp h
  have hnot : x ∉ ys := by
    intro hmem
    exact (List.nodup_append.mp hn).2.2 x hmem x List.mem_cons_self rfl
  have herase : (ys ++ x :: zs).erase x = ys ++ zs := by
    rw [List.erase_append_right _ hnot, List.erase_cons_head]
  have hrest : Rep (l.unlink x) (ys ++ zs) :=
    Seg.unlink hn (fun _ _ => by simp) (fun _ _ => by simp) hys hzs
  rw [herase]
  exact hrest.pushFront (List.perm_middle.nodup_iff.mp hn)

end Rep

end Dll
