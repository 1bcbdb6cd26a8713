import Mathlib.Data.List.TakeWhile
import Chameleon.Fs.Disk

/-! The elements of a path name, and what it means to follow them. -/

namespace Chameleon.Fs

section Elements

/-- The string at the head of a list of bytes. -/
def cstr (bs : List UInt8) : List UInt8 := bs.takeWhile (· ≠ 0)

/-- The elements of a path: the nonempty parts between slashes, each cut to `DIRSIZ` bytes. -/
def elems (path : List UInt8) : List (List UInt8) :=
  (((cstr path).splitOn slash).filter (· ≠ [])).map (·.take DIRSIZ)

theorem cstr_append {p : List UInt8} (hp : ∀ c ∈ p, c ≠ 0) (q : List UInt8) : cstr (p ++ q) = p ++ cstr q := by
  unfold cstr
  apply List.takeWhile_append_of_pos
  intro c hc
  exact decide_eq_true (hp c hc)

theorem cstr_of_forall {p : List UInt8} (hp : ∀ c ∈ p, c ≠ 0) : cstr p = p := by
  have happend := cstr_append hp []
  rw [List.append_nil] at happend
  exact happend.trans (List.append_nil p)

theorem cstr_append_zero {p : List UInt8} (hp : ∀ c ∈ p, c ≠ 0) (q : List UInt8) : cstr (p ++ 0 :: q) = p := by
  rw [cstr_append hp]
  exact List.append_nil p

/-- A path that goes on behind a slash. -/
theorem elems_append {p : List UInt8} (hp : ∀ c ∈ p, c ≠ 0) (q : List UInt8) : elems (p ++ slash :: q) = elems p ++ elems q := by
  have hq : cstr (slash :: q) = slash :: cstr q := rfl
  unfold elems
  rw [cstr_append hp, hq, cstr_of_forall hp, List.splitOn_append_cons_self, List.filter_append, List.map_append]

theorem elems_slash (path : List UInt8) : elems (slash :: path) = elems path :=
  elems_append (p := []) nofun path

theorem elems_dropWhile (path : List UInt8) : elems (path.dropWhile (· = slash)) = elems path := by
  induction path with
  | nil => rfl
  | cons c path ih =>
    by_cases hc : c = slash
    · subst hc
      rw [elems_slash, ← ih]
      rfl
    · rw [List.dropWhile_cons_of_neg]
      simpa using hc

theorem elems_word {w rest : List UInt8} (hne : w ≠ []) (hw : ∀ c ∈ w, c ≠ slash ∧ c ≠ 0)
    (hrest : rest.headD 0 = slash ∨ rest.headD 0 = 0) : elems (w ++ rest) = w.take DIRSIZ :: elems rest := by
  have hzero : ∀ c ∈ w, c ≠ 0 := fun c hc => (hw c hc).2
  have hslash : slash ∉ w := fun h => (hw slash h).1 rfl
  have hword : elems w = [w.take DIRSIZ] := by
    unfold elems
    rw [cstr_of_forall hzero, List.splitOn_eq_singleton hslash]
    simp [hne]
  cases rest with
  | nil =>
    rw [List.append_nil, hword]
    rfl
  | cons c rest =>
    rcases hrest with hc | hc
    · obtain rfl : c = slash := hc
      rw [elems_append hzero, hword, elems_slash]
      rfl
    · obtain rfl : c = 0 := hc
      have hend : elems (w ++ 0 :: rest) = elems w := by
        unfold elems
        rw [cstr_append_zero hzero, cstr_of_forall hzero]
      rw [hend, hword]
      rfl

end Elements

section Skipelem

variable {path name rest : List UInt8}

theorem headD_dropWhile (f : UInt8 → Bool) (path : List UInt8) (h : path.dropWhile f ≠ []) :
    f ((path.dropWhile f).headD 0) = false := by
  induction path with
  | nil => exact absurd rfl h
  | cons c path ih =>
    by_cases hc : f c = true
    · rw [List.dropWhile_cons_of_pos hc] at h ⊢
      exact ih h
    · rw [List.dropWhile_cons_of_neg hc]
      exact eq_false_of_ne_true hc

theorem headD_dropSlash (path : List UInt8) : (path.dropWhile (· = slash)).headD 0 ≠ slash := by
  by_cases h : path.dropWhile (· = slash) = []
  · rw [h]
    decide
  · exact of_decide_eq_false (headD_dropWhile _ path h)

theorem takeWhile_ne_nil (hslash : path.headD 0 ≠ slash) (hzero : path.headD 0 ≠ 0) :
    (path.takeWhile fun c => c ≠ slash ∧ c ≠ 0) ≠ [] := by
  cases path with
  | nil => exact absurd rfl hzero
  | cons c path =>
    have hpos : decide (c ≠ slash ∧ c ≠ 0) = true := decide_eq_true ⟨hslash, hzero⟩
    simp only [List.takeWhile_cons, hpos, if_true]
    exact List.cons_ne_nil _ _

theorem elems_split (hslash : path.headD 0 ≠ slash) (hzero : path.headD 0 ≠ 0) :
    elems path = (path.takeWhile fun c => c ≠ slash ∧ c ≠ 0).take DIRSIZ ::
      elems (path.dropWhile fun c => c ≠ slash ∧ c ≠ 0) := by
  have hne := takeWhile_ne_nil hslash hzero
  have hw : ∀ c ∈ path.takeWhile fun c => c ≠ slash ∧ c ≠ 0, c ≠ slash ∧ c ≠ 0 := by
    intro c hc
    have hpos := List.mem_takeWhile_imp hc
    exact of_decide_eq_true hpos
  have hrest : (path.dropWhile fun c => c ≠ slash ∧ c ≠ 0).headD 0 = slash ∨
      (path.dropWhile fun c => c ≠ slash ∧ c ≠ 0).headD 0 = 0 := by
    by_cases h : (path.dropWhile fun c => c ≠ slash ∧ c ≠ 0) = []
    · rw [h]
      exact Or.inr rfl
    · have hstop := of_decide_eq_false (headD_dropWhile _ path h)
      by_contra hnot
      exact hstop (not_or.mp hnot)
  have hword := elems_word hne hw hrest
  rwa [List.takeWhile_append_dropWhile] at hword

theorem elems_eq_nil_iff (h : path.headD 0 ≠ slash) : elems path = [] ↔ path.headD 0 = 0 := by
  constructor
  · intro hnil
    by_contra hzero
    rw [elems_split h hzero] at hnil
    exact List.cons_ne_nil _ _ hnil
  · intro hzero
    cases path with
    | nil => rfl
    | cons c path =>
      obtain rfl : c = 0 := hzero
      rfl

theorem skipelem_none (h : skipelem path = none) : elems path = [] := by
  unfold skipelem at h
  simp only [ite_eq_left_iff, reduceCtorEq, imp_false, not_not] at h
  rw [← elems_dropWhile]
  exact (elems_eq_nil_iff (headD_dropSlash path)).mpr h

theorem skipelem_some (h : skipelem path = some (name, rest)) :
    elems path = name :: elems rest ∧ rest.headD 0 ≠ slash ∧ rest.length < path.length := by
  unfold skipelem at h
  by_cases hzero : (path.dropWhile (· = slash)).headD 0 = 0
  · rw [if_pos hzero] at h
    cases h
  rw [if_neg hzero] at h
  obtain ⟨rfl, rfl⟩ := Prod.mk.inj (Option.some.inj h)
  have hsplit := elems_split (headD_dropSlash path) hzero
  refine ⟨?_, headD_dropSlash _, ?_⟩
  · rw [elems_dropWhile, ← hsplit, elems_dropWhile]
  · have hpos := List.length_pos_of_ne_nil (takeWhile_ne_nil (headD_dropSlash path) hzero)
    have hword := congrArg List.length (List.takeWhile_append_dropWhile (p := fun c => decide (c ≠ slash ∧ c ≠ 0))
      (l := path.dropWhile (· = slash)))
    rw [List.length_append] at hword
    have hskip := List.length_dropWhile_le (fun c => decide (c = slash))
      ((path.dropWhile (· = slash)).dropWhile fun c => c ≠ slash ∧ c ≠ 0)
    have hlead := List.length_dropWhile_le (fun c => decide (c = slash)) path
    omega

end Skipelem

section Walk

variable {find : Nat → List UInt8 → Option Nat} {dir : Nat → Bool} {cwd i : Nat}

/-- Where a path starts. -/
def startOf (cwd : Nat) (path : List UInt8) : Nat := if path.headD 0 = slash then ROOTINO else cwd

/-- The inode that a path names: from the root or from `cwd`, one element after the other. -/
def resolve (find : Nat → List UInt8 → Option Nat) (cwd : Nat) (path : List UInt8) : Option Nat :=
  (elems path).foldlM find (startOf cwd path)

/-- The directory that the last element of a path is looked up in, with that element. -/
def resolveParent (find : Nat → List UInt8 → Option Nat) (dir : Nat → Bool) (cwd : Nat) (path : List UInt8) :
    Option (Nat × List UInt8) :=
  (elems path).getLast?.bind fun name =>
    (((elems path).dropLast.foldlM find (startOf cwd path)).filter dir).map fun i => (i, name)

/-- A path is its last element in the directory of the others. -/
theorem resolve_of_parent {name path : List UInt8} (h : resolveParent find dir cwd path = some (i, name)) :
    resolve find cwd path = find i name := by
  unfold resolveParent at h
  obtain ⟨last, hlast, hparent⟩ := Option.bind_eq_some_iff.mp h
  obtain ⟨j, hwalk, hj⟩ := Option.map_eq_some_iff.mp hparent
  obtain ⟨rfl, rfl⟩ := Prod.mk.inj hj
  rw [resolve, ← List.dropLast_append_getLast? _ hlast, List.foldlM_append, (Option.filter_eq_some_iff.mp hwalk).1]
  exact bind_pure (find j last)

theorem resolve_append {p q : List UInt8} (hp : ∀ c ∈ p, c ≠ 0) (hne : p ≠ []) (hq : q.headD 0 ≠ slash) :
    resolve find cwd (p ++ slash :: q) = (resolve find cwd p).bind fun i => resolve find i q := by
  have hhead : (p ++ slash :: q).headD 0 = p.headD 0 := by
    cases p with
    | nil => exact absurd rfl hne
    | cons c p => rfl
  have hrest : ∀ i, resolve find i q = (elems q).foldlM find i := by
    intro i
    rw [resolve, startOf, if_neg hq]
  rw [resolve, startOf, hhead, elems_append hp, List.foldlM_append]
  simp only [hrest]
  rfl

/-- The loop of `namex` over the elements of a path. -/
def follow (find : Nat → List UInt8 → Option Nat) (dir : Nat → Bool) (parent : Bool) :
    Nat → List (List UInt8) → Option (Nat × List UInt8)
  | i, [] => if parent then none else some (i, [])
  | i, name :: names =>
    if dir i = false then none
    else if parent = true ∧ names = [] then some (i, name)
    else (find i name).bind fun j => follow find dir parent j names

/-- Without `parent`, where only directories have entries. -/
theorem follow_false (hfind : ∀ i name j, find i name = some j → dir i = true) (names : List (List UInt8)) (i : Nat) :
    follow find dir false i names = (names.foldlM find i).map fun j => (j, []) := by
  induction names generalizing i with
  | nil => rfl
  | cons name names ih =>
    rw [follow, List.foldlM_cons]
    cases hstep : find i name with
    | none =>
      by_cases hdir : dir i = false
      · rw [if_pos hdir]
        rfl
      · rw [if_neg hdir, if_neg nofun]
        rfl
    | some j =>
      rw [if_neg (by rw [hfind i name j hstep]; decide), if_neg nofun]
      exact ih j

theorem follow_true (hfind : ∀ i name j, find i name = some j → dir i = true) (names : List (List UInt8)) (i : Nat) :
    follow find dir true i names =
      names.getLast?.bind fun name => ((names.dropLast.foldlM find i).filter dir).map fun j => (j, name) := by
  induction names generalizing i with
  | nil => rfl
  | cons name names ih =>
    cases names with
    | nil =>
      rw [follow]
      cases hdir : dir i with
      | false => simp [hdir]
      | true => simp [hdir]
    | cons next names =>
      rw [follow, List.getLast?_cons_cons, List.dropLast_cons_cons, List.foldlM_cons]
      cases hstep : find i name with
      | none =>
        by_cases hdir : dir i = false
        · rw [if_pos hdir]
          simp
        · rw [if_neg hdir, if_neg fun hand => List.cons_ne_nil _ _ hand.2]
          simp
      | some j =>
        rw [if_neg (by rw [hfind i name j hstep]; decide), if_neg fun hand => List.cons_ne_nil _ _ hand.2]
        exact ih j

end Walk

end Chameleon.Fs
