import Mathlib.Data.List.Basic

/-! The matcher of `grep.c`. A string is the list of its bytes before the NUL, and a pointer into it is the list
from there on. -/

namespace Chameleon.Grep

def caret : UInt8 := Char.toUInt8 '^'
def dollar : UInt8 := Char.toUInt8 '$'
def dot : UInt8 := Char.toUInt8 '.'
def star : UInt8 := Char.toUInt8 '*'

/-- The loop of `matchstar`, where `here` is `matchhere` with the rest of the pattern. -/
def matchstar (c : UInt8) (here : List UInt8 → Bool) : List UInt8 → Bool
  | [] => here []
  | t :: text => here (t :: text) || ((t = c ∨ c = dot) && matchstar c here text)

def matchhere : List UInt8 → List UInt8 → Bool
  | [], _ => true
  | [c], text =>
    if c = dollar then text.isEmpty
    else match text with
      | [] => false
      | t :: text => (c = dot ∨ c = t) && matchhere [] text
  | c :: d :: re, text =>
    if d = star then matchstar c (matchhere re) text
    else match text with
      | [] => false
      | t :: text => (c = dot ∨ c = t) && matchhere (d :: re) text

/-- The loop of `match`. -/
def search (re : List UInt8) : List UInt8 → Bool
  | [] => matchhere re []
  | t :: text => matchhere re (t :: text) || search re text

/-- `match` -/
def gmatch : List UInt8 → List UInt8 → Bool
  | [], text => search [] text
  | c :: re, text => if c = caret then matchhere re text else search (c :: re) text

/-! ### What a pattern means -/

inductive Item
  | star (c : UInt8)
  | one (c : UInt8)
  deriving DecidableEq

/-- The characters that `c` stands for. -/
def Stands (c x : UInt8) : Prop := c = dot ∨ c = x

/-- The strings that an item matches. -/
def Item.Matches : Item → List UInt8 → Prop
  | .star c, w => ∀ x ∈ w, Stands c x
  | .one c, w => ∃ x, w = [x] ∧ Stands c x

/-- A pattern: whether it is anchored at either end of the text, and its items. -/
structure Pattern where
  start : Bool
  items : List Item
  finish : Bool

/-- The items of a pattern without its start anchor, and whether the end anchor follows them. -/
def readItems : List UInt8 → List Item × Bool
  | [] => ([], false)
  | [c] => if c = dollar then ([], true) else ([.one c], false)
  | c :: d :: re =>
    if d = star then
      let (is, finish) := readItems re
      (.star c :: is, finish)
    else
      let (is, finish) := readItems (d :: re)
      (.one c :: is, finish)

def Pattern.read : List UInt8 → Pattern
  | [] => ⟨false, [], false⟩
  | c :: re =>
    if c = caret then ⟨true, (readItems re).1, (readItems re).2⟩
    else ⟨false, (readItems (c :: re)).1, (readItems (c :: re)).2⟩

/-- The string splits into pieces that match the items in order. -/
def Splits (is : List Item) (w : List UInt8) : Prop := ∃ ws, List.Forall₂ Item.Matches is ws ∧ w = ws.flatten

/-- Some substring of the text is matched, from its start and to its end if the pattern says so. -/
def Pattern.Matches (p : Pattern) (text : List UInt8) : Prop :=
  ∃ before w after, text = before ++ w ++ after ∧ (p.start = true → before = []) ∧ (p.finish = true → after = []) ∧
    Splits p.items w

section Splits
variable {is : List Item} {w : List UInt8}

theorem splits_nil : Splits [] w ↔ w = [] := by
  constructor
  · rintro ⟨ws, h, rfl⟩
    cases h
    rfl
  · rintro rfl
    exact ⟨[], .nil, rfl⟩

theorem splits_cons {i : Item} : Splits (i :: is) w ↔ ∃ u v, w = u ++ v ∧ i.Matches u ∧ Splits is v := by
  constructor
  · rintro ⟨ws, h, rfl⟩
    cases h with
    | @cons _ u _ vs hu hvs => exact ⟨u, vs.flatten, rfl, hu, vs, hvs, rfl⟩
  · rintro ⟨u, v, rfl, hu, vs, hvs, rfl⟩
    exact ⟨u :: vs, .cons hu hvs, rfl⟩

end Splits

/-- A prefix of the text is matched, all of it if `finish` is set. -/
def Here (is : List Item) (finish : Bool) (text : List UInt8) : Prop :=
  ∃ w after, text = w ++ after ∧ (finish = true → after = []) ∧ Splits is w

section Here
variable {is : List Item} {finish : Bool} {text : List UInt8} {c t : UInt8}

theorem here_nil : Here [] finish text ↔ (finish = true → text = []) := by
  constructor
  · rintro ⟨w, after, rfl, hend, hw⟩
    rw [splits_nil.mp hw]
    exact hend
  · intro hend
    exact ⟨[], text, rfl, hend, splits_nil.mpr rfl⟩

/-- An item takes a prefix, and the others match what is behind it. -/
theorem here_cons {i : Item} : Here (i :: is) finish text ↔ ∃ u v, text = u ++ v ∧ i.Matches u ∧ Here is finish v := by
  constructor
  · rintro ⟨w, after, rfl, hend, hw⟩
    obtain ⟨u, v, rfl, hu, hv⟩ := splits_cons.mp hw
    exact ⟨u, v ++ after, List.append_assoc .., hu, v, after, rfl, hend, hv⟩
  · rintro ⟨u, v, rfl, hu, w, after, rfl, hend, hw⟩
    exact ⟨u ++ w, after, (List.append_assoc ..).symm, hend, splits_cons.mpr ⟨u, w, rfl, hu, hw⟩⟩

theorem here_one_nil : ¬ Here (.one c :: is) finish [] := by
  intro h
  obtain ⟨u, v, hnil, ⟨x, rfl, -⟩, -⟩ := here_cons.mp h
  cases hnil

theorem here_one_cons : Here (.one c :: is) finish (t :: text) ↔ Stands c t ∧ Here is finish text := by
  rw [here_cons]
  constructor
  · rintro ⟨u, v, heq, ⟨x, rfl, hx⟩, hv⟩
    obtain ⟨rfl, rfl⟩ := List.cons.inj heq
    exact ⟨hx, hv⟩
  · rintro ⟨hc, hv⟩
    exact ⟨[t], text, rfl, ⟨t, rfl, hc⟩, hv⟩

theorem star_matches_nil : (Item.star c).Matches [] := fun _ hx => nomatch hx

theorem here_star_nil : Here (.star c :: is) finish [] ↔ Here is finish [] := by
  rw [here_cons]
  constructor
  · rintro ⟨u, v, hnil, -, hv⟩
    obtain ⟨-, rfl⟩ := List.append_eq_nil_iff.mp hnil.symm
    exact hv
  · intro hv
    exact ⟨[], [], rfl, star_matches_nil, hv⟩

/-- A starred item takes nothing, or one character and goes on. -/
theorem here_star_cons : Here (.star c :: is) finish (t :: text) ↔
    Here is finish (t :: text) ∨ Stands c t ∧ Here (.star c :: is) finish text := by
  constructor
  · intro h
    obtain ⟨u, v, heq, hu, hv⟩ := here_cons.mp h
    cases u with
    | nil =>
      left
      rw [heq]
      exact hv
    | cons x u =>
      obtain ⟨rfl, rfl⟩ := List.cons.inj heq
      right
      refine ⟨hu t List.mem_cons_self, here_cons.mpr ⟨u, v, rfl, ?_, hv⟩⟩
      exact fun y hy => hu y (List.mem_cons_of_mem t hy)
  · rintro (h | ⟨hc, h⟩)
    · exact here_cons.mpr ⟨[], t :: text, rfl, star_matches_nil, h⟩
    · obtain ⟨u, v, rfl, hu, hv⟩ := here_cons.mp h
      refine here_cons.mpr ⟨t :: u, v, rfl, ?_, hv⟩
      exact List.forall_mem_cons.mpr ⟨hc, hu⟩

end Here

section Correct
variable {re text : List UInt8} {c : UInt8}

theorem matchstar_iff {is : List Item} {finish : Bool} {here : List UInt8 → Bool}
    (hhere : ∀ text, here text = true ↔ Here is finish text) (text : List UInt8) :
    matchstar c here text = true ↔ Here (.star c :: is) finish text := by
  induction text with
  | nil => exact (hhere []).trans here_star_nil.symm
  | cons t text ih =>
    rw [here_star_cons, ← ih, ← hhere, matchstar, Stands]
    simp only [Bool.or_eq_true, Bool.and_eq_true, decide_eq_true_eq]
    rw [or_comm (a := t = c), eq_comm (a := t)]

theorem matchhere_iff (re text : List UInt8) :
    matchhere re text = true ↔ Here (readItems re).1 (readItems re).2 text := by
  fun_induction readItems re generalizing text with
  | case1 => simp [matchhere, here_nil]
  | case2 =>
    rw [here_nil]
    simp [matchhere]
  | case3 c hc =>
    unfold matchhere
    rw [if_neg hc]
    cases text with
    | nil => simp [here_one_nil]
    | cons t text => simp [here_one_cons, here_nil, Stands, matchhere]
  | case4 c re is finish hread ih =>
    unfold matchhere
    rw [if_pos rfl]
    exact matchstar_iff (fun text => by rw [ih, hread]) text
  | case5 c d re hd is finish hread ih =>
    unfold matchhere
    rw [if_neg hd]
    cases text with
    | nil => simp [here_one_nil]
    | cons t text =>
      rw [here_one_cons]
      simp only [Bool.and_eq_true, decide_eq_true_eq]
      rw [ih, hread]
      rfl

/-- The loop of `match` tries every position of the text, its end included. -/
theorem search_iff : search re text = true ↔ ∃ before rest, text = before ++ rest ∧ matchhere re rest = true := by
  induction text with
  | nil =>
    constructor
    · intro h
      exact ⟨[], [], rfl, h⟩
    · rintro ⟨before, rest, hnil, h⟩
      obtain ⟨-, rfl⟩ := List.append_eq_nil_iff.mp hnil.symm
      exact h
  | cons t text ih =>
    unfold search
    rw [Bool.or_eq_true, ih]
    constructor
    · rintro (h | ⟨before, rest, rfl, h⟩)
      · exact ⟨[], t :: text, rfl, h⟩
      · exact ⟨t :: before, rest, rfl, h⟩
    · rintro ⟨before, rest, heq, h⟩
      cases before with
      | nil =>
        left
        rw [heq]
        exact h
      | cons x before =>
        obtain ⟨rfl, rfl⟩ := List.cons.inj heq
        exact .inr ⟨before, rest, rfl, h⟩

end Correct

/-- The matcher of `grep` agrees with the meaning of patterns. -/
theorem match_iff_matches (re text : List UInt8) : gmatch re text = true ↔ (Pattern.read re).Matches text := by
  have hsearch : ∀ re, search re text = true ↔ (Pattern.mk false (readItems re).1 (readItems re).2).Matches text := by
    intro re
    rw [search_iff]
    constructor
    · rintro ⟨before, rest, rfl, h⟩
      obtain ⟨w, after, rfl, hend, hw⟩ := (matchhere_iff re rest).mp h
      exact ⟨before, w, after, (List.append_assoc ..).symm, Bool.noConfusion, hend, hw⟩
    · rintro ⟨before, w, after, rfl, -, hend, hw⟩
      exact ⟨before, w ++ after, List.append_assoc .., (matchhere_iff re _).mpr ⟨w, after, rfl, hend, hw⟩⟩
  cases re with
  | nil => exact hsearch []
  | cons c re =>
    rw [gmatch, Pattern.read]
    by_cases hc : c = caret
    · rw [if_pos hc, if_pos hc, matchhere_iff]
      constructor
      · rintro ⟨w, after, rfl, hend, hw⟩
        exact ⟨[], w, after, rfl, fun _ => rfl, hend, hw⟩
      · rintro ⟨before, w, after, rfl, hstart, hend, hw⟩
        rw [hstart rfl]
        exact ⟨w, after, rfl, hend, hw⟩
    · rw [if_neg hc, if_neg hc]
      exact hsearch (c :: re)

end Chameleon.Grep
