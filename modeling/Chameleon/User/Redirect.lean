import Mathlib.Logic.Relation
import Chameleon.Param
import Chameleon.User.Parser

/-! The descriptors with which `runcmd` runs the parts of a command. -/

namespace Chameleon.Shell

/-- What a descriptor can refer to, over the files that names stand for. -/
inductive Opened (F : Type)
  | file (f : F) (mode : Nat)
  | readEnd (k : Nat)
  | writeEnd (k : Nat)

/-- The open files of a process. -/
abbrev Fds (F : Type) := Nat → Option (Opened F)

section Calls
variable {F : Type}

/-- The lowest free descriptor. -/
def fdalloc (t : Fds F) : Option Nat := (List.range NOFILE).find? fun fd => (t fd).isNone

def close (t : Fds F) (fd : Nat) : Fds F := Function.update t fd none

/-- The descriptor that `open`, `pipe` and `dup` return for an open file, and the table with it. -/
def install (t : Fds F) (o : Opened F) : Option (Nat × Fds F) :=
  (fdalloc t).map fun fd => (fd, Function.update t fd (some o))

/-- `pipe(p)` -/
def pipe (t : Fds F) (k : Nat) : Option (Nat × Nat × Fds F) := do
  let (p₀, t) ← install t (.readEnd k)
  let (p₁, t) ← install t (.writeEnd k)
  return (p₀, p₁, t)

def dup (t : Fds F) (fd : Nat) : Option (Fds F) := do
  let o ← t fd
  let (_, t) ← install t o
  return t

/-- The part of `runcmd` for a `redircmd`, before it goes on with the command within. -/
def redirect (file : Word → F) (t : Fds F) (r : Redir Word) : Option (Fds F) :=
  (install (close t r.fd) (.file (file r.file) r.mode)).map Prod.snd

/-- `runcmd` of the first, with its table, calls `runcmd` of the second, in the process or in a child. -/
inductive Runs (file : Word → F) : Cmd Word × Fds F → Cmd Word × Fds F → Prop
  | redir {cmd r t t'} (h : redirect file t r = some t') : Runs file (.redir cmd r, t) (cmd, t')
  | listLeft {left right t} : Runs file (.list left right, t) (left, t)
  | listRight {left right t} : Runs file (.list left right, t) (right, t)
  | pipeLeft {left right t p₀ p₁ t' t'' k} (hp : pipe t k = some (p₀, p₁, t')) (hd : dup (close t' 1) p₁ = some t'') :
      Runs file (.pipe left right, t) (left, close (close t'' p₀) p₁)
  | pipeRight {left right t p₀ p₁ t' t'' k} (hp : pipe t k = some (p₀, p₁, t')) (hd : dup (close t' 0) p₀ = some t'') :
      Runs file (.pipe left right, t) (right, close (close t'' p₀) p₁)
  | back {cmd t} : Runs file (.back cmd, t) (cmd, t)

end Calls

/-! ### A command and its redirections -/

/-- A simple or parenthesised command: its tokens, its redirections from left to right, the command within them and
the tree that the parser builds. -/
inductive Command : List Token → List (Op × Word) → Cmd Word → Cmd Word → Prop
  | simple (rs : List (Op × Word)) (args : List (Word × List (Op × Word))) (hmax : args.length < MAXARGS) :
      Command (redirTokens rs ++ argTokens args) (rs ++ args.flatMap Prod.snd) (.exec (args.map Prod.fst))
        (wrap (.exec (args.map Prod.fst)) ((rs ++ args.flatMap Prod.snd).map Op.redir))
  | block {ts c} (rs : List (Op × Word)) (h : Derives .line ts c) :
      Command (.lpar :: ts ++ .rpar :: redirTokens rs) rs c (wrap c (rs.map Op.redir))

section Effect
variable {F : Type} (file : Word → F)

/-- The files of the redirections of descriptor 0, from left to right. -/
def inputs (rs : List (Op × Word)) : List F := (rs.filter fun r => r.1 = .lt).map fun r => file r.2

/-- The files of the redirections of descriptor 1. -/
def outputs (rs : List (Op × Word)) : List F := (rs.filter fun r => r.1 ≠ .lt).map fun r => file r.2

/-- The last redirection of a descriptor, if there is one, decides what it refers to. -/
structure LastWins (rs : List (Op × Word)) (t t' : Fds F) : Prop where
  input : t' 0 = ((inputs file rs).getLast?.map (Opened.file · O_RDONLY)).or (t 0)
  output : t' 1 = ((outputs file rs).getLast?.map (Opened.file · (O_WRONLY ||| O_CREATE))).or (t 1)
  other : ∀ fd, fd ≠ 0 → fd ≠ 1 → t' fd = t fd

/-- `runcmd` comes to the command `c` within the redirections, and then the last one of each descriptor has won. -/
def LeftToRight (tree : Cmd Word) (rs : List (Op × Word)) (c : Cmd Word) (t : Fds F) : Prop :=
  (∃ t', Relation.ReflTransGen (Runs file) (tree, t) (c, t')) ∧
    ∀ t', Relation.ReflTransGen (Runs file) (tree, t) (c, t') → LastWins file rs t t'

end Effect

section Unwind
variable {F : Type} {file : Word → F} {t t' : Fds F} {c : Cmd Word} {rs : List (Op × Word)}

theorem install_zero (h : t 0 = none) (o : Opened F) : install t o = some (0, Function.update t 0 (some o)) := by
  have hfd : fdalloc t = some 0 := by
    show (0 :: (List.range' 1 15)).find? _ = some 0
    rw [List.find?_cons_of_pos (by rw [h]; rfl)]
  rw [install, hfd]
  rfl

theorem install_one (h₀ : t 0 ≠ none) (h : t 1 = none) (o : Opened F) :
    install t o = some (1, Function.update t 1 (some o)) := by
  have hfd : fdalloc t = some 1 := by
    show (0 :: 1 :: (List.range' 2 14)).find? _ = some 1
    rw [List.find?_cons_of_neg (by simpa using h₀), List.find?_cons_of_pos (by rw [h]; rfl)]
  rw [install, hfd]
  rfl

/-- The table after one redirection. -/
def applied (file : Word → F) (r : Op × Word) (t : Fds F) : Fds F :=
  Function.update t (Op.redir r).fd (some (.file (file r.2) (Op.redir r).mode))

theorem redirect_eq (h₀ : t 0 ≠ none) (r : Op × Word) : redirect file t (Op.redir r) = some (applied file r t) := by
  obtain ⟨op, w⟩ := r
  have hzero : install (close t 0) (.file (file w) O_RDONLY) =
      some (0, Function.update t 0 (some (.file (file w) O_RDONLY))) := by
    unfold close
    rw [install_zero (Function.update_self ..), Function.update_idem]
  have hone : install (close t 1) (.file (file w) (O_WRONLY ||| O_CREATE)) =
      some (1, Function.update t 1 (some (.file (file w) (O_WRONLY ||| O_CREATE)))) := by
    unfold close
    rw [install_one (by rwa [Function.update_of_ne (by decide)]) (Function.update_self ..), Function.update_idem]
  unfold redirect applied
  cases op with
  | lt => exact congrArg (Option.map Prod.snd) hzero
  | gt => exact congrArg (Option.map Prod.snd) hone
  | gtgt => exact congrArg (Option.map Prod.snd) hone

theorem applied_zero (h₀ : t 0 ≠ none) (r : Op × Word) : applied file r t 0 ≠ none := by
  unfold applied
  by_cases hr : 0 = (Op.redir r).fd
  · rw [← hr, Function.update_self]
    exact Option.some_ne_none _
  · rwa [Function.update_of_ne hr]

theorem Runs.size_lt {a b : Cmd Word × Fds F} (h : Runs file a b) : sizeOf b.1 < sizeOf a.1 := by
  cases h with
  | redir | listLeft | listRight | pipeLeft | pipeRight | back => simp <;> omega

theorem size_le_of_runs {a b : Cmd Word × Fds F} (h : Relation.ReflTransGen (Runs file) a b) : sizeOf b.1 ≤ sizeOf a.1 := by
  induction h with
  | refl => exact Nat.le_refl _
  | tail _ hstep ih => exact Nat.le_trans (Nat.le_of_lt hstep.size_lt) ih

theorem size_le_wrap (c : Cmd Word) (rs : List (Redir Word)) : sizeOf c ≤ sizeOf (wrap c rs) := by
  induction rs generalizing c with
  | nil => exact Nat.le_refl _
  | cons r rs ih =>
    refine Nat.le_trans ?_ (ih (.redir c r))
    simp only [Cmd.redir.sizeOf_spec]
    omega

/-- The redirections are carried out from the last one to the first one. -/
theorem runs_wrap_iff (h₀ : t 0 ≠ none) :
    Relation.ReflTransGen (Runs file) (wrap c (rs.map Op.redir), t) (c, t') ↔ t' = rs.foldr (applied file) t := by
  induction rs using List.reverseRecOn generalizing t with
  | nil =>
    constructor
    · intro h
      rcases h.cases_head with heq | ⟨b, hstep, hrest⟩
      · exact (Prod.mk.inj heq).2.symm
      · have hless : sizeOf b.1 < sizeOf c := hstep.size_lt
        exact absurd (size_le_of_runs hrest) (Nat.not_le.mpr hless)
    · rintro rfl
      exact .refl
  | append_singleton rs r ih =>
    have htree : wrap c ((rs ++ [r]).map Op.redir) = .redir (wrap c (rs.map Op.redir)) (Op.redir r) := by
      rw [List.map_append, wrap, List.foldl_append]
      rfl
    have hgo : redirect file t (Op.redir r) = some (applied file r t) := redirect_eq h₀ r
    rw [htree, List.foldr_append]
    constructor
    · intro h
      rcases h.cases_head with heq | ⟨b, hstep, hrest⟩
      · -- the command is smaller than the tree
        have hle := size_le_wrap c (rs.map Op.redir)
        have hsize := congrArg sizeOf (Prod.mk.inj heq).1
        rw [Cmd.redir.sizeOf_spec] at hsize
        omega
      · cases hstep with
        | redir hr =>
          cases hgo.symm.trans hr
          exact (ih (applied_zero h₀ r)).mp hrest
    · intro h
      exact .head (.redir hgo) ((ih (applied_zero h₀ r)).mpr h)

/-- So the first redirection of a descriptor decides what it refers to. -/
theorem foldr_applied (file : Word → F) (rs : List (Op × Word)) (t : Fds F) :
    rs.foldr (applied file) t 0 = ((inputs file rs).head?.map (Opened.file · O_RDONLY)).or (t 0) ∧
      rs.foldr (applied file) t 1 = ((outputs file rs).head?.map (Opened.file · (O_WRONLY ||| O_CREATE))).or (t 1) ∧
      ∀ fd, fd ≠ 0 → fd ≠ 1 → rs.foldr (applied file) t fd = t fd := by
  induction rs with
  | nil => exact ⟨rfl, rfl, fun _ _ _ => rfl⟩
  | cons r rs ih =>
    obtain ⟨op, w⟩ := r
    obtain ⟨hin, hout, hother⟩ := ih
    rw [List.foldr_cons]
    cases op with
    | lt =>
      refine ⟨Function.update_self .., ?_, fun fd h₀ h₁ => ?_⟩
      · exact (Function.update_of_ne Nat.one_ne_zero ..).trans hout
      · exact (Function.update_of_ne h₀ ..).trans (hother fd h₀ h₁)
    | gt =>
      refine ⟨?_, Function.update_self .., fun fd h₀ h₁ => ?_⟩
      · exact (Function.update_of_ne Nat.zero_ne_one ..).trans hin
      · exact (Function.update_of_ne h₁ ..).trans (hother fd h₀ h₁)
    | gtgt =>
      refine ⟨?_, Function.update_self .., fun fd h₀ h₁ => ?_⟩
      · exact (Function.update_of_ne Nat.zero_ne_one ..).trans hin
      · exact (Function.update_of_ne h₁ ..).trans (hother fd h₀ h₁)

/-- The first and the last of the files are the same. -/
theorem or_head_eq_or_getLast (fs : List F) (mode : Nat) (o : Option (Opened F)) :
    (fs.head?.map (Opened.file · mode)).or o = (fs.getLast?.map (Opened.file · mode)).or o ↔ fs.head? = fs.getLast? := by
  cases fs with
  | nil => exact iff_of_true rfl rfl
  | cons f fs =>
    rw [List.head?_cons, List.getLast?_cons]
    simp

theorem Command.tree_eq {ts : List Token} {tree : Cmd Word} (h : Command ts rs c tree) :
    tree = wrap c (rs.map Op.redir) ∧ Derives .exec ts tree := by
  cases h with
  | simple rs args hmax => exact ⟨rfl, .exec rs args hmax⟩
  | block rs h => exact ⟨rfl, .block rs h⟩

end Unwind

/-- The last redirection of each descriptor wins exactly when it is for the same file as the first one. -/
theorem leftToRight_iff {F : Type} (file : Word → F) (rs : List (Op × Word)) (c : Cmd Word) {t : Fds F} (h₀ : t 0 ≠ none) :
    LeftToRight file (wrap c (rs.map Op.redir)) rs c t ↔
      (inputs file rs).head? = (inputs file rs).getLast? ∧ (outputs file rs).head? = (outputs file rs).getLast? := by
  obtain ⟨hin, hout, hother⟩ := foldr_applied file rs t
  have hpath : ∀ t', Relation.ReflTransGen (Runs file) (wrap c (rs.map Op.redir), t) (c, t') ↔
      t' = rs.foldr (applied file) t := fun t' => runs_wrap_iff h₀
  rw [← or_head_eq_or_getLast _ O_RDONLY (t 0), ← or_head_eq_or_getLast _ (O_WRONLY ||| O_CREATE) (t 1), ← hin, ← hout]
  constructor
  · intro hall
    obtain ⟨⟨t', hrun⟩, hwins⟩ := hall
    obtain rfl := (hpath t').mp hrun
    exact ⟨(hwins _ hrun).input, (hwins _ hrun).output⟩
  · rintro ⟨hi, ho⟩
    refine ⟨⟨_, (hpath _).mpr rfl⟩, fun t' hrun => ?_⟩
    obtain rfl := (hpath t').mp hrun
    exact ⟨hi, ho, hother⟩

/-- The parser builds the tree of a simple or parenthesised command. -/
theorem Command.parsed {line : List UInt8} (hline : (0 : UInt8) ∉ line) {fuel : Nat} (hf : 4 * line.length + 4 ≤ fuel)
    {rs : List (Op × Word)} {c tree : Cmd Word} (h : Command (tokens line) rs c tree) :
    ∃ cmd mem, parsecmd fuel (line ++ [0]) = .ok (cmd, mem) ∧ cmd.map (cstring mem) = wrap c (rs.map Op.redir) := by
  obtain ⟨htree, hexec⟩ := h.tree_eq
  have hderives := Derives.last 0 (.one hexec)
  rw [List.replicate_zero, List.append_nil] at hderives
  rw [← htree]
  exact parsecmd_of_derives hline hf hderives

/-- For a simple or parenthesised command that `runcmd` runs with descriptors 0, 1 and 2 open, the last redirection of
each descriptor wins exactly when it is for the same file as the first one. -/
theorem redirections_iff {F : Type} (file : Word → F) {line : List UInt8} (hline : (0 : UInt8) ∉ line) {fuel : Nat}
    (hf : 4 * line.length + 4 ≤ fuel) {rs : List (Op × Word)} {c tree : Cmd Word} (h : Command (tokens line) rs c tree)
    {t : Fds F} (ht : ∀ fd < 3, t fd ≠ none) :
    ∃ cmd mem, parsecmd fuel (line ++ [0]) = .ok (cmd, mem) ∧
      (LeftToRight file (cmd.map (cstring mem)) rs c t ↔
        (inputs file rs).head? = (inputs file rs).getLast? ∧ (outputs file rs).head? = (outputs file rs).getLast?) := by
  obtain ⟨cmd, mem, hparse, hcmd⟩ := h.parsed hline hf
  refine ⟨cmd, mem, hparse, ?_⟩
  rw [hcmd]
  exact leftToRight_iff file rs c (ht 0 (by decide))

/-- `cat<a>b` -/
def catOnce : List UInt8 := chars ['c', 'a', 't', '<', 'a', '>', 'b']

theorem redirections_catOnce : ∃ cmd mem, parsecmd 32 (catOnce ++ [0]) = .ok (cmd, mem) ∧
    LeftToRight id (cmd.map (cstring mem)) [(.lt, chars ['a']), (.gt, chars ['b'])] (.exec [chars ['c', 'a', 't']])
      fun _ => some (.file [] 0) := by
  have htokens : tokens catOnce = redirTokens [] ++
      argTokens [(chars ['c', 'a', 't'], [(.lt, chars ['a']), (.gt, chars ['b'])])] := by decide
  have hcommand := Command.simple [] [(chars ['c', 'a', 't'], [(.lt, chars ['a']), (.gt, chars ['b'])])] (by decide)
  rw [← htokens] at hcommand
  have hfuel : 4 * catOnce.length + 4 ≤ 32 := by decide
  obtain ⟨cmd, mem, hparse, hiff⟩ := redirections_iff id (by decide) hfuel hcommand
    (fun fd _ => Option.some_ne_none (Opened.file ([] : Word) 0))
  exact ⟨cmd, mem, hparse, hiff.mpr ⟨rfl, rfl⟩⟩

/-- `cat<a<b` -/
def catTwice : List UInt8 := chars ['c', 'a', 't', '<', 'a', '<', 'b']

/-- It reads `a`. -/
theorem redirections_first_wins : ∃ cmd mem, parsecmd 32 (catTwice ++ [0]) = .ok (cmd, mem) ∧
    ¬ LeftToRight id (cmd.map (cstring mem)) [(.lt, chars ['a']), (.lt, chars ['b'])] (.exec [chars ['c', 'a', 't']])
      fun _ => some (.file [] 0) := by
  have htokens : tokens catTwice = redirTokens [] ++
      argTokens [(chars ['c', 'a', 't'], [(.lt, chars ['a']), (.lt, chars ['b'])])] := by decide
  have hcommand := Command.simple [] [(chars ['c', 'a', 't'], [(.lt, chars ['a']), (.lt, chars ['b'])])] (by decide)
  rw [← htokens] at hcommand
  have hfuel : 4 * catTwice.length + 4 ≤ 32 := by decide
  obtain ⟨cmd, mem, hparse, hcmd⟩ := hcommand.parsed (by decide) hfuel
  refine ⟨cmd, mem, hparse, fun hall => ?_⟩
  rw [hcmd] at hall
  have hsame := ((leftToRight_iff id _ _ (Option.some_ne_none (Opened.file ([] : Word) 0))).mp hall).1
  exact absurd hsame (by decide)

end Chameleon.Shell
