import Chameleon.User.Lexer

/-! What the functions of the parser return is derived by the grammar: with fuel for the tokens
that are left, each of them reads a phrase or panics. -/

namespace Chameleon.Shell

def Redir.map {V W : Type} (f : V → W) (r : Redir V) : Redir W := ⟨f r.file, r.mode, r.fd⟩

def Cmd.map {V W : Type} (f : V → W) : Cmd V → Cmd W
  | .exec argv => .exec (argv.map f)
  | .redir cmd r => .redir (cmd.map f) (r.map f)
  | .pipe left right => .pipe (left.map f) (right.map f)
  | .list left right => .list (left.map f) (right.map f)
  | .back cmd => .back (cmd.map f)

/-- The bytes of a word. -/
def text (line : List UInt8) (sp : Span) : Word := (line.drop sp.1).take (sp.2 - sp.1)

/-- The words of a command lie in the line, and its `argv` has room for the final 0. -/
def Cmd.Valid (line : List UInt8) : Cmd Span → Prop
  | .exec argv => argv.length < MAXARGS ∧ ∀ sp ∈ argv, Fits line sp (text line sp)
  | .redir cmd r => cmd.Valid line ∧ Fits line r.file (text line r.file)
  | .pipe left right => left.Valid line ∧ right.Valid line
  | .list left right => left.Valid line ∧ right.Valid line
  | .back cmd => cmd.Valid line

theorem map_wrap {V W : Type} (f : V → W) (cmd : Cmd V) (rs : List (Redir V)) :
    (wrap cmd rs).map f = wrap (cmd.map f) (rs.map (Redir.map f)) := by
  induction rs generalizing cmd with
  | nil => rfl
  | cons r rs ih => exact ih (.redir cmd r)

theorem map_backs {V W : Type} (f : V → W) (cmd : Cmd V) (k : Nat) :
    (Cmd.back^[k] cmd).map f = Cmd.back^[k] (cmd.map f) := by
  induction k generalizing cmd with
  | zero => rfl
  | succ k ih => exact ih (.back cmd)

theorem valid_backs {line : List UInt8} (cmd : Cmd Span) (h : cmd.Valid line) (k : Nat) :
    (Cmd.back^[k] cmd).Valid line := by
  induction k generalizing cmd with
  | zero => exact h
  | succ k ih => exact ih (cmd.back) h

theorem valid_wrap {line : List UInt8} (cmd : Cmd Span) {rs : List (Redir Span)}
    (h : cmd.Valid line) (hrs : ∀ r ∈ rs, Fits line r.file (text line r.file)) :
    (wrap cmd rs).Valid line := by
  induction rs generalizing cmd with
  | nil => exact h
  | cons r rs ih =>
    exact ih (.redir cmd r) ⟨h, hrs r List.mem_cons_self⟩
      fun r' hr' => hrs r' (List.mem_cons_of_mem r hr')

section Soundness
variable {line : List UInt8} {i n : Nat} {α β : Type}

/-- A parse from `i` panics, or reads a prefix of the tokens that satisfies `Q` with its result. -/
inductive Parses (line : List UInt8) (i : Nat) (Q : α → List Token → Prop) :
    Except Err (α × Nat) → Prop
  | panic (msg : String) : Parses line i Q (.error (.panic msg))
  | ok {a : α} {j : Nat} (pre : List Token) (hj : At line j)
      (hrest : rest line i = pre ++ rest line j) (h : Q a pre) : Parses line i Q (.ok (a, j))

theorem Parses.bind {Q : α → List Token → Prop} {R : β → List Token → Prop}
    {x : Except Err (α × Nat)} {f : α × Nat → Except Err (β × Nat)} (hx : Parses line i Q x)
    (hf : ∀ a j pre, At line j → rest line i = pre ++ rest line j → Q a pre →
      Parses line j (fun b post => R b (pre ++ post)) (f (a, j))) : Parses line i R (x >>= f) := by
  cases hx with
  | panic msg => exact .panic msg
  | @ok a j pre hj hrest hQ =>
    have hy := hf a j pre hj hrest hQ
    rw [ok_bind]
    generalize f (a, j) = y at hy
    cases hy with
    | panic msg => exact .panic msg
    | ok post hk hrest' hR =>
      exact .ok (pre ++ post) hk (by rw [hrest, hrest', List.append_assoc]) hR

theorem Parses.mono {Q R : α → List Token → Prop} {x : Except Err (α × Nat)}
    (h : Parses line i Q x) (hQ : ∀ a pre, Q a pre → R a pre) : Parses line i R x := by
  cases h with
  | panic msg => exact .panic msg
  | ok pre hj hrest h => exact .ok pre hj hrest (hQ _ _ h)

theorem Parses.ok_inv {Q : α → List Token → Prop} {a : α} {j : Nat}
    (h : Parses line i Q (.ok (a, j))) :
    At line j ∧ ∃ pre, rest line i = pre ++ rest line j ∧ Q a pre := by
  cases h with
  | ok pre hj hrest hQ => exact ⟨hj, pre, hrest, hQ⟩

theorem Parses.error_inv {Q : α → List Token → Prop} {e : Err} (h : Parses line i Q (.error e)) :
    ∃ msg, e = .panic msg := by
  cases h with
  | panic msg => exact ⟨msg, rfl⟩

/-- A parse that begins by moving to where the tokens are the same. -/
theorem Parses.of_rest {Q : α → List Token → Prop} {j : Nat} {x : Except Err (α × Nat)}
    (h : Parses line j Q x) (hrest : rest line j = rest line i) : Parses line i Q x := by
  cases h with
  | panic msg => exact .panic msg
  | ok pre hk hpre hQ => exact .ok pre hk (by rw [← hrest, hpre]) hQ

/-- A parse that begins by reading a token. -/
theorem Parses.cons {Q : α → List Token → Prop} {j : Nat} {t : Token} {x : Except Err (α × Nat)}
    (h : Parses line j (fun a post => Q a (t :: post)) x) (hrest : rest line i = t :: rest line j) :
    Parses line i Q x := by
  cases h with
  | panic msg => exact .panic msg
  | ok pre hk hpre hQ => exact .ok (t :: pre) hk (by rw [hrest, hpre]; rfl) hQ

/-! ### Which tokens `peek` is asked for -/

def Token.isRedir : Token → Bool
  | .redir _ => true
  | _ => false

/-- The tokens that end an `exec`. -/
def Token.stops : Token → Bool
  | .bar | .rpar | .amp | .semi => true
  | _ => false

theorem contains_redirs (t : Token) : (chars ['<', '>']).contains t.mark = t.isRedir := by
  cases t with
  | redir op => cases op <;> rfl
  | _ => rfl

theorem contains_stops (t : Token) :
    (chars ['|', ')', '&', ';']).contains t.mark = t.stops := by
  cases t with
  | redir op => cases op <;> rfl
  | _ => rfl

/-- The symbols that `peek` is asked for one at a time. -/
def marks : List (Char × Token) :=
  [('&', .amp), (';', .semi), ('|', .bar), ('(', .lpar), (')', .rpar)]

theorem mem_amp : ('&', Token.amp) ∈ marks := by decide

theorem mem_semi : (';', Token.semi) ∈ marks := by decide

theorem mem_bar : ('|', Token.bar) ∈ marks := by decide

theorem mem_lpar : ('(', Token.lpar) ∈ marks := by decide

theorem mem_rpar : (')', Token.rpar) ∈ marks := by decide

theorem contains_one {c : Char} {t₀ : Token} (h : (c, t₀) ∈ marks) (t : Token) :
    (chars [c]).contains t.mark = decide (t = t₀) := by
  simp only [marks, List.mem_cons, Prod.mk.injEq, List.not_mem_nil, or_false] at h
  rcases h with ⟨rfl, rfl⟩ | ⟨rfl, rfl⟩ | ⟨rfl, rfl⟩ | ⟨rfl, rfl⟩ | ⟨rfl, rfl⟩ <;>
  · cases t with
    | redir op => cases op <;> decide
    | word w => simp [Token.mark, Token.code]; decide
    | bar | amp | semi | lpar | rpar => decide

theorem mem_symbols {c : Char} {t₀ : Token} (h : (c, t₀) ∈ marks) :
    ∀ d ∈ [c], d ∈ ['<', '|', '>', '&', ';', '(', ')'] := by
  simp only [marks, List.mem_cons, Prod.mk.injEq, List.not_mem_nil, or_false] at h
  rcases h with ⟨rfl, -⟩ | ⟨rfl, -⟩ | ⟨rfl, -⟩ | ⟨rfl, -⟩ | ⟨rfl, -⟩ <;> simp

theorem code_eq_word {t : Token} : t.code = Char.toUInt8 'a' ↔ ∃ w, t = .word w := by
  cases t with
  | redir op => cases op <;> exact iff_of_false (by decide) (by simp)
  | word w => exact iff_of_true rfl ⟨w, rfl⟩
  | bar | amp | semi | lpar | rpar => exact iff_of_false (by decide) (by simp)

theorem code_ne_zero (t : Token) : t.code ≠ 0 := by
  cases t with
  | redir op => cases op <;> decide
  | word w => exact (by decide : Char.toUInt8 'a' ≠ 0)
  | bar | amp | semi | lpar | rpar => decide

theorem redircmd_code (op : Op) (sp : Span) :
    redircmd (Token.redir op).code sp = [Op.redir (op, sp)] := by
  cases op <;> rfl

variable (h0 : (0 : UInt8) ∉ line)
include h0

theorem peek_eq (hi : At line i) {l : List Char} {p : Token → Bool}
    (hl : ∀ c ∈ l, c ∈ ['<', '|', '>', '&', ';', '(', ')'])
    (hp : ∀ t : Token, (chars l).contains t.mark = p t) :
    ∃ j, peek (line ++ [0]) line.length i (chars l) = .ok ((rest line i).head?.any p, j) ∧
      At line j ∧ rest line j = rest line i := by
  obtain ⟨j, hpeek, hj, hrest⟩ := peek_spec h0 hi (chars l) fun c hc => by
    obtain ⟨d, hd, rfl⟩ := List.mem_map.mp hc
    exact List.mem_map_of_mem (hl d hd)
  simp only [hp] at hpeek
  exact ⟨j, hpeek, hj, hrest⟩

/-- The redirections that `parseredirs` adds, and their tokens. -/
structure Redirected (line : List UInt8) (rs rs' : List (Redir Span)) (pre : List Token) : Prop where
  added : ∃ new ops, rs' = rs ++ new ∧ pre = redirTokens ops ∧
    new.map (Redir.map (text line)) = ops.map Op.redir ∧
    ∀ r ∈ new, Fits line r.file (text line r.file)

omit h0 in
theorem Redirected.nil {rs : List (Redir Span)} : Redirected line rs rs [] :=
  ⟨[], [], by simp, rfl, rfl, by simp⟩

omit h0 in
theorem Redirected.cons {rs rs' : List (Redir Span)} {pre : List Token} {op : Op} {sp : Span}
    {w : Word} (hw : Fits line sp w) (h : Redirected line (rs ++ [Op.redir (op, sp)]) rs' pre) :
    Redirected line rs rs' (.redir op :: .word w :: pre) := by
  obtain ⟨new, ops, rfl, rfl, hmap, hfits⟩ := h.added
  have htext : text line sp = w := hw.text
  have hfile : (Op.redir (op, sp)).file = sp := by cases op <;> rfl
  refine ⟨Op.redir (op, sp) :: new, (op, w) :: ops, by simp, rfl, ?_, ?_⟩
  · rw [List.map_cons, List.map_cons, hmap]
    congr 1
    cases op <;> simp [Op.redir, Redir.map, htext]
  · intro r hr
    rcases List.mem_cons.mp hr with rfl | hr
    · rw [hfile, htext]
      exact hw
    · exact hfits r hr

theorem parseredirs_sound (hi : At line i) (hn : (rest line i).length < n)
    (rs : List (Redir Span)) :
    Parses line i (Redirected line rs) (parseredirs (line ++ [0]) line.length n rs i) := by
  induction n generalizing rs i with
  | zero => omega
  | succ n ih =>
    obtain ⟨j, hpeek, hj, hrest⟩ := peek_eq h0 hi (by simp) contains_redirs
    simp only [parseredirs, hpeek, ok_bind]
    refine Parses.of_rest ?_ hrest
    rw [← hrest] at hn ⊢
    cases hts : rest line j with
    | nil => exact .ok [] hj rfl .nil
    | cons t ts =>
      cases t with
      | redir op =>
        obtain ⟨sp, k, hget, hk, hrest', -⟩ := gettoken_cons h0 hj hts
        simp only [List.head?_cons, Option.any_some, Token.isRedir, if_true, hget, ok_bind]
        cases hts' : rest line k with
        | nil =>
          obtain ⟨sp', hget'⟩ := gettoken_nil hk hts'
          simp only [hget', ok_bind]
          rw [if_pos (by decide)]
          exact .panic _
        | cons t' ts' =>
          obtain ⟨sp', l, hget', hl, hrest'', hfits⟩ := gettoken_cons h0 hk hts'
          simp only [hget', ok_bind]
          by_cases hw : ∃ w, t' = .word w
          · obtain ⟨w, rfl⟩ := hw
            rw [if_neg (by simp [Token.code]), redircmd_code]
            have hlen : (rest line l).length < n := by
              rw [hts, List.length_cons, ← hrest', hts', List.length_cons, ← hrest''] at hn
              omega
            refine Parses.cons (j := k) (t := .redir op) ?_ (by rw [hts, hrest'])
            refine Parses.cons (j := l) (t := .word w) ?_ (by rw [hts', hrest''])
            exact (ih hl hlen _).mono fun _ _ h => h.cons (hfits w rfl)
          · rw [if_pos (fun hc => hw (code_eq_word.mp hc))]
            exact .panic _
      | _ => exact .ok [] hj rfl .nil

/-- A symbol that the parser looks for, and consumes if it is there. -/
theorem Parses.peeked {Q : α → List Token → Prop} {c : Char} {t₀ : Token}
    (hc : (c, t₀) ∈ marks) (hi : At line i) {A B : Nat → Except Err (α × Nat)}
    (hA : ∀ k, At line k → rest line i = t₀ :: rest line k →
      Parses line k (fun a post => Q a (t₀ :: post)) (A k))
    (hB : ∀ j, At line j → rest line j = rest line i → (rest line i).head? ≠ some t₀ →
      Parses line j Q (B j)) :
    Parses line i Q (peek (line ++ [0]) line.length i (chars [c]) >>= fun x =>
      if x.1 then gettoken (line ++ [0]) line.length x.2 >>= fun y => A y.2.2 else B x.2) := by
  obtain ⟨j, hpeek, hj, hrest⟩ := peek_eq h0 hi (mem_symbols hc) (contains_one hc)
  simp only [hpeek, ok_bind]
  refine Parses.of_rest ?_ hrest
  cases hts : rest line i with
  | nil => exact hB j hj hrest (by simp [hts])
  | cons t ts =>
    by_cases ht : t = t₀
    · subst ht
      obtain ⟨sp, k, hget, hk, hrest', -⟩ := gettoken_cons h0 hj (hrest.trans hts)
      simp only [List.head?_cons, Option.any_some, decide_true, if_true, hget, ok_bind]
      refine Parses.cons (hA k hk ?_) ?_
      · rw [hts, hrest']
      · rw [hrest, hts, hrest']
    · simp only [List.head?_cons, Option.any_some, ht, decide_false, Bool.false_eq_true, if_false]
      exact hB j hj hrest (by simpa [hts] using ht)

theorem parsebacks_sound (hi : At line i) (hn : (rest line i).length < n) (cmd : Cmd Span) :
    Parses line i (fun cmd' pre => ∃ k, cmd' = Cmd.back^[k] cmd ∧ pre = List.replicate k .amp)
      (parsebacks (line ++ [0]) line.length n cmd i) := by
  induction n generalizing cmd i with
  | zero => omega
  | succ n ih =>
    refine Parses.peeked h0 mem_amp hi (fun k hk hrest => ?_)
      fun j hj hrest _ => .ok [] hj rfl ⟨0, rfl, rfl⟩
    have hlen : (rest line k).length < n := by
      rw [hrest, List.length_cons] at hn
      omega
    refine (ih hk hlen (.back cmd)).mono ?_
    rintro _ _ ⟨m, rfl, rfl⟩
    exact ⟨m + 1, rfl, rfl⟩

/-- The words and redirections that `parseargs` adds, and their tokens. -/
structure Argued (line : List UInt8) (argv : List Span) (rs : List (Redir Span))
    (res : List Span × List (Redir Span)) (pre : List Token) : Prop where
  added : ∃ words new args, res = (argv ++ words, rs ++ new) ∧ pre = argTokens args ∧
    words.map (text line) = args.map Prod.fst ∧
    new.map (Redir.map (text line)) = (args.flatMap Prod.snd).map Op.redir ∧
    (argv ++ words).length < MAXARGS ∧ (∀ sp ∈ words, Fits line sp (text line sp)) ∧
    ∀ r ∈ new, Fits line r.file (text line r.file)

omit h0 in
theorem Argued.nil {argv : List Span} {rs : List (Redir Span)} (h : argv.length < MAXARGS) :
    Argued line argv rs (argv, rs) [] :=
  ⟨[], [], [], by simp, rfl, rfl, rfl, by simpa using h, by simp, by simp⟩

omit h0 in
theorem Argued.cons {argv : List Span} {rs rs' : List (Redir Span)}
    {res : List Span × List (Redir Span)} {pre post : List Token} {sp : Span} {w : Word}
    (hw : Fits line sp w) (hrs : Redirected line rs rs' pre)
    (h : Argued line (argv ++ [sp]) rs' res post) :
    Argued line argv rs res (.word w :: (pre ++ post)) := by
  obtain ⟨new₁, ops, rfl, rfl, hmap₁, hfits₁⟩ := hrs.added
  obtain ⟨words, new, args, rfl, rfl, hwords, hmap, hlen, hfits, hfits'⟩ := h.added
  have htext : text line sp = w := hw.text
  refine ⟨sp :: words, new₁ ++ new, (w, ops) :: args, by simp, rfl, ?_, ?_, ?_, ?_, ?_⟩
  · rw [List.map_cons, List.map_cons, hwords, htext]
  · rw [List.map_append, hmap₁, hmap, List.flatMap_cons, List.map_append]
  · simpa using hlen
  · intro sp' hsp'
    rcases List.mem_cons.mp hsp' with rfl | hsp'
    · rw [htext]
      exact hw
    · exact hfits sp' hsp'
  · intro r hr
    exact (List.mem_append.mp hr).elim (hfits₁ r) (hfits' r)

theorem parseargs_sound (hi : At line i) (hn : (rest line i).length < n)
    {argv : List Span} (hargc : argv.length < MAXARGS) (rs : List (Redir Span)) :
    Parses line i (Argued line argv rs)
      (parseargs (line ++ [0]) line.length n argv rs i) := by
  induction n generalizing argv rs i with
  | zero => omega
  | succ n ih =>
    obtain ⟨j, hpeek, hj, hrest⟩ := peek_eq h0 hi (by simp) contains_stops
    simp only [parseargs, hpeek, ok_bind]
    refine Parses.of_rest ?_ hrest
    rw [← hrest] at hn ⊢
    cases hts : rest line j with
    | nil =>
      obtain ⟨sp, hget⟩ := gettoken_nil hj hts
      simp only [List.head?_nil, Option.any_none, Bool.false_eq_true, if_false, hget, ok_bind,
        if_true]
      exact .ok [] (at_end line) (by rw [hts]; simp [rest, tokens]) (.nil hargc)
    | cons t ts =>
      cases hstop : t.stops with
      | true =>
        simp only [List.head?_cons, Option.any_some, hstop, if_true]
        exact .ok [] hj rfl (.nil hargc)
      | false =>
        obtain ⟨sp, k, hget, hk, hrest', hfits⟩ := gettoken_cons h0 hj hts
        simp only [List.head?_cons, Option.any_some, hstop, Bool.false_eq_true, if_false, hget,
          ok_bind, if_neg (code_ne_zero t)]
        by_cases hw : ∃ w, t = .word w
        · obtain ⟨w, rfl⟩ := hw
          rw [if_neg (by simp [Token.code])]
          simp only [store, if_pos hargc, ok_bind]
          by_cases hmax : MAXARGS ≤ argv.length + 1
          · rw [if_pos hmax]
            exact .panic _
          · rw [if_neg hmax]
            refine Parses.cons (j := k) (t := .word w) ?_ (by rw [hts, hrest'])
            have hlen : (rest line k).length < n := by
              rw [hts, List.length_cons, ← hrest'] at hn
              omega
            refine (parseredirs_sound h0 hk hlen rs).bind fun rs' l pre hl hpre hrs => ?_
            have hlen' : (rest line l).length < n := by
              rw [hpre, List.length_append] at hlen
              omega
            have hargc' : (argv ++ [sp]).length < MAXARGS := by simpa using hmax
            exact (ih hl hlen' hargc' rs').mono fun _ _ h => h.cons (hfits w rfl) hrs
        · rw [if_pos (fun hc => hw (code_eq_word.mp hc))]
          exact .panic _

/-- The command belongs to a derivation of the tokens read. -/
def Phrased (line : List UInt8) (p : Phrase) (cmd : Cmd Span) (pre : List Token) : Prop :=
  Derives p pre (cmd.map (text line)) ∧ cmd.Valid line

/-- With fuel for the tokens that are left, each function reads a phrase or panics. -/
structure Sound (line : List UInt8) (n : Nat) : Prop where
  ofLine : ∀ i, At line i → 4 * (rest line i).length + 4 ≤ n →
    Parses line i (Phrased line .line) (parseline (line ++ [0]) line.length n i)
  ofPipe : ∀ i, At line i → 4 * (rest line i).length + 3 ≤ n →
    Parses line i (Phrased line .pipe) (parsepipe (line ++ [0]) line.length n i)
  ofExec : ∀ i, At line i → 4 * (rest line i).length + 2 ≤ n →
    Parses line i (Phrased line .exec) (parseexec (line ++ [0]) line.length n i)
  ofBlock : ∀ i, At line i → 4 * (rest line i).length + 1 ≤ n →
    Parses line i (Phrased line .exec) (parseblock (line ++ [0]) line.length n i)

theorem parseline_sound (ih : Sound line n) (hi : At line i)
    (hn : 4 * (rest line i).length + 4 ≤ n + 1) :
    Parses line i (Phrased line .line) (parseline (line ++ [0]) line.length (n + 1) i) := by
  simp only [parseline]
  refine (ih.ofPipe i hi (by omega)).bind fun cmd j pre hj hpre hcmd => ?_
  have hlen : (rest line i).length = pre.length + (rest line j).length := by
    rw [hpre, List.length_append]
  refine (parsebacks_sound h0 hj (by omega) cmd).bind fun cmd' k amps hk hamps hbacks => ?_
  obtain ⟨m, rfl, rfl⟩ := hbacks
  have hlen' : (rest line j).length = m + (rest line k).length := by
    rw [hamps, List.length_append, List.length_replicate]
  have hmap := map_backs (text line) cmd m
  refine Parses.peeked h0 mem_semi hk
    (A := fun i => parseline (line ++ [0]) line.length n i >>= fun x =>
      .ok (.list (Cmd.back^[m] cmd) x.1, x.2))
    (B := fun i => .ok (Cmd.back^[m] cmd, i)) (fun l hl hsemi => ?_) fun l hl hrest _ => ?_
  · have hlen'' : (rest line k).length = (rest line l).length + 1 := by rw [hsemi]; rfl
    refine (ih.ofLine l hl (by omega)).bind fun right e post he hpost hright => ?_
    refine .ok [] he rfl ⟨?_, valid_backs _ hcmd.2 m, hright.2⟩
    simp only [Cmd.map, hmap, List.append_nil]
    have := Derives.list m hcmd.1 hright.1
    simpa using this
  · refine .ok [] hl rfl ⟨?_, valid_backs _ hcmd.2 m⟩
    rw [hmap, List.append_nil]
    exact .last m hcmd.1

theorem parsepipe_sound (ih : Sound line n) (hi : At line i)
    (hn : 4 * (rest line i).length + 3 ≤ n + 1) :
    Parses line i (Phrased line .pipe) (parsepipe (line ++ [0]) line.length (n + 1) i) := by
  simp only [parsepipe]
  refine (ih.ofExec i hi (by omega)).bind fun cmd j pre hj hpre hcmd => ?_
  have hlen : (rest line i).length = pre.length + (rest line j).length := by
    rw [hpre, List.length_append]
  refine Parses.peeked h0 mem_bar hj
    (A := fun i => parsepipe (line ++ [0]) line.length n i >>= fun x => .ok (.pipe cmd x.1, x.2))
    (B := fun i => .ok (cmd, i)) (fun l hl hbar => ?_) fun l hl hrest _ => ?_
  · have hlen' : (rest line j).length = (rest line l).length + 1 := by rw [hbar]; rfl
    refine (ih.ofPipe l hl (by omega)).bind fun right e post he hpost hright => ?_
    refine .ok [] he rfl ⟨?_, hcmd.2, hright.2⟩
    simp only [Cmd.map, List.append_nil]
    exact .pipe hcmd.1 hright.1
  · refine .ok [] hl rfl ⟨?_, hcmd.2⟩
    rw [List.append_nil]
    exact .one hcmd.1

theorem parseexec_sound (ih : Sound line n) (hi : At line i)
    (hn : 4 * (rest line i).length + 2 ≤ n + 1) :
    Parses line i (Phrased line .exec) (parseexec (line ++ [0]) line.length (n + 1) i) := by
  obtain ⟨j, hpeek, hj, hrest⟩ :=
    peek_eq h0 hi (by simp) (contains_one mem_lpar)
  simp only [parseexec, hpeek, ok_bind]
  refine Parses.of_rest ?_ hrest
  rw [← hrest] at hn
  cases (rest line i).head?.any fun t => decide (t = .lpar) with
  | true => exact ih.ofBlock j hj (by omega)
  | false =>
    refine (parseredirs_sound h0 hj (by omega) []).bind fun rs k pre hk hpre hrs => ?_
    have hlen : (rest line j).length = pre.length + (rest line k).length := by
      rw [hpre, List.length_append]
    refine (parseargs_sound h0 hk (by omega) (by decide) rs).bind fun res l post hl hpost hargs => ?_
    obtain ⟨new, ops, rfl, rfl, hmap, hfits⟩ := hrs.added
    obtain ⟨words, new', args, rfl, rfl, hwords, hmap', hmax, hfits', hfits''⟩ := hargs.added
    rw [List.nil_append] at hmax
    simp only [List.nil_append, store, if_pos hmax, ok_bind]
    refine .ok [] hl rfl ⟨?_, valid_wrap _ ⟨hmax, hfits'⟩ fun r hr => ?_⟩
    · have hargc : args.length < MAXARGS := by
        rw [← List.length_map (f := Prod.fst), ← hwords, List.length_map]
        exact hmax
      rw [map_wrap, List.map_append, hmap, hmap', ← List.map_append, List.append_nil, Cmd.map, hwords]
      exact .exec ops args hargc
    · exact (List.mem_append.mp hr).elim (hfits r) (hfits'' r)

theorem parseblock_sound (ih : Sound line n) (hi : At line i)
    (hn : 4 * (rest line i).length + 1 ≤ n + 1) :
    Parses line i (Phrased line .exec) (parseblock (line ++ [0]) line.length (n + 1) i) := by
  simp only [parseblock]
  refine Parses.peeked h0 mem_lpar hi
    (A := fun i => parseline (line ++ [0]) line.length n i >>= fun x =>
      peek (line ++ [0]) line.length x.2 (chars [')']) >>= fun y =>
        if y.1 then gettoken (line ++ [0]) line.length y.2 >>= fun z =>
          parseredirs (line ++ [0]) line.length n [] z.2.2 >>= fun rs => .ok (wrap x.1 rs.1, rs.2)
        else .error (.panic "syntax - missing )"))
    (B := fun _ => .error (.panic "parseblock")) (fun j hj hlpar => ?_) fun _ _ _ _ => .panic _
  have hlen : (rest line i).length = (rest line j).length + 1 := by rw [hlpar]; rfl
  refine (ih.ofLine j hj (by omega)).bind fun cmd k pre hk hpre hcmd => ?_
  have hlen' : (rest line j).length = pre.length + (rest line k).length := by
    rw [hpre, List.length_append]
  refine Parses.peeked h0 mem_rpar hk
    (A := fun i => parseredirs (line ++ [0]) line.length n [] i >>= fun rs =>
      .ok (wrap cmd rs.1, rs.2))
    (B := fun _ => .error (.panic "syntax - missing )")) (fun l hl hrpar => ?_)
    fun _ _ _ _ => .panic _
  have hlen'' : (rest line k).length = (rest line l).length + 1 := by rw [hrpar]; rfl
  refine (parseredirs_sound h0 hl (by omega) []).bind fun rs e post he hpost hrs => ?_
  obtain ⟨new, ops, rfl, rfl, hmap, hfits⟩ := hrs.added
  refine .ok [] he rfl ⟨?_, valid_wrap _ hcmd.2 hfits⟩
  simp only [map_wrap, hmap, List.append_nil]
  exact .block ops hcmd.1

theorem sound (n : Nat) : Sound line n := by
  induction n with
  | zero =>
    exact ⟨fun _ _ h => absurd h (by omega), fun _ _ h => absurd h (by omega),
      fun _ _ h => absurd h (by omega), fun _ _ h => absurd h (by omega)⟩
  | succ n ih =>
    exact ⟨fun _ => parseline_sound h0 ih, fun _ => parsepipe_sound h0 ih,
      fun _ => parseexec_sound h0 ih, fun _ => parseblock_sound h0 ih⟩

end Soundness

end Chameleon.Shell
