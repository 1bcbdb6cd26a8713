import Chameleon.User.Sound

/-! What the grammar derives, the functions of the parser return. -/

namespace Chameleon.Shell

section Completeness
variable {line : List UInt8} {i n : Nat} {α β : Type}

/-- A parse succeeds, stops before the tokens `us` and returns something with `Q`. -/
def Reads (line : List UInt8) (us : List Token) (Q : α → Prop) (x : Except Err (α × Nat)) : Prop :=
  ∃ a j, x = .ok (a, j) ∧ At line j ∧ rest line j = us ∧ Q a

theorem Reads.bind {us vs : List Token} {Q : α → Prop} {R : β → Prop} {x : Except Err (α × Nat)}
    {f : α × Nat → Except Err (β × Nat)} (hx : Reads line us Q x)
    (hf : ∀ a j, At line j → rest line j = us → Q a → Reads line vs R (f (a, j))) :
    Reads line vs R (x >>= f) := by
  obtain ⟨a, j, rfl, hj, hrest, hQ⟩ := hx
  exact hf a j hj hrest hQ

theorem Reads.ret {us : List Token} {Q : α → Prop} {a : α} (hi : At line i)
    (h : rest line i = us) (hQ : Q a) : Reads line us Q (.ok (a, i)) :=
  ⟨a, i, rfl, hi, h, hQ⟩

variable (h0 : (0 : UInt8) ∉ line)
include h0

theorem Reads.peeked {us vs : List Token} {Q : α → Prop} {c : Char} {t₀ : Token}
    (hc : (c, t₀) ∈ marks) (hi : At line i) (h : rest line i = t₀ :: us) {A B : Nat → Except Err (α × Nat)}
    (hA : ∀ k, At line k → rest line k = us → Reads line vs Q (A k)) :
    Reads line vs Q (peek (line ++ [0]) line.length i (chars [c]) >>= fun x =>
      if x.1 then gettoken (line ++ [0]) line.length x.2 >>= fun y => A y.2.2 else B x.2) := by
  obtain ⟨j, hpeek, hj, hrest⟩ := peek_eq h0 hi (mem_symbols hc) (contains_one hc)
  obtain ⟨sp, k, hget, hk, hrest', -⟩ := gettoken_cons h0 hj (hrest.trans h)
  simp only [hpeek, h, ok_bind, List.head?_cons, Option.any_some, decide_true, if_true, hget]
  exact hA k hk hrest'

theorem Reads.unpeeked {vs : List Token} {Q : α → Prop} {c : Char} {t₀ : Token}
    (hc : (c, t₀) ∈ marks) (hi : At line i) (h : (rest line i).head? ≠ some t₀) {A B : Nat → Except Err (α × Nat)}
    (hB : ∀ j, At line j → rest line j = rest line i → Reads line vs Q (B j)) :
    Reads line vs Q (peek (line ++ [0]) line.length i (chars [c]) >>= fun x =>
      if x.1 then gettoken (line ++ [0]) line.length x.2 >>= fun y => A y.2.2 else B x.2) := by
  obtain ⟨j, hpeek, hj, hrest⟩ := peek_eq h0 hi (mem_symbols hc) (contains_one hc)
  have hno : ((rest line i).head?.any fun t => decide (t = t₀)) = false := by
    cases hts : (rest line i).head? with
    | none => rfl
    | some t =>
      rw [hts] at h
      simpa using fun ht => h (congrArg some ht)
  simp only [hpeek, hno, ok_bind, Bool.false_eq_true, if_false]
  exact hB j hj hrest

omit h0 in
theorem length_redirTokens (ops : List (Op × Word)) :
    (redirTokens ops).length = 2 * ops.length := by
  induction ops with
  | nil => rfl
  | cons r ops ih =>
    have hcons : redirTokens (r :: ops) = .redir r.1 :: .word r.2 :: redirTokens ops := rfl
    rw [hcons, List.length_cons, List.length_cons, List.length_cons, ih]
    omega

theorem parseredirs_complete {us : List Token} {ops : List (Op × Word)} (hi : At line i)
    (h : rest line i = redirTokens ops ++ us) (hus : us.head?.any Token.isRedir = false)
    (hn : ops.length < n) (rs : List (Redir Span)) :
    Reads line us (fun rs' => ∃ new, rs' = rs ++ new ∧
      new.map (Redir.map (text line)) = ops.map Op.redir)
      (parseredirs (line ++ [0]) line.length n rs i) := by
  induction ops generalizing n i rs with
  | nil =>
    obtain ⟨n, rfl⟩ := Nat.exists_eq_add_of_lt hn
    obtain ⟨j, hpeek, hj, hrest⟩ := peek_eq h0 hi (by simp) contains_redirs
    have h' : rest line i = us := h
    simp only [parseredirs, hpeek, h', hus, ok_bind]
    exact .ret hj (hrest.trans h') ⟨[], by simp, rfl⟩
  | cons r ops ih =>
    obtain ⟨op, w⟩ := r
    obtain ⟨n, rfl⟩ : ∃ m, n = m + 1 := ⟨n - 1, by omega⟩
    obtain ⟨j, hpeek, hj, hrest⟩ := peek_eq h0 hi (by simp) contains_redirs
    have h' : rest line i = .redir op :: .word w :: (redirTokens ops ++ us) := h
    obtain ⟨sp, k, hget, hk, hrest', -⟩ := gettoken_cons h0 hj (hrest.trans h')
    obtain ⟨sp', l, hget', hl, hrest'', hfits⟩ := gettoken_cons h0 hk hrest'
    have htext : text line sp' = w := (hfits w rfl).text
    simp only [parseredirs, hpeek, h', ok_bind, List.head?_cons, Option.any_some, Token.isRedir,
      if_true, hget, hget']
    rw [if_neg (by simp [Token.code]), redircmd_code]
    obtain ⟨rs', e, hres, he, hus', new, rfl, hmap⟩ := ih hl hrest'' (by simpa using hn) _
    refine ⟨_, e, hres, he, hus', Op.redir (op, sp') :: new, by simp, ?_⟩
    rw [List.map_cons, List.map_cons, hmap]
    congr 1
    cases op <;> simp [Op.redir, Redir.map, htext]

theorem parsebacks_complete {us : List Token} {k : Nat} (hi : At line i)
    (h : rest line i = List.replicate k .amp ++ us) (hus : us.head? ≠ some .amp) (hn : k < n)
    (cmd : Cmd Span) :
    Reads line us (fun cmd' => cmd' = Cmd.back^[k] cmd)
      (parsebacks (line ++ [0]) line.length n cmd i) := by
  induction k generalizing n i cmd with
  | zero =>
    obtain ⟨n, rfl⟩ : ∃ m, n = m + 1 := ⟨n - 1, by omega⟩
    have h' : rest line i = us := h
    refine Reads.unpeeked h0 mem_amp hi (h' ▸ hus)
      (A := fun i => parsebacks (line ++ [0]) line.length n (.back cmd) i)
      (B := fun i => .ok (cmd, i)) fun j hj hrest => .ret hj (hrest.trans h') rfl
  | succ k ih =>
    obtain ⟨n, rfl⟩ : ∃ m, n = m + 1 := ⟨n - 1, by omega⟩
    have h' : rest line i = .amp :: (List.replicate k .amp ++ us) := h
    refine Reads.peeked h0 mem_amp hi h' (A := fun i => parsebacks (line ++ [0]) line.length n (.back cmd) i)
      (B := fun i => .ok (cmd, i)) fun j hj hrest => ?_
    exact ih hj hrest (by omega) (.back cmd)

omit h0 in
theorem head_args {us : List Token} (hus : ∀ t ∈ us.head?, t.stops = true)
    (args : List (Word × List (Op × Word))) :
    (argTokens args ++ us).head?.any Token.isRedir = false := by
  cases args with
  | cons a args => rfl
  | nil =>
    cases us with
    | nil => rfl
    | cons t us =>
      have ht := hus t rfl
      cases t with
      | redir op => cases ht
      | _ => rfl

theorem parseargs_complete {us : List Token} {args : List (Word × List (Op × Word))}
    (hi : At line i) (h : rest line i = argTokens args ++ us)
    (hus : ∀ t ∈ us.head?, t.stops = true) (hn : (argTokens args).length < n)
    {argv : List Span} (hmax : argv.length + args.length < MAXARGS) (rs : List (Redir Span)) :
    Reads line us (fun res => ∃ words new, res = (argv ++ words, rs ++ new) ∧
      words.map (text line) = args.map Prod.fst ∧
      new.map (Redir.map (text line)) = (args.flatMap Prod.snd).map Op.redir)
      (parseargs (line ++ [0]) line.length n argv rs i) := by
  induction args generalizing n i argv rs with
  | nil =>
    obtain ⟨n, rfl⟩ : ∃ m, n = m + 1 := ⟨n - 1, by omega⟩
    obtain ⟨j, hpeek, hj, hrest⟩ := peek_eq h0 hi (by simp) contains_stops
    have h' : rest line i = us := h
    simp only [parseargs, hpeek, h', ok_bind]
    cases us with
    | nil =>
      obtain ⟨sp, hget⟩ := gettoken_nil hj (hrest.trans h')
      simp only [List.head?_nil, Option.any_none, Bool.false_eq_true, if_false, hget, ok_bind,
        if_true]
      exact .ret (at_end line) (by simp [rest, tokens]) ⟨[], [], by simp, rfl, rfl⟩
    | cons t us =>
      simp only [List.head?_cons, Option.any_some, hus t rfl, if_true]
      exact .ret hj (hrest.trans h') ⟨[], [], by simp, rfl, rfl⟩
  | cons a args ih =>
    obtain ⟨w, ops⟩ := a
    obtain ⟨n, rfl⟩ : ∃ m, n = m + 1 := ⟨n - 1, by omega⟩
    obtain ⟨j, hpeek, hj, hrest⟩ := peek_eq h0 hi (by simp) contains_stops
    have h' : rest line i = .word w :: (redirTokens ops ++ (argTokens args ++ us)) := by
      rw [h]
      simp [argTokens]
    obtain ⟨sp, k, hget, hk, hrest', hfits⟩ := gettoken_cons h0 hj (hrest.trans h')
    have htext : text line sp = w := (hfits w rfl).text
    have hargc : argv.length < MAXARGS := by omega
    have hmore : ¬ MAXARGS ≤ argv.length + 1 := by
      simp only [List.length_cons] at hmax
      omega
    simp only [parseargs, hpeek, h', ok_bind, List.head?_cons, Option.any_some, Token.stops,
      Bool.false_eq_true, if_false, hget, if_neg (code_ne_zero _)]
    rw [if_neg (by simp [Token.code])]
    simp only [store, if_pos hargc, ok_bind, if_neg hmore]
    have hlen : ops.length + (argTokens args).length < n := by
      have hcons : (argTokens ((w, ops) :: args)).length =
          (redirTokens ops).length + (argTokens args).length + 1 := by
        simp [argTokens]
      have hops := length_redirTokens ops
      omega
    have hhead := head_args hus args
    refine (parseredirs_complete h0 hk hrest' hhead (by omega) rs).bind
      fun rs' l hl hrest'' hrs => ?_
    obtain ⟨new₁, rfl, hmap₁⟩ := hrs
    have hmax' : (argv ++ [sp]).length + args.length < MAXARGS := by
      simp only [List.length_append, List.length_cons, List.length_nil] at hmax ⊢
      omega
    obtain ⟨res, e, hres, he, hus', words, new, rfl, hwords, hmap⟩ :=
      ih hl hrest'' (n := n) (by omega) hmax' (rs ++ new₁)
    refine ⟨_, e, hres, he, hus', sp :: words, new₁ ++ new, by simp, ?_, ?_⟩
    · rw [List.map_cons, List.map_cons, hwords, htext]
    · rw [List.map_append, hmap₁, hmap, List.flatMap_cons, List.map_append]

/-- What may come behind a phrase. -/
def Follow : Phrase → List Token → Prop
  | .line, us => ∀ t ∈ us.head?, t = .rpar
  | .pipe, us => ∀ t ∈ us.head?, t = .rpar ∨ t = .amp ∨ t = .semi
  | .exec, us => ∀ t ∈ us.head?, t.stops = true

/-- The function that reads a phrase, and the fuel it needs besides what the tokens need. -/
def parse (line : List UInt8) : Phrase → Nat → Nat → Except Err (Cmd Span × Nat)
  | .line => parseline (line ++ [0]) line.length
  | .pipe => parsepipe (line ++ [0]) line.length
  | .exec => parseexec (line ++ [0]) line.length

def need : Phrase → Nat
  | .line => 4
  | .pipe => 3
  | .exec => 2

omit h0 in
theorem follow_amps {us : List Token} (hus : Follow .pipe us) (k : Nat) :
    Follow .pipe (List.replicate k .amp ++ us) := by
  cases k with
  | zero => exact hus
  | succ k =>
    rintro t ht
    obtain rfl : Token.amp = t := Option.some.inj ht
    exact .inr (.inl rfl)

theorem parseline_complete {ts us : List Token} {c : Cmd Word} {k m : Nat}
    (ih : ∀ {i n us}, At line i → rest line i = ts ++ us → Follow .pipe us →
      4 * (rest line i).length + need .pipe ≤ n →
      Reads line us (fun cmd => cmd.map (text line) = c) (parse line .pipe n i))
    (hi : At line i) (h : rest line i = ts ++ (List.replicate k .amp ++ us))
    (hus : Follow .pipe us) (hamp : us.head? ≠ some .amp) (hn : 4 * (rest line i).length + 4 ≤ m + 1)
    {α : Type} {vs : List Token} {Q : α → Prop} {f : Cmd Span × Nat → Except Err (α × Nat)}
    (hf : ∀ cmd j, At line j → rest line j = us →
      cmd.map (text line) = Cmd.back^[k] c → Reads line vs Q (f (cmd, j))) :
    Reads line vs Q (parsepipe (line ++ [0]) line.length m i >>= fun x =>
      parsebacks (line ++ [0]) line.length m x.1 x.2 >>= f) := by
  have hlen : (rest line i).length = ts.length + (k + us.length) := by
    rw [h, List.length_append, List.length_append, List.length_replicate]
  refine (ih hi h (follow_amps hus k) (by simp only [need]; omega)).bind fun cmd j hj hrest hcmd => ?_
  refine (parsebacks_complete h0 hj hrest hamp (by omega) cmd).bind fun cmd' l hl hrest' hcmd' => ?_
  subst hcmd'
  exact hf _ l hl hrest' (by rw [map_backs, hcmd])

theorem complete {p : Phrase} {ts : List Token} {c : Cmd Word} (h : Derives p ts c) :
    ∀ {i n us}, At line i → rest line i = ts ++ us → Follow p us →
      4 * (rest line i).length + need p ≤ n →
      Reads line us (fun cmd => cmd.map (text line) = c) (parse line p n i) := by
  -- By induction on the derivation. `need` is the fuel that a phrase takes besides that for its tokens.
  induction h with
  | @last ts c k h ih =>
    intro i n us hi hrest hus hn
    obtain ⟨n, rfl⟩ : ∃ m, n = m + 1 := ⟨n - 1, by simp only [need] at hn; omega⟩
    have hpipe : Follow .pipe us := fun t ht => .inl (hus t ht)
    have hno : ∀ t, t ≠ .rpar → us.head? ≠ some t := fun t hne ht => hne (hus t ht)
    simp only [parse, parseline]
    refine parseline_complete h0 ih hi (by rw [hrest, List.append_assoc]) hpipe (hno _ (by simp))
      hn fun cmd j hj hrest' hcmd => ?_
    refine Reads.unpeeked h0 mem_semi hj (by rw [hrest']; exact hno _ (by simp))
      (A := fun i => parseline (line ++ [0]) line.length n i >>= fun x => .ok (.list cmd x.1, x.2))
      (B := fun i => .ok (cmd, i)) fun l hl hrest'' => ?_
    exact .ret hl (hrest''.trans hrest') hcmd
  | @list ts c vs d k h h' ih ih' =>
    intro i n us hi hrest hus hn
    obtain ⟨n, rfl⟩ : ∃ m, n = m + 1 := ⟨n - 1, by simp only [need] at hn; omega⟩
    have hrest₁ : rest line i = ts ++ (List.replicate k .amp ++ .semi :: (vs ++ us)) := by
      rw [hrest]
      simp
    have hpipe : Follow .pipe (.semi :: (vs ++ us)) := fun t ht => by
      obtain rfl : Token.semi = t := Option.some.inj ht
      exact .inr (.inr rfl)
    simp only [parse, parseline]
    refine parseline_complete h0 ih hi hrest₁ hpipe (by simp) hn fun cmd j hj hrest' hcmd => ?_
    refine Reads.peeked h0 mem_semi hj hrest'
      (A := fun i => parseline (line ++ [0]) line.length n i >>= fun x => .ok (.list cmd x.1, x.2))
      (B := fun i => .ok (cmd, i)) fun l hl hrest'' => ?_
    have hlen : (rest line l).length + 1 ≤ (rest line i).length := by
      rw [hrest'', hrest₁]
      simp
      omega
    refine (ih' hl hrest'' hus (by simp only [need] at hn ⊢; omega)).bind fun right e he hrest₃ hr => ?_
    exact .ret he hrest₃ (by simp only [Cmd.map, hcmd, hr])
  | @one ts c h ih =>
    intro i n us hi hrest hus hn
    obtain ⟨n, rfl⟩ : ∃ m, n = m + 1 := ⟨n - 1, by simp only [need] at hn; omega⟩
    have hexec : Follow .exec us := fun t ht => by
      rcases hus t ht with rfl | rfl | rfl <;> rfl
    simp only [parse, parsepipe]
    refine (ih hi hrest hexec (by simp only [need] at hn ⊢; omega)).bind fun cmd j hj hrest' hcmd => ?_
    refine Reads.unpeeked h0 mem_bar hj (fun hb => ?_)
      (A := fun i => parsepipe (line ++ [0]) line.length n i >>= fun x => .ok (.pipe cmd x.1, x.2))
      (B := fun i => .ok (cmd, i)) fun l hl hrest'' => ?_
    · rw [hrest'] at hb
      simpa using hus _ hb
    · exact .ret hl (hrest''.trans hrest') hcmd
  | @pipe ts c vs d h h' ih ih' =>
    intro i n us hi hrest hus hn
    obtain ⟨n, rfl⟩ : ∃ m, n = m + 1 := ⟨n - 1, by simp only [need] at hn; omega⟩
    have hrest₁ : rest line i = ts ++ .bar :: (vs ++ us) := by
      rw [hrest]
      simp
    have hexec : Follow .exec (.bar :: (vs ++ us)) := fun t ht => by
      obtain rfl : Token.bar = t := Option.some.inj ht
      rfl
    simp only [parse, parsepipe]
    refine (ih hi hrest₁ hexec (by simp only [need] at hn ⊢; omega)).bind fun cmd j hj hrest' hcmd => ?_
    refine Reads.peeked h0 mem_bar hj hrest'
      (A := fun i => parsepipe (line ++ [0]) line.length n i >>= fun x => .ok (.pipe cmd x.1, x.2))
      (B := fun i => .ok (cmd, i)) fun l hl hrest'' => ?_
    have hlen : (rest line l).length + 1 ≤ (rest line i).length := by
      rw [hrest'', hrest₁]
      simp
    refine (ih' hl hrest'' hus (by simp only [need] at hn ⊢; omega)).bind fun right e he hrest₃ hr => ?_
    exact .ret he hrest₃ (by simp only [Cmd.map, hcmd, hr])
  | @block ts c ops h ih =>
    intro i n us hi hrest hus hn
    obtain ⟨n, rfl⟩ : ∃ m, n = m + 2 := ⟨n - 2, by simp only [need] at hn; omega⟩
    have hrest₁ : rest line i = .lpar :: (ts ++ .rpar :: (redirTokens ops ++ us)) := by
      rw [hrest]
      simp
    obtain ⟨i', hpeek, hi', hsame⟩ := peek_eq h0 hi (by simp) (contains_one mem_lpar)
    simp only [parse, parseexec, hpeek, hrest₁, ok_bind, List.head?_cons, Option.any_some,
      decide_true, if_true, parseblock]
    refine Reads.peeked h0 mem_lpar hi' (hsame.trans hrest₁)
      (A := fun i => parseline (line ++ [0]) line.length n i >>= fun x =>
        peek (line ++ [0]) line.length x.2 (chars [')']) >>= fun y =>
          if y.1 then gettoken (line ++ [0]) line.length y.2 >>= fun z =>
            parseredirs (line ++ [0]) line.length n [] z.2.2 >>= fun rs => .ok (wrap x.1 rs.1, rs.2)
          else .error (.panic "syntax - missing )"))
      (B := fun _ => .error (.panic "parseblock")) fun j hj hrest' => ?_
    have hlen : (rest line i).length = (rest line j).length + 1 := by
      rw [hrest₁, hrest']
      rfl
    have hlen' : (rest line j).length = ts.length + (2 * ops.length + us.length + 1) := by
      rw [hrest', List.length_append, List.length_cons, List.length_append, length_redirTokens]
    have hline : Follow .line (.rpar :: (redirTokens ops ++ us)) := fun t ht => by
      obtain rfl : Token.rpar = t := Option.some.inj ht
      rfl
    refine (ih hj hrest' hline (by simp only [need] at hn ⊢; omega)).bind fun cmd k hk hrest'' hcmd => ?_
    refine Reads.peeked h0 mem_rpar hk hrest''
      (A := fun i => parseredirs (line ++ [0]) line.length n [] i >>= fun rs =>
        .ok (wrap cmd rs.1, rs.2))
      (B := fun _ => .error (.panic "syntax - missing )")) fun l hl hrest₃ => ?_
    refine (parseredirs_complete h0 hl hrest₃ (head_args hus []) (by simp only [need] at hn; omega)
      []).bind fun rs e he hrest₄ hrs => ?_
    obtain ⟨new, rfl, hmap⟩ := hrs
    refine .ret he hrest₄ ?_
    simp only [map_wrap, hcmd, hmap]
  | exec ops args hmax =>
    intro i n us hi hrest hus hn
    obtain ⟨n, rfl⟩ : ∃ m, n = m + 1 := ⟨n - 1, by simp only [need] at hn; omega⟩
    rw [List.append_assoc] at hrest
    obtain ⟨i', hpeek, hi', hsame⟩ := peek_eq h0 hi (by simp) (contains_one mem_lpar)
    -- An empty command may be followed by what `Follow` allows, which is no `(`.
    have hno : ((rest line i).head?.any fun t => decide (t = .lpar)) = false := by
      rw [hrest]
      cases ops with
      | cons r ops => rfl
      | nil =>
        cases args with
        | cons a args => rfl
        | nil =>
          cases us with
          | nil => rfl
          | cons t us =>
            have ht := hus t rfl
            cases t with
            | lpar => cases ht
            | _ => rfl
    have hlen : (rest line i).length = 2 * ops.length + ((argTokens args).length + us.length) := by
      rw [hrest, List.length_append, List.length_append, length_redirTokens]
    simp only [parse, parseexec, hpeek, hno, ok_bind, Bool.false_eq_true, if_false]
    refine (parseredirs_complete h0 hi' (hsame.trans hrest) (head_args hus args)
      (by simp only [need] at hn; omega) []).bind fun rs j hj hrest' hrs => ?_
    obtain ⟨new, rfl, hmap⟩ := hrs
    have hmax' : ([] : List Span).length + args.length < MAXARGS := by simpa using hmax
    refine (parseargs_complete h0 hj hrest' hus (n := n) (by simp only [need] at hn; omega) hmax'
      _).bind fun res k hk hrest'' hres => ?_
    obtain ⟨words, new', rfl, hwords, hmap'⟩ := hres
    have hargc : words.length < MAXARGS := by
      rw [← List.length_map (f := text line), hwords, List.length_map]
      exact hmax
    simp only [List.nil_append, store, if_pos hargc, ok_bind]
    refine .ret hk hrest'' ?_
    rw [map_wrap, List.map_append, hmap, hmap', ← List.map_append, Cmd.map, hwords]

end Completeness

end Chameleon.Shell
