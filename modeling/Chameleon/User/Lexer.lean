import Mathlib.Data.List.Infix
import Chameleon.User.Grammar

/-! `gettoken` and `peek` against the tokens of the rest of the line. -/

namespace Chameleon.Shell

@[simp] theorem ok_bind {α β : Type} (a : α) (f : α → Except Err β) :
    (Except.ok a >>= f) = f a := rfl

@[simp] theorem error_bind {α β : Type} (e : Err) (f : α → Except Err β) :
    (Except.error e >>= f) = Except.error e := rfl

/-! ### Tokens of a list of bytes -/

theorem tokens_space {c : UInt8} {cs : List UInt8} (h : isSpace c = true) :
    tokens (c :: cs) = tokens cs := by
  rw [tokens.eq_def]
  exact if_pos h

theorem tokens_dropWhile (l : List UInt8) : tokens (l.dropWhile isSpace) = tokens l := by
  induction l with
  | nil => rfl
  | cons c cs ih =>
    cases h : isSpace c with
    | true => rw [List.dropWhile_cons_of_pos h, ih, tokens_space h]
    | false => rw [List.dropWhile_cons_of_neg (by simp [h])]

theorem isSpace_of_isWord {c : UInt8} (h : isWord c = true) : isSpace c = false := by
  simp only [isWord, Bool.and_eq_true, Bool.not_eq_true'] at h
  exact h.1

/-- A byte is a space, a symbol or part of a word. -/
theorem ofSymbol_of_isWord {c : UInt8} (h : isWord c = true) :
    c ≠ Char.toUInt8 '>' ∧ Token.ofSymbol c = none := by
  simp only [isWord, Bool.and_eq_true, Bool.not_eq_true'] at h
  have hsym : c ∉ symbols := by simpa using h.2
  have hne : ∀ d ∈ symbols, c ≠ d := fun d hd he => hsym (he ▸ hd)
  refine ⟨hne _ (by decide), ?_⟩
  unfold Token.ofSymbol
  rw [if_neg (hne _ (by decide)), if_neg (hne _ (by decide)), if_neg (hne _ (by decide)),
    if_neg (hne _ (by decide)), if_neg (hne _ (by decide)), if_neg (hne _ (by decide))]

theorem isWord_of_ofSymbol {c : UInt8} (hs : isSpace c = false) (hgt : c ≠ Char.toUInt8 '>')
    (h : Token.ofSymbol c = none) : isWord c = true := by
  unfold Token.ofSymbol at h
  split_ifs at h with h₁ h₂ h₃ h₄ h₅ h₆
  have hsym : c ∉ symbols := by
    have hlist : symbols = [Char.toUInt8 '<', Char.toUInt8 '|', Char.toUInt8 '>',
      Char.toUInt8 '&', Char.toUInt8 ';', Char.toUInt8 '(', Char.toUInt8 ')'] := by decide
    simp [hlist, h₁, h₂, h₃, h₄, h₅, h₆, hgt]
  unfold isSpace at hs
  simp only [isWord, hs]
  simpa using hsym

theorem tokens_symbol {c : UInt8} {t : Token} {cs : List UInt8} (hs : isSpace c = false)
    (hgt : c ≠ Char.toUInt8 '>') (h : Token.ofSymbol c = some t) :
    tokens (c :: cs) = t :: tokens cs := by
  rw [tokens.eq_def]
  simp only [hs, Bool.false_eq_true, if_false, if_neg hgt, h]

theorem tokens_word {c : UInt8} {cs : List UInt8} (h : isWord c = true) :
    tokens (c :: cs) =
      .word (c :: cs.takeWhile isWord) :: tokens (cs.dropWhile isWord) := by
  obtain ⟨hgt, hsym⟩ := ofSymbol_of_isWord h
  have hs := isSpace_of_isWord h
  induction cs generalizing c with
  | nil =>
    rw [tokens.eq_def]
    simp only [hs, Bool.false_eq_true, if_false, if_neg hgt, hsym]
    rfl
  | cons d ds ih =>
    rw [tokens.eq_def]
    simp only [hs, Bool.false_eq_true, if_false, if_neg hgt, hsym]
    cases hd : isWord d with
    | true =>
      obtain ⟨hgt', hsym'⟩ := ofSymbol_of_isWord hd
      rw [if_pos rfl, ih hd hgt' hsym' (isSpace_of_isWord hd), List.takeWhile_cons_of_pos hd,
        List.dropWhile_cons_of_pos hd]
      rfl
    | false =>
      rw [if_neg (by simp), List.takeWhile_cons_of_neg (by simp [hd]),
        List.dropWhile_cons_of_neg (by simp [hd])]

theorem tokens_ne_nil {c : UInt8} {cs : List UInt8} (hs : isSpace c = false) :
    tokens (c :: cs) ≠ [] := by
  by_cases hgt : c = Char.toUInt8 '>'
  · rw [tokens.eq_def]
    simp only [hs, Bool.false_eq_true, if_false, if_pos hgt]
    cases cs with
    | nil => simp
    | cons d ds => dsimp only; split_ifs <;> simp
  · cases hsym : Token.ofSymbol c with
    | some t => simp [tokens_symbol hs hgt hsym]
    | none => simp [tokens_word (isWord_of_ofSymbol hs hgt hsym)]

/-! ### The pointer level -/

section Line
variable {line : List UInt8} {i : Nat}

/-- The tokens from an index on. -/
abbrev rest (line : List UInt8) (i : Nat) : List Token := tokens (line.drop i)

theorem deref_eq (hi : i ≤ line.length) :
    deref (line ++ [0]) i = .ok ((line.drop i).headD 0) := by
  unfold deref
  rcases Nat.lt_or_eq_of_le hi with hlt | rfl
  · rw [List.getElem?_append_left hlt, List.getElem?_eq_getElem hlt,
      List.drop_eq_getElem_cons hlt]
    rfl
  · simp

theorem advance_eq (p : UInt8 → Bool) (k i : Nat) (hk : i + k = line.length) :
    advance p (line ++ [0]) k i = .ok (i + ((line.drop i).takeWhile p).length) := by
  induction k generalizing i with
  | zero =>
    obtain rfl : i = line.length := hk
    simp [advance]
  | succ k ih =>
    have hlt : i < line.length := by omega
    have hdrop := List.drop_eq_getElem_cons hlt
    simp only [advance, deref_eq hlt.le, hdrop, List.headD_cons, ok_bind]
    cases hp : p (line)[i] with
    | true =>
      rw [if_pos rfl, List.takeWhile_cons_of_pos hp, List.length_cons, ih (i + 1) (by omega)]
      congr 1
      omega
    | false =>
      rw [if_neg (by simp), List.takeWhile_cons_of_neg (by simp [hp])]
      rfl

theorem drop_takeWhile (p : UInt8 → Bool) (l : List UInt8) :
    l.drop (l.takeWhile p).length = l.dropWhile p := by
  induction l with
  | nil => rfl
  | cons c cs ih =>
    cases h : p c with
    | true => simpa [h] using ih
    | false => simp [h]

theorem advance_spec (p : UInt8 → Bool) (hi : i ≤ line.length) :
    ∃ j, advance p (line ++ [0]) (line.length - i) i = .ok j ∧ i ≤ j ∧ j ≤ line.length ∧
      line.drop j = (line.drop i).dropWhile p ∧
      (line.drop i).take (j - i) = (line.drop i).takeWhile p := by
  have hlen : ((line.drop i).takeWhile p).length ≤ line.length - i := by
    rw [← List.length_drop]
    exact (List.takeWhile_sublist p).length_le
  refine ⟨_, advance_eq p _ i (by omega), by omega, by omega, ?_, ?_⟩
  · rw [← List.drop_drop, drop_takeWhile]
  · rw [Nat.add_sub_cancel_left]
    exact (List.prefix_iff_eq_take.mp (List.takeWhile_prefix p)).symm

/-- A place in the line that is not inside a word. -/
def At (line : List UInt8) (i : Nat) : Prop :=
  i ≤ line.length ∧ ((line.take i).getLast?.any isWord && (line.drop i).head?.any isWord) = false

theorem at_zero (line : List UInt8) : At line 0 := ⟨Nat.zero_le _, by rw [List.take_zero]; rfl⟩

theorem at_of_head (hi : i ≤ line.length) (h : ∀ c ∈ (line.drop i).head?, isWord c = false) : At line i := by
  refine ⟨hi, ?_⟩
  cases hc : (line.drop i).head? with
  | none => exact Bool.and_false _
  | some c => rw [Option.any_some, h c hc, Bool.and_false]

theorem at_end (line : List UInt8) : At line line.length := at_of_head le_rfl (by simp)

/-- Behind a byte that is not of a word. -/
theorem at_succ {c : UInt8} {cs : List UInt8} (hr : line.drop i = c :: cs) (hc : isWord c = false) : At line (i + 1) := by
  have hlt : i < line.length := by
    by_contra hge
    rw [List.drop_eq_nil_of_le (Nat.not_lt.mp hge)] at hr
    cases hr
  obtain ⟨rfl, -⟩ := List.cons.inj ((List.drop_eq_getElem_cons hlt).symm.trans hr)
  refine ⟨hlt, ?_⟩
  rw [List.take_succ_eq_append_getElem hlt, List.getLast?_append, List.getLast?_singleton, Option.some_or, Option.any_some,
    hc, Bool.false_and]

/-- What the bytes between the ends of a token are. -/
structure Fits (line : List UInt8) (sp : Span) (w : Word) : Prop where
  first : At line sp.1
  le : sp.1 ≤ sp.2
  bound : sp.2 ≤ line.length
  text : (line.drop sp.1).take (sp.2 - sp.1) = w
  word : ∀ c ∈ w, isWord c = true
  stop : ∀ c, (line.drop sp.2).head? = some c → isWord c = false

/-- The value that `gettoken` returns for a token. -/
def Token.code : Token → UInt8
  | .redir .lt => Char.toUInt8 '<'
  | .redir .gt => Char.toUInt8 '>'
  | .redir .gtgt => Char.toUInt8 '+'
  | .bar => Char.toUInt8 '|'
  | .amp => Char.toUInt8 '&'
  | .semi => Char.toUInt8 ';'
  | .lpar => Char.toUInt8 '('
  | .rpar => Char.toUInt8 ')'
  | .word _ => Char.toUInt8 'a'

theorem code_ofSymbol {c : UInt8} {t : Token} (h : Token.ofSymbol c = some t) :
    t.code = c ∧ (∀ w, t ≠ .word w) ∧ c ∈ chars ['|', '(', ')', ';', '&', '<'] := by
  unfold Token.ofSymbol at h
  split_ifs at h with h₁ h₂ h₃ h₄ h₅ h₆ <;> cases h
  · subst h₁; exact ⟨rfl, by simp, by decide⟩
  · subst h₂; exact ⟨rfl, by simp, by decide⟩
  · subst h₃; exact ⟨rfl, by simp, by decide⟩
  · subst h₄; exact ⟨rfl, by simp, by decide⟩
  · subst h₅; exact ⟨rfl, by simp, by decide⟩
  · subst h₆; exact ⟨rfl, by simp, by decide⟩

theorem ofSymbol_eq_none {c : UInt8} (h : Token.ofSymbol c = none) :
    c ∉ chars ['|', '(', ')', ';', '&', '<'] := by
  unfold Token.ofSymbol at h
  split_ifs at h with h₁ h₂ h₃ h₄ h₅ h₆
  have hlist : chars ['|', '(', ')', ';', '&', '<'] = [Char.toUInt8 '|', Char.toUInt8 '(',
    Char.toUInt8 ')', Char.toUInt8 ';', Char.toUInt8 '&', Char.toUInt8 '<'] := rfl
  simp [hlist, h₁, h₂, h₃, h₄, h₅, h₆]

/-- The first byte of a token, where any byte stands for a word's. -/
def Token.mark : Token → UInt8
  | .redir .gtgt => Char.toUInt8 '>'
  | t => t.code

theorem skip_spec (hi : At line i) :
    ∃ q, advance isSpace (line ++ [0]) (line.length - i) i = .ok q ∧ At line q ∧
      rest line q = rest line i ∧ ∀ c ∈ (line.drop q).head?, isSpace c = false := by
  obtain ⟨q, hq, hlo, hle, hdrop, htake⟩ := advance_spec isSpace hi.1
  refine ⟨q, hq, ?_, ?_, fun c hc => ?_⟩
  · rcases Nat.eq_or_lt_of_le hlo with rfl | hlt
    · exact hi
    · obtain ⟨r, rfl⟩ := Nat.exists_eq_succ_of_ne_zero (Nat.ne_zero_of_lt hlt)
      have hmem : (line)[r] ∈ (line.drop i).takeWhile isSpace := by
        rw [← htake]
        refine List.mem_iff_getElem?.mpr ⟨r - i, ?_⟩
        rw [List.getElem?_take_of_lt (by omega), List.getElem?_drop, Nat.add_sub_of_le (Nat.le_of_lt_succ hlt),
          List.getElem?_eq_getElem hle]
      refine at_succ (List.drop_eq_getElem_cons hle) (Bool.eq_false_iff.mpr fun hw => ?_)
      have hspace := List.all_eq_true.mp List.all_takeWhile _ hmem
      rw [isSpace_of_isWord hw] at hspace
      cases hspace
  · rw [rest, hdrop, tokens_dropWhile]
  · rw [hdrop] at hc
    have hne : (line.drop i).dropWhile isSpace ≠ [] := fun he => by rw [he] at hc; cases hc
    have hhead := List.head_dropWhile_not isSpace hne
    rw [List.head?_eq_some_head hne, Option.mem_some_iff] at hc
    rwa [hc] at hhead

/-- What `lexeme` does at the first byte of a token. -/
def Lexed (line : List UInt8) (q : Nat) (c : UInt8) (t : Token) (ts : List Token) : Prop :=
  ∃ e, lexeme (line ++ [0]) line.length q = .ok (t.code, e) ∧ At line e ∧
    rest line e = ts ∧ (∀ w, t = .word w → Fits line (q, e) w) ∧
    (t.mark = c ∨ isWord c = true ∧ t.mark = Char.toUInt8 'a')

section Byte
variable {q : Nat} {c : UInt8} {cs : List UInt8} (hr : line.drop q = c :: cs)
include hr

theorem drop_succ : line.drop (q + 1) = cs := by
  rw [← List.drop_drop, hr]
  rfl

theorem lt_length : q < line.length := by
  by_contra hge
  rw [List.drop_eq_nil_of_le (by omega)] at hr
  cases hr

theorem deref_cons : deref (line ++ [0]) q = .ok c := by
  rw [deref_eq (lt_length hr).le, hr]
  rfl

variable (hc : c ≠ 0)
include hc

theorem lexed_symbol {t : Token} (h : Token.ofSymbol c = some t) :
    Lexed line q c t (tokens cs) := by
  obtain ⟨hcode, hword, hmem⟩ := code_ofSymbol h
  have hmark : t.mark = c := by
    unfold Token.ofSymbol at h
    split_ifs at h <;> cases h <;> exact hcode
  refine ⟨q + 1, ?_, at_succ hr ?_, ?_, fun w hw => absurd hw (hword w), .inl hmark⟩
  · simp only [lexeme, deref_cons hr, ok_bind, if_neg hc, List.contains_iff_mem.mpr hmem, if_true,
      hcode]
  · refine Bool.eq_false_iff.mpr fun hw => ?_
    rw [(ofSymbol_of_isWord hw).2] at h
    cases h
  · rw [rest, drop_succ hr]

theorem lexed_gt (h : c = Char.toUInt8 '>') :
    ∃ t ts, tokens (c :: cs) = t :: ts ∧ Lexed line q c t ts := by
  have hnot : (chars ['|', '(', ')', ';', '&', '<']).contains c = false := by subst h; decide
  have hspace : isSpace c = false := by subst h; decide
  have hd : deref (line ++ [0]) (q + 1) = .ok (cs.headD 0) := by
    rw [deref_eq (lt_length hr), drop_succ hr]
  cases cs with
  | nil =>
    refine ⟨.redir .gt, [], ?_, q + 1, ?_, at_succ hr (h ▸ rfl), ?_, by simp, .inl h.symm⟩
    · rw [tokens.eq_def]
      simp only [hspace, Bool.false_eq_true, if_false, if_pos h]
    · simp only [lexeme, deref_cons hr, ok_bind, if_neg hc, hnot, Bool.false_eq_true, if_false,
        if_pos h, hd, List.headD_nil]
      rw [if_neg (by decide), h]
      rfl
    · rw [rest, drop_succ hr]
      rfl
  | cons d ds =>
    by_cases hgt : d = Char.toUInt8 '>'
    · have hlt : q + 1 < line.length := lt_length (drop_succ hr)
      refine ⟨.redir .gtgt, tokens ds, ?_, q + 2, ?_, at_succ (drop_succ hr) (hgt ▸ rfl), ?_, by simp, .inl h.symm⟩
      · rw [tokens.eq_def]
        simp only [hspace, Bool.false_eq_true, if_false, if_pos h, if_pos hgt]
      · simp only [lexeme, deref_cons hr, ok_bind, if_neg hc, hnot, Bool.false_eq_true, if_false,
          if_pos h, hd, List.headD_cons, if_pos hgt]
        rfl
      · rw [rest, drop_succ (drop_succ hr)]
    · refine ⟨.redir .gt, tokens (d :: ds), ?_, q + 1, ?_, at_succ hr (h ▸ rfl), ?_, by simp, .inl h.symm⟩
      · rw [tokens.eq_def]
        simp only [hspace, Bool.false_eq_true, if_false, if_pos h, if_neg hgt]
      · simp only [lexeme, deref_cons hr, ok_bind, if_neg hc, hnot, Bool.false_eq_true, if_false,
          if_pos h, hd, List.headD_cons, if_neg hgt]
        rw [h]
        rfl
      · rw [rest, drop_succ hr]

theorem lexed_word (hq : At line q) (h : isWord c = true) :
    Lexed line q c (.word (c :: cs.takeWhile isWord)) (tokens (cs.dropWhile isWord)) := by
  obtain ⟨hgt, hsym⟩ := ofSymbol_of_isWord h
  have hnot : (chars ['|', '(', ')', ';', '&', '<']).contains c = false := by
    simpa using ofSymbol_eq_none hsym
  obtain ⟨e, he, hle, hbound, hdrop, htake⟩ := advance_spec isWord hq.1
  rw [hr, List.dropWhile_cons_of_pos h] at hdrop
  rw [hr, List.takeWhile_cons_of_pos h, ← hr] at htake
  have hstop : ∀ d ∈ (line.drop e).head?, isWord d = false := by
    intro d hd
    rw [hdrop] at hd
    have hne : cs.dropWhile isWord ≠ [] := fun he => by rw [he] at hd; cases hd
    have hnw := List.head_dropWhile_not isWord hne
    rw [List.head?_eq_some_head hne] at hd
    rwa [Option.some.inj hd] at hnw
  refine ⟨e, ?_, at_of_head hbound hstop, ?_, fun w hw => ?_, .inr ⟨h, rfl⟩⟩
  · simp only [lexeme, deref_cons hr, ok_bind, if_neg hc, hnot, Bool.false_eq_true, if_false,
      if_neg hgt, he]
    rfl
  · rw [rest, hdrop]
  · obtain rfl := (Token.word.inj hw).symm
    refine ⟨hq, hle, hbound, htake, fun d hd => ?_, hstop⟩
    rcases List.mem_cons.mp hd with rfl | hd
    · exact h
    · exact List.all_eq_true.mp List.all_takeWhile d hd

end Byte

variable (h0 : (0 : UInt8) ∉ line)
include h0

theorem lexed_cons {q : Nat} {c : UInt8} {cs : List UInt8} {t : Token} {ts : List Token}
    (hq : At line q) (hr : line.drop q = c :: cs) (hs : isSpace c = false) (h : rest line q = t :: ts) :
    Lexed line q c t ts := by
  have hc : c ≠ 0 := fun he =>
    h0 (he ▸ List.mem_of_mem_drop (by rw [hr]; exact List.mem_cons_self))
  rw [rest, hr] at h
  by_cases hgt : c = Char.toUInt8 '>'
  · obtain ⟨t', ts', htok, hlex⟩ := lexed_gt hr hc hgt
    obtain ⟨rfl, rfl⟩ := List.cons.inj (htok.symm.trans h)
    exact hlex
  · cases hsym : Token.ofSymbol c with
    | some t' =>
      obtain ⟨rfl, rfl⟩ := List.cons.inj ((tokens_symbol hs hgt hsym).symm.trans h)
      exact lexed_symbol hr hc hsym
    | none =>
      have hw := isWord_of_ofSymbol hs hgt hsym
      obtain ⟨rfl, rfl⟩ := List.cons.inj ((tokens_word hw).symm.trans h)
      exact lexed_word hr hc hq hw

theorem gettoken_cons {t : Token} {ts : List Token} (hi : At line i)
    (h : rest line i = t :: ts) :
    ∃ sp j, gettoken (line ++ [0]) line.length i = .ok (t.code, sp, j) ∧ At line j ∧
      rest line j = ts ∧ ∀ w, t = .word w → Fits line sp w := by
  obtain ⟨q, hskip, hq, hrest, hspace⟩ := skip_spec hi
  rw [h] at hrest
  cases hr : line.drop q with
  | nil =>
    rw [rest, hr] at hrest
    cases hrest
  | cons c cs =>
    obtain ⟨e, hlex, he, hts, hfits, -⟩ :=
      lexed_cons h0 hq hr (hspace c (by rw [hr]; rfl)) hrest
    obtain ⟨j, hskip', hj, hrest', -⟩ := skip_spec he
    refine ⟨(q, e), j, ?_, hj, hrest'.trans hts, hfits⟩
    simp only [gettoken, hskip, hlex, hskip', ok_bind]

omit h0 in
/-- Behind the last token there is only the end of the line. -/
theorem skip_nil (hi : At line i) (h : rest line i = []) :
    advance isSpace (line ++ [0]) (line.length - i) i = .ok line.length := by
  obtain ⟨q, hskip, hq, hrest, hspace⟩ := skip_spec hi
  rw [h] at hrest
  cases hr : line.drop q with
  | nil =>
    have hge : line.length ≤ q := List.drop_eq_nil_iff.mp hr
    rwa [le_antisymm hq.1 hge] at hskip
  | cons c cs =>
    rw [rest, hr] at hrest
    exact absurd hrest (tokens_ne_nil (hspace c (by rw [hr]; rfl)))

omit h0 in
theorem gettoken_nil (hi : At line i) (h : rest line i = []) :
    ∃ sp, gettoken (line ++ [0]) line.length i = .ok (0, sp, line.length) := by
  have hend : rest line line.length = [] := by simp [rest, tokens]
  refine ⟨(line.length, line.length), ?_⟩
  simp only [gettoken, lexeme, skip_nil hi h, skip_nil (at_end line) hend, deref_eq le_rfl, ok_bind,
    List.drop_length, List.headD_nil, if_true]

theorem peek_spec (hi : At line i) (toks : List UInt8) (htoks : ∀ c ∈ toks, c ∈ symbols) :
    ∃ j, peek (line ++ [0]) line.length i toks =
        .ok ((rest line i).head?.any fun t => toks.contains t.mark, j) ∧
      At line j ∧ rest line j = rest line i := by
  obtain ⟨q, hskip, hq, hrest, hspace⟩ := skip_spec hi
  refine ⟨q, ?_, hq, hrest⟩
  simp only [peek, hskip, deref_eq hq.1, ok_bind]
  rw [← hrest]
  cases hr : line.drop q with
  | nil =>
    rw [rest, hr]
    rfl
  | cons c cs =>
    have hs : isSpace c = false := hspace c (by rw [hr]; rfl)
    have hc : c ≠ 0 := fun he =>
      h0 (he ▸ List.mem_of_mem_drop (by rw [hr]; exact List.mem_cons_self))
    cases htok : rest line q with
    | nil =>
      rw [rest, hr] at htok
      exact absurd htok (tokens_ne_nil hs)
    | cons t ts =>
      obtain ⟨e, -, -, -, -, hmark⟩ := lexed_cons h0 hq hr hs htok
      have hne : (c != 0) = true := by simpa using hc
      simp only [List.headD_cons, hne, Bool.true_and, List.head?_cons, Option.any_some]
      rcases hmark with rfl | ⟨hw, hmark⟩
      · rfl
      · -- No symbol begins a word.
        have hno : ∀ d, isWord d = true → toks.contains d = false := by
          intro d hd
          simp only [isWord, Bool.and_eq_true, Bool.not_eq_true'] at hd
          have hd' : d ∉ symbols := by simpa using hd.2
          simpa using fun hmem => hd' (htoks d hmem)
        rw [hmark, hno c hw, hno _ (by decide)]

end Line

end Chameleon.Shell
