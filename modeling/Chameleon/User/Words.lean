import Chameleon.User.Parser

/-! The words of a parsed command after `nulterminate`, against the tokens that `gettoken` finds in the line. -/

namespace Chameleon.Shell

section Words
variable {V W : Type}

theorem words_wrap (cmd : Cmd W) (rs : List (Redir W)) : (wrap cmd rs).words = cmd.words ++ rs.map Redir.file := by
  induction rs generalizing cmd with
  | nil => exact (List.append_nil _).symm
  | cons r rs ih =>
    show (wrap (.redir cmd r) rs).words = _
    rw [ih, Cmd.words, List.append_assoc]
    rfl

theorem words_backs (cmd : Cmd W) (k : Nat) : (Cmd.back^[k] cmd).words = cmd.words := by
  induction k generalizing cmd with
  | zero => rfl
  | succ k ih => exact ih (.back cmd)

theorem words_map (f : V → W) (cmd : Cmd V) : (cmd.map f).words = cmd.words.map f := by
  induction cmd with
  | exec argv => rfl
  | redir cmd r ih => simp only [Cmd.map, Cmd.words, ih, Redir.map, List.map_append, List.map_singleton]
  | pipe left right ihl ihr => simp only [Cmd.map, Cmd.words, ihl, ihr, List.map_append]
  | list left right ihl ihr => simp only [Cmd.map, Cmd.words, ihl, ihr, List.map_append]
  | back cmd ih => exact ih

theorem mem_redirTokens {rs : List (Op × Word)} {w : Word} (h : w ∈ (rs.map Op.redir).map Redir.file) :
    Token.word w ∈ redirTokens rs := by
  obtain ⟨r, hr, rfl⟩ := List.mem_map.mp h
  obtain ⟨⟨op, w⟩, hop, rfl⟩ := List.mem_map.mp hr
  apply List.mem_flatMap.mpr
  refine ⟨(op, w), hop, ?_⟩
  cases op <;> simp [Op.redir]

theorem mem_argTokens {args : List (Word × List (Op × Word))} {w : Word}
    (h : w ∈ args.map Prod.fst ∨ w ∈ ((args.flatMap Prod.snd).map Op.redir).map Redir.file) : Token.word w ∈ argTokens args := by
  rcases h with h | h
  · obtain ⟨a, ha, rfl⟩ := List.mem_map.mp h
    exact List.mem_flatMap.mpr ⟨a, ha, List.mem_cons_self⟩
  · obtain ⟨r, hr, rfl⟩ := List.mem_map.mp h
    obtain ⟨op, hop, rfl⟩ := List.mem_map.mp hr
    obtain ⟨a, ha, hop⟩ := List.mem_flatMap.mp hop
    refine List.mem_flatMap.mpr ⟨a, ha, List.mem_cons_of_mem _ (mem_redirTokens ?_)⟩
    exact List.mem_map_of_mem (List.mem_map_of_mem hop)

/-- The words of a command are tokens of the line it is derived from. -/
theorem Derives.words {p : Phrase} {ts : List Token} {c : Cmd Word} (h : Derives p ts c) :
    ∀ w ∈ c.words, Token.word w ∈ ts := by
  induction h with
  | last k _ ih =>
    intro w hw
    rw [words_backs] at hw
    exact List.mem_append_left _ (ih w hw)
  | list k _ _ ih ih' =>
    intro w hw
    rw [Cmd.words, words_backs] at hw
    rcases List.mem_append.mp hw with hw | hw
    · exact List.mem_append_left _ (List.mem_append_left _ (ih w hw))
    · exact List.mem_append_right _ (List.mem_cons_of_mem _ (ih' w hw))
  | one _ ih => exact ih
  | pipe _ _ ih ih' =>
    intro w hw
    rcases List.mem_append.mp hw with hw | hw
    · exact List.mem_append_left _ (ih w hw)
    · exact List.mem_append_right _ (List.mem_cons_of_mem _ (ih' w hw))
  | block rs _ ih =>
    intro w hw
    rw [words_wrap] at hw
    rcases List.mem_append.mp hw with hw | hw
    · exact List.mem_append_left _ (List.mem_cons_of_mem _ (ih w hw))
    · exact List.mem_append_right _ (List.mem_cons_of_mem _ (mem_redirTokens hw))
  | exec rs args hmax =>
    intro w hw
    rw [words_wrap, List.map_append, List.map_append] at hw
    simp only [Cmd.words, List.mem_append] at hw ⊢
    rcases hw with hw | hw | hw
    · exact .inr (mem_argTokens (.inl hw))
    · exact .inl (mem_redirTokens hw)
    · exact .inr (mem_argTokens (.inr hw))

theorem word_ne_nil {l : List UInt8} {w : Word} (h : Token.word w ∈ tokens l) : w ≠ [] := by
  fun_induction tokens l with
  | case1 => cases h
  | case2 c cs _ ih => exact ih h
  | case3 => simp at h
  | case4 ds _ ih => exact ih (by simpa using h)
  | case5 d ds _ _ ih => exact ih (by simpa using h)
  | case6 c cs _ _ t ht ih =>
    rcases List.mem_cons.mp h with rfl | h
    · exact absurd rfl ((code_ofSymbol ht).2.1 w)
    · exact ih h
  | case7 =>
    obtain rfl : w = _ := by simpa using h
    exact List.cons_ne_nil _ _
  | case8 c d ds _ _ _ _ ih =>
    unfold Token.extend at h
    split at h
    · rename_i w' ts hts
      rcases List.mem_cons.mp h with he | h
      · rw [Token.word.inj he]
        exact List.cons_ne_nil _ _
      · exact ih (hts ▸ List.mem_cons_of_mem _ h)
    · rcases List.mem_cons.mp h with he | h
      · rw [Token.word.inj he]
        exact List.cons_ne_nil _ _
      · exact ih h
  | case9 c d ds _ _ _ _ ih =>
    rcases List.mem_cons.mp h with he | h
    · rw [Token.word.inj he]
      exact List.cons_ne_nil _ _
    · exact ih h

end Words

section Tokens
variable {line : List UInt8} {sp tok : Span} {w : Word}

/-- The lexer, called outside every word, recognises a word between the two ends. -/
def IsToken (line : List UInt8) (sp : Span) : Prop :=
  ∃ i j, At line i ∧ gettoken (line ++ [0]) line.length i = .ok (Char.toUInt8 'a', sp, j)

theorem Fits.stop_eq (h : Fits line sp w) : w = (line.drop sp.1).takeWhile isWord := by
  have hsplit : line.drop sp.1 = w ++ line.drop sp.2 := by
    rw [← h.text, ← Nat.add_sub_of_le h.le, ← List.drop_drop, Nat.add_sub_of_le h.le, List.take_append_drop]
  rw [hsplit, List.takeWhile_append_of_pos h.word]
  cases hr : line.drop sp.2 with
  | nil => exact (List.append_nil w).symm
  | cons c cs =>
    have hc := h.stop c (by rw [hr]; rfl)
    rw [List.takeWhile_cons_of_neg (by simp [hc]), List.append_nil]

theorem Fits.length_eq (h : Fits line sp w) : sp.2 = sp.1 + w.length := by
  have hle := h.le
  have hbound := h.bound
  rw [← h.text, List.length_take, List.length_drop]
  omega

/-- What fits is what the lexer finds there. -/
theorem Fits.isToken (h0 : (0 : UInt8) ∉ line) (h : Fits line sp w) (hne : w ≠ []) : IsToken line sp := by
  obtain ⟨c, cs, hw⟩ := List.exists_cons_of_ne_nil hne
  have hlen := h.length_eq
  have hc : isWord c = true := h.word c (hw ▸ List.mem_cons_self)
  obtain ⟨ds, hr⟩ : ∃ ds, line.drop sp.1 = c :: ds := by
    have htext := h.text
    rw [hw] at htext
    cases hd : line.drop sp.1 with
    | nil =>
      rw [hd, List.take_nil] at htext
      cases htext
    | cons d ds =>
      rw [hd] at htext
      have hpos : sp.2 - sp.1 ≠ 0 := fun hz => by
        rw [hz] at htext
        cases htext
      obtain ⟨k, hk⟩ := Nat.exists_eq_succ_of_ne_zero hpos
      rw [hk, List.take_succ_cons] at htext
      exact ⟨ds, by rw [(List.cons.inj htext).1]⟩
  have hz : c ≠ 0 := fun he => h0 (he ▸ List.mem_of_mem_drop (by rw [hr]; exact List.mem_cons_self))
  have hskip : advance isSpace (line ++ [0]) (line.length - sp.1) sp.1 = .ok sp.1 := by
    rw [advance_eq isSpace _ _ (Nat.add_sub_of_le h.first.1), hr, List.takeWhile_cons_of_neg (by simp [isSpace_of_isWord hc])]
    rfl
  obtain ⟨e, hlex, he, -, hfits, -⟩ := lexed_word hr hz h.first hc
  have hend : e = sp.2 := by
    have hfit := hfits _ rfl
    have hsame := hfit.stop_eq.trans h.stop_eq.symm
    rw [hlen, ← hsame]
    exact hfit.length_eq
  obtain ⟨j, hskip', -⟩ := skip_spec he
  refine ⟨sp.1, j, h.first, ?_⟩
  subst hend
  simp only [gettoken, hskip, hlex, hskip', ok_bind]
  rfl

/-- The bytes of a token are those of a word. -/
theorem IsToken.fits (h0 : (0 : UInt8) ∉ line) (h : IsToken line tok) : ∃ w, Fits line tok w := by
  obtain ⟨i, j, hi, hget⟩ := h
  cases hts : rest line i with
  | nil =>
    obtain ⟨sp, hnil⟩ := gettoken_nil hi hts
    rw [hnil] at hget
    exact absurd (Prod.mk.inj (Except.ok.inj hget)).1 (by decide)
  | cons t ts =>
    obtain ⟨sp, k, hcons, -, -, hfits⟩ := gettoken_cons h0 hi hts
    rw [hcons] at hget
    obtain ⟨hcode, hrest⟩ := Prod.mk.inj (Except.ok.inj hget)
    obtain ⟨w, rfl⟩ := code_eq_word.mp hcode
    exact ⟨w, (Prod.mk.inj hrest).1 ▸ hfits w rfl⟩

/-- The end of a word is inside no token. -/
theorem Fits.outside (h0 : (0 : UInt8) ∉ line) (h : Fits line sp w) (ht : IsToken line tok) :
    ¬ (tok.1 ≤ sp.2 ∧ sp.2 < tok.2) := by
  rintro ⟨hlow, hhigh⟩
  obtain ⟨v, hv⟩ := ht.fits h0
  have hlt : sp.2 < line.length := Nat.lt_of_lt_of_le hhigh hv.bound
  have hmem : (line)[sp.2] ∈ v := by
    rw [← hv.text]
    refine List.mem_iff_getElem?.mpr ⟨sp.2 - tok.1, ?_⟩
    rw [List.getElem?_take_of_lt (by omega), List.getElem?_drop, Nat.add_sub_of_le hlow, List.getElem?_eq_getElem hlt]
  have hstop := h.stop (line)[sp.2] (by rw [List.head?_drop, List.getElem?_eq_getElem hlt])
  rw [hv.word _ hmem] at hstop
  cases hstop

end Tokens

section Nulterminate
variable {line : List UInt8} {cmd : Cmd Span}

/-- `nulterminate` writes at the ends of the words, and nowhere else. -/
theorem nulterminate_eq (h : cmd.Valid line) (mem : List UInt8) :
    nulterminate cmd mem = (cmd.words.map Prod.snd).foldlM terminate mem := by
  induction cmd generalizing mem with
  | exec argv =>
    rw [nulterminate, store, if_pos h.1, Cmd.words, List.foldlM_map]
    rfl
  | redir cmd r ih =>
    rw [nulterminate, ih h.1, Cmd.words, List.map_append, List.foldlM_append]
    congr 1
    funext mem
    show terminate mem r.file.2 = terminate mem r.file.2 >>= Except.ok
    cases terminate mem r.file.2 <;> rfl
  | pipe left right ihl ihr =>
    rw [nulterminate, ihl h.1, Cmd.words, List.map_append, List.foldlM_append]
    congr 1
    funext mem
    exact ihr h.2 mem
  | list left right ihl ihr =>
    rw [nulterminate, ihl h.1, Cmd.words, List.map_append, List.foldlM_append]
    congr 1
    funext mem
    exact ihr h.2 mem
  | back cmd ih => exact ih h mem

end Nulterminate

/-- In every line that `parsecmd` accepts, each word of the command is a token of the line, and afterwards a
NUL-terminated string of the same bytes. The bytes that `nulterminate` writes are those at the ends of the words, and
none of them is inside a token. -/
theorem nulterminate_keeps_words {line : List UInt8} (h0 : (0 : UInt8) ∉ line) {fuel : Nat}
    (hf : 4 * line.length + 4 ≤ fuel) {cmd : Cmd Span} {mem : List UInt8}
    (h : parsecmd fuel (line ++ [0]) = .ok (cmd, mem)) :
    (∀ sp ∈ cmd.words, IsToken line sp ∧ cstring mem sp = text line sp ∧ mem[sp.2]? = some 0) ∧
      (cmd.words.map Prod.snd).foldlM terminate (line ++ [0]) = .ok mem ∧
      ∀ sp ∈ cmd.words, ∀ tok, IsToken line tok → ¬ (tok.1 ≤ sp.2 ∧ sp.2 < tok.2) := by
  obtain ⟨hvalid, hderives, hnul⟩ := parsecmd_ok h0 hf h
  refine ⟨fun sp hsp => ⟨?_, parsecmd_strings h0 hf h sp hsp⟩, ?_, fun sp hsp tok ht => ?_⟩
  · apply (hvalid.fits sp hsp).isToken h0
    apply word_ne_nil (l := line)
    apply hderives.words
    rw [words_map]
    exact List.mem_map_of_mem hsp
  · rw [← nulterminate_eq hvalid]
    exact hnul
  · exact (hvalid.fits sp hsp).outside h0 ht

/-- The words of `ls>x|wc&`, which only symbols separate. -/
theorem nulterminate_keeps_words_lsToWc : ∃ cmd mem, parsecmd 40 (lsToWc ++ [0]) = .ok (cmd, mem) ∧
    cmd.words = [(0, 2), (3, 4), (5, 7)] ∧
    ∀ sp ∈ cmd.words, IsToken lsToWc sp ∧ cstring mem sp = text lsToWc sp ∧ mem[sp.2]? = some 0 := by
  have hparse : parsecmd 40 (lsToWc ++ [0]) = .ok (.back (.pipe
      (.redir (.exec [(0, 2)]) ⟨(3, 4), O_WRONLY ||| O_CREATE, 1⟩) (.exec [(5, 7)])),
      (chars ['l', 's'] ++ 0 :: chars ['x'] ++ 0 :: chars ['w', 'c'] ++ [0, 0])) := by decide +kernel
  exact ⟨_, _, hparse, rfl, (nulterminate_keeps_words (by decide) (by decide) hparse).1⟩

end Chameleon.Shell
