import Chameleon.User.Complete

/-! `nulterminate` and `parsecmd`: the parser of `sh.c` accepts its grammar. -/

namespace Chameleon.Shell

section Termination
variable {line mem : List UInt8}

/-- The string that a pointer to a word stands for. -/
def cstring (mem : List UInt8) (sp : Span) : Word := (mem.drop sp.1).takeWhile (· != 0)

/-- The bytes of words are as in the line. -/
structure Kept (line mem : List UInt8) : Prop where
  length : mem.length = line.length + 1
  word : ∀ (i : Nat) (c : UInt8), (line)[i]? = some c → isWord c = true → mem[i]? = some c

theorem kept_line : Kept line (line ++ [0]) :=
  ⟨by simp, fun i c hc _ => by
    rw [List.getElem?_append_left (List.getElem?_eq_some_iff.mp hc).1]
    exact hc⟩

/-- The line after some of its words have been terminated. -/
def Terminated (line mem mem' : List UInt8) (ends : List Span) : Prop :=
  Kept line mem' ∧ (∀ i : Nat, mem[i]? = some 0 → mem'[i]? = some 0) ∧ ∀ sp ∈ ends, mem'[sp.2]? = some 0

theorem terminate_spec (h : Kept line mem) {sp : Span} {w : Word} (hsp : Fits line sp w) :
    ∃ mem', terminate mem sp.2 = .ok mem' ∧ Terminated line mem mem' [sp] := by
  have hlt : sp.2 < mem.length := by
    rw [h.length]
    exact Nat.lt_succ_of_le hsp.bound
  refine ⟨mem.set sp.2 0, if_pos hlt, ⟨?_, fun i c hc hw => ?_⟩, fun i hi => ?_, fun sp' hsp' => ?_⟩
  · rw [List.length_set, h.length]
  · rw [List.getElem?_set_ne, h.word i c hc hw]
    rintro rfl
    have hstop := hsp.stop c (by rw [List.head?_drop]; exact hc)
    rw [hstop] at hw
    cases hw
  · by_cases he : sp.2 = i
    · rw [he, List.getElem?_set_self (he ▸ hlt)]
    · rw [List.getElem?_set_ne he, hi]
  · obtain rfl := List.mem_singleton.mp hsp'
    exact List.getElem?_set_self hlt

/-- The words of a command. -/
def Cmd.words {W : Type} : Cmd W → List W
  | .exec argv => argv
  | .redir cmd r => cmd.words ++ [r.file]
  | .pipe left right => left.words ++ right.words
  | .list left right => left.words ++ right.words
  | .back cmd => cmd.words

theorem Terminated.trans {mem' mem'' : List UInt8} {ends ends' : List Span}
    (h : Terminated line mem mem' ends) (h' : Terminated line mem' mem'' ends') :
    Terminated line mem mem'' (ends ++ ends') := by
  refine ⟨h'.1, fun i hi => h'.2.1 i (h.2.1 i hi), fun sp hsp => ?_⟩
  rcases List.mem_append.mp hsp with hsp | hsp
  · exact h'.2.1 _ (h.2.2 sp hsp)
  · exact h'.2.2 sp hsp

theorem terminateAll_spec {argv : List Span} (h : Kept line mem)
    (hargv : ∀ sp ∈ argv, Fits line sp (text line sp)) :
    ∃ mem', argv.foldlM (fun mem w => terminate mem w.2) mem = .ok mem' ∧
      Terminated line mem mem' argv := by
  induction argv generalizing mem with
  | nil => exact ⟨mem, rfl, h, fun _ => id, by simp⟩
  | cons sp argv ih =>
    obtain ⟨mem₁, hone, hterm⟩ := terminate_spec h (hargv sp List.mem_cons_self)
    obtain ⟨mem₂, hrest, hterm'⟩ := ih hterm.1 fun sp' h' => hargv sp' (List.mem_cons_of_mem sp h')
    refine ⟨mem₂, ?_, hterm.trans hterm'⟩
    rw [List.foldlM_cons, hone, ok_bind, hrest]

theorem nulterminate_spec {cmd : Cmd Span} (hcmd : cmd.Valid line) (h : Kept line mem) :
    ∃ mem', nulterminate cmd mem = .ok mem' ∧ Terminated line mem mem' cmd.words := by
  induction cmd generalizing mem with
  | exec argv =>
    obtain ⟨mem', hall, hterm⟩ := terminateAll_spec h hcmd.2
    exact ⟨mem', by simp only [nulterminate, store, if_pos hcmd.1, ok_bind, hall], hterm⟩
  | redir cmd r ih =>
    obtain ⟨mem₁, hin, hterm⟩ := ih hcmd.1 h
    obtain ⟨mem₂, hone, hterm'⟩ := terminate_spec hterm.1 hcmd.2
    exact ⟨mem₂, by simp only [nulterminate, hin, ok_bind, hone], hterm.trans hterm'⟩
  | pipe left right ihl ihr =>
    obtain ⟨mem₁, hl, hterm⟩ := ihl hcmd.1 h
    obtain ⟨mem₂, hr, hterm'⟩ := ihr hcmd.2 hterm.1
    exact ⟨mem₂, by simp only [nulterminate, hl, ok_bind, hr], hterm.trans hterm'⟩
  | list left right ihl ihr =>
    obtain ⟨mem₁, hl, hterm⟩ := ihl hcmd.1 h
    obtain ⟨mem₂, hr, hterm'⟩ := ihr hcmd.2 hterm.1
    exact ⟨mem₂, by simp only [nulterminate, hl, ok_bind, hr], hterm.trans hterm'⟩
  | back cmd ih => exact ih hcmd h

theorem Cmd.Valid.fits {cmd : Cmd Span} (h : cmd.Valid line) :
    ∀ sp ∈ cmd.words, Fits line sp (text line sp) := by
  induction cmd with
  | exec argv => exact h.2
  | redir cmd r ih =>
    intro sp hsp
    rcases List.mem_append.mp hsp with hsp | hsp
    · exact ih h.1 sp hsp
    · obtain rfl := List.mem_singleton.mp hsp
      exact h.2
  | pipe left right ihl ihr =>
    exact fun sp hsp => (List.mem_append.mp hsp).elim (ihl h.1 sp) (ihr h.2 sp)
  | list left right ihl ihr =>
    exact fun sp hsp => (List.mem_append.mp hsp).elim (ihl h.1 sp) (ihr h.2 sp)
  | back cmd ih => exact ih h

theorem Cmd.map_congr {V W : Type} {f g : V → W} {cmd : Cmd V}
    (h : ∀ v ∈ cmd.words, f v = g v) : cmd.map f = cmd.map g := by
  induction cmd with
  | exec argv => exact congrArg Cmd.exec (List.map_congr_left h)
  | redir cmd r ih =>
    have hr : f r.file = g r.file := h _ (List.mem_append_right _ (by simp))
    simp only [Cmd.map, ih fun v hv => h v (List.mem_append_left _ hv), Redir.map, hr]
  | pipe left right ihl ihr =>
    simp only [Cmd.map, ihl fun v hv => h v (List.mem_append_left _ hv),
      ihr fun v hv => h v (List.mem_append_right _ hv)]
  | list left right ihl ihr =>
    simp only [Cmd.map, ihl fun v hv => h v (List.mem_append_left _ hv),
      ihr fun v hv => h v (List.mem_append_right _ hv)]
  | back cmd ih => simp only [Cmd.map, ih h]

/-- A terminated word reads as its bytes in the line. -/
theorem cstring_eq (h0 : (0 : UInt8) ∉ line) {sp : Span} (hsp : Fits line sp (text line sp))
    (h : Kept line mem) (hend : mem[sp.2]? = some 0) : cstring mem sp = text line sp := by
  have hbytes : (mem.drop sp.1).take (sp.2 - sp.1) = text line sp := by
    refine List.ext_getElem? fun k => ?_
    by_cases hk : k < sp.2 - sp.1
    · have hline : sp.1 + k < line.length := by
        have := hsp.bound
        omega
      have hmem : (line)[sp.1 + k] ∈ text line sp := by
        refine List.mem_iff_getElem?.mpr ⟨k, ?_⟩
        rw [text, List.getElem?_take_of_lt hk, List.getElem?_drop, List.getElem?_eq_getElem hline]
      rw [text, List.getElem?_take_of_lt hk, List.getElem?_take_of_lt hk, List.getElem?_drop,
        List.getElem?_drop, List.getElem?_eq_getElem hline]
      exact h.word _ _ (List.getElem?_eq_getElem hline) (hsp.word _ hmem)
    · rw [List.getElem?_eq_none (by rw [List.length_take]; omega),
        List.getElem?_eq_none (by rw [text, List.length_take]; omega)]
  have hsplit : mem.drop sp.1 = text line sp ++ mem.drop sp.2 := by
    rw [← hbytes, ← Nat.add_sub_of_le hsp.le, ← List.drop_drop, Nat.add_sub_of_le hsp.le,
      List.take_append_drop]
  obtain ⟨hlt, hzero⟩ := List.getElem?_eq_some_iff.mp hend
  rw [cstring, hsplit, List.takeWhile_append_of_pos, List.drop_eq_getElem_cons hlt, hzero,
    List.takeWhile_cons_of_neg (by simp), List.append_nil]
  intro c hc
  have hmem : c ∈ line := List.mem_of_mem_drop (List.mem_of_mem_take hc)
  simpa using fun hz : c = 0 => h0 (hz ▸ hmem)

end Termination

section Parsecmd
variable {line : List UInt8}

theorem length_extend_le (c : UInt8) (ts : List Token) :
    (Token.extend c ts).length ≤ ts.length + 1 := by
  unfold Token.extend
  split <;> simp

theorem length_tokens_le (l : List UInt8) : (tokens l).length ≤ l.length := by
  fun_induction tokens l with
  | case1 => exact le_rfl
  | case2 c cs _ ih => exact ih.trans (Nat.le_succ _)
  | case3 => exact le_rfl
  | case4 ds _ ih => exact Nat.succ_le_succ (ih.trans (Nat.le_succ _))
  | case5 d ds _ _ ih => exact Nat.succ_le_succ ih
  | case6 c cs _ _ t _ ih => exact Nat.succ_le_succ ih
  | case7 => exact le_rfl
  | case8 c d ds _ _ _ _ ih => exact (length_extend_le c _).trans (Nat.succ_le_succ ih)
  | case9 c d ds _ _ _ _ ih => exact Nat.succ_le_succ ih

theorem strlen_eq (h0 : (0 : UInt8) ∉ line) {k i : Nat} (hi : i ≤ line.length)
    (hk : line.length - i < k) : strlen (line ++ [0]) k i = .ok line.length := by
  induction k generalizing i with
  | zero => omega
  | succ k ih =>
    rw [strlen, deref_eq hi, ok_bind]
    rcases Nat.lt_or_eq_of_le hi with hlt | rfl
    · rw [List.drop_eq_getElem_cons hlt, List.headD_cons,
        if_neg fun hz : (line)[i] = 0 => h0 (hz ▸ List.getElem_mem hlt)]
      exact ih hlt (by omega)
    · simp

/-- The last `peek` of `parsecmd` reaches the end of the line if no token is left. -/
theorem peek_end {i : Nat} (hi : At line i) :
    ∃ b j, peek (line ++ [0]) line.length i [] = .ok (b, j) ∧
      (j = line.length ↔ rest line i = []) := by
  obtain ⟨q, hskip, hq, hrest, hspace⟩ := skip_spec hi
  refine ⟨_, q, by simp only [peek, hskip, deref_eq hq.1, ok_bind]; rfl, fun he => ?_, fun hnil => ?_⟩
  · rw [← hrest, he]
    simp [rest, tokens]
  · rw [skip_nil hi hnil] at hskip
    exact (Except.ok.inj hskip).symm

variable {fuel : Nat} {cmd : Cmd Span} {mem : List UInt8} (h0 : (0 : UInt8) ∉ line) (hf : 4 * line.length + 4 ≤ fuel)
include h0 hf

theorem parsecmd_strlen : strlen (line ++ [0]) fuel 0 = .ok line.length :=
  strlen_eq h0 (Nat.zero_le _) (by omega)

theorem parseline_parses :
    Parses line 0 (Phrased line .line) (parseline (line ++ [0]) line.length fuel 0) := by
  have hlen := length_tokens_le line
  have hzero : rest line 0 = tokens line := rfl
  exact (sound h0 fuel).ofLine 0 (at_zero line) (by rw [hzero]; omega)

/-- What `parsecmd` has done when it accepts a line. -/
theorem parsecmd_ok (h : parsecmd fuel (line ++ [0]) = .ok (cmd, mem)) :
    cmd.Valid line ∧ Derives .line (tokens line) (cmd.map (text line)) ∧
      nulterminate cmd (line ++ [0]) = .ok mem := by
  have hparse := parseline_parses h0 hf
  simp only [parsecmd, parsecmd_strlen h0 hf, ok_bind] at h
  cases hx : parseline (line ++ [0]) line.length fuel 0 with
  | error e =>
    rw [hx] at h
    cases h
  | ok r =>
    obtain ⟨c, j⟩ := r
    rw [hx] at hparse
    obtain ⟨hj, pre, hpre, hderives, hvalid⟩ := hparse.ok_inv
    obtain ⟨b, k, hpeek, hk⟩ := peek_end hj
    simp only [hx, ok_bind, hpeek] at h
    by_cases hend : k = line.length
    · have hall : tokens line = pre := by
        rw [hk.mp hend, List.append_nil] at hpre
        exact hpre
      rw [if_neg (not_not.mpr hend)] at h
      cases hn : nulterminate c (line ++ [0]) with
      | error e =>
        rw [hn] at h
        cases h
      | ok m =>
        rw [hn] at h
        obtain ⟨rfl, rfl⟩ := Prod.mk.inj (Except.ok.inj h)
        exact ⟨hvalid, hall ▸ hderives, hn⟩
    · rw [if_pos hend] at h
      cases h

/-- Its words are strings then. -/
theorem parsecmd_strings (h : parsecmd fuel (line ++ [0]) = .ok (cmd, mem)) :
    ∀ sp ∈ cmd.words, cstring mem sp = text line sp ∧ mem[sp.2]? = some 0 := by
  obtain ⟨hvalid, -, hnul⟩ := parsecmd_ok h0 hf h
  obtain ⟨mem', hnul', hkept, -, hends⟩ := nulterminate_spec hvalid kept_line
  cases hnul.symm.trans hnul'
  intro sp hsp
  exact ⟨cstring_eq h0 (hvalid.fits sp hsp) hkept (hends sp hsp), hends sp hsp⟩

/-- A parse that reads the whole line is accepted, and another one is a syntax error. -/
theorem parsecmd_of_parseline {j : Nat} (hx : parseline (line ++ [0]) line.length fuel 0 = .ok (cmd, j)) :
    if rest line j = [] then ∃ mem, parsecmd fuel (line ++ [0]) = .ok (cmd, mem)
    else parsecmd fuel (line ++ [0]) = .error (.panic "syntax") := by
  have hparse := parseline_parses h0 hf
  rw [hx] at hparse
  obtain ⟨hj, -, -, -, hvalid⟩ := hparse.ok_inv
  obtain ⟨b, k, hpeek, hk⟩ := peek_end hj
  obtain ⟨mem, hnul, -⟩ := nulterminate_spec hvalid kept_line
  simp only [parsecmd, parsecmd_strlen h0 hf, hx, hpeek, ok_bind]
  split
  · rename_i hnil
    exact ⟨mem, by rw [if_neg (not_not.mpr (hk.mpr hnil)), hnul, ok_bind]⟩
  · rename_i hne
    exact if_pos fun he => hne (hk.mp he)

/-- Every derivation is found. -/
theorem parsecmd_of_derives {c : Cmd Word} (hc : Derives .line (tokens line) c) :
    ∃ cmd mem, parsecmd fuel (line ++ [0]) = .ok (cmd, mem) ∧ cmd.map (cstring mem) = c := by
  have hlen := length_tokens_le line
  have hzero : rest line 0 = tokens line := rfl
  obtain ⟨cmd, j, hcmd, -, hnil, hmap⟩ := complete h0 hc (i := 0) (n := fuel) (at_zero line)
    (by rw [List.append_nil, hzero]) (fun _ ht => by cases ht) (by rw [hzero]; simp only [need]; omega)
  have haccept := parsecmd_of_parseline h0 hf hcmd
  rw [if_pos hnil] at haccept
  obtain ⟨mem, hok⟩ := haccept
  refine ⟨cmd, mem, hok, ?_⟩
  rw [← hmap]
  exact Cmd.map_congr fun sp hsp => (parsecmd_strings h0 hf hok sp hsp).1

omit h0 hf in
/-- With enough fuel `parsecmd` returns a command or panics. It returns the command of a
derivation, with its words as NUL-terminated strings, if and only if there is one. -/
theorem parsecmd_grammar (h0 : (0 : UInt8) ∉ line) {fuel : Nat} (hf : 4 * line.length + 4 ≤ fuel) :
    (∀ c, Derives .line (tokens line) c ↔
      ∃ cmd mem, parsecmd fuel (line ++ [0]) = .ok (cmd, mem) ∧ cmd.map (cstring mem) = c) ∧
    ((∃ cmd mem, parsecmd fuel (line ++ [0]) = .ok (cmd, mem)) ∨
      ∃ msg, parsecmd fuel (line ++ [0]) = .error (.panic msg)) := by
  refine ⟨fun c => ⟨parsecmd_of_derives h0 hf, ?_⟩, ?_⟩
  · rintro ⟨cmd, mem, hok, rfl⟩
    rw [Cmd.map_congr fun sp hsp => (parsecmd_strings h0 hf hok sp hsp).1]
    exact (parsecmd_ok h0 hf hok).2.1
  · have hparse := parseline_parses h0 hf
    cases hx : parseline (line ++ [0]) line.length fuel 0 with
    | error e =>
      rw [hx] at hparse
      obtain ⟨msg, rfl⟩ := hparse.error_inv
      right
      exact ⟨msg, by simp only [parsecmd, parsecmd_strlen h0 hf, hx, ok_bind, error_bind]⟩
    | ok r =>
      obtain ⟨cmd, j⟩ := r
      have haccept := parsecmd_of_parseline h0 hf hx
      split at haccept
      · obtain ⟨mem, hok⟩ := haccept
        exact .inl ⟨cmd, mem, hok⟩
      · exact .inr ⟨_, haccept⟩

omit h0 hf

/-- `ls>x|wc&` -/
def lsToWc : List UInt8 := chars ['l', 's', '>', 'x', '|', 'w', 'c', '&']

theorem parsecmd_grammar_back : ∃ cmd mem, parsecmd 40 (lsToWc ++ [0]) = .ok (cmd, mem) ∧
    cmd.map (cstring mem) = .back (.pipe
      (.redir (.exec [chars ['l', 's']]) ⟨chars ['x'], O_WRONLY ||| O_CREATE, 1⟩)
      (.exec [chars ['w', 'c']])) := by
  have htokens : tokens lsToWc = [.word (chars ['l', 's']), .redir .gt, .word (chars ['x']),
      .bar, .word (chars ['w', 'c']), .amp] := by decide
  have hleft : Derives .exec _ _ := .exec [] [(chars ['l', 's'], [(.gt, chars ['x'])])] (by decide)
  have hright : Derives .exec _ _ := .exec [] [(chars ['w', 'c'], [])] (by decide)
  have hline := Derives.last 1 (.pipe hleft (.one hright))
  refine ((parsecmd_grammar (by decide) (by decide)).1 _).mp ?_
  rw [htokens]
  exact hline

end Parsecmd

end Chameleon.Shell
