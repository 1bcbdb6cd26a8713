import Chameleon.Lib.Bytes
import Chameleon.User.Match

/-! The buffer loop of `grep`. A run is given by what its calls of `read` return. -/

namespace Chameleon.Grep
open Bytes

def newline : UInt8 := Char.toUInt8 '\n'

/-- `sizeof(buf)` -/
abbrev BUFSIZE : Nat := 1024

/-- `strchr` within the first `k` bytes. -/
def strchr (buf : Nat → UInt8) (c : UInt8) : Nat → Nat → Option Nat
  | 0, _ => none
  | k + 1, p => if buf p = 0 then none else if buf p = c then some p else strchr buf c k (p + 1)

/-- The string at `p`, within `k` bytes. -/
def cstring (buf : Nat → UInt8) : Nat → Nat → List UInt8
  | 0, _ => []
  | k + 1, p => if buf p = 0 then [] else buf p :: cstring buf k (p + 1)

/-- The buffer, the number of bytes kept in it, and what has been written. -/
structure State where
  buf : Nat → UInt8
  m : Nat
  out : List UInt8

/-- The loop over the lines in the buffer, from `p` on: where it stops, the buffer and what has been written. The
buffer has room for fewer than `BUFSIZE` newlines. -/
def scan (pattern : List UInt8) : Nat → Nat → (Nat → UInt8) → List UInt8 → Nat × (Nat → UInt8) × List UInt8
  | 0, p, buf, out => (p, buf, out)
  | k + 1, p, buf, out =>
    match strchr buf newline (BUFSIZE - p) p with
    | none => (p, buf, out)
    | some q =>
      let buf := Function.update buf q 0
      if gmatch pattern (cstring buf (BUFSIZE - p) p) then
        let buf := Function.update buf q newline
        scan pattern k (q + 1) buf (out ++ slice buf p (q + 1 - p))
      else scan pattern k (q + 1) buf out

/-- The body of the loop after `read` has returned `piece`. -/
def chunk (pattern : List UInt8) (s : State) (piece : List UInt8) : State :=
  let buf := store s.buf s.m piece
  let m := s.m + piece.length
  let buf := Function.update buf m 0
  let (p, buf, out) := scan pattern BUFSIZE 0 buf s.out
  let m := if p = 0 then 0 else m
  if m > 0 then ⟨store buf 0 (slice buf p (m - p)), m - p, out⟩ else ⟨buf, m, out⟩

/-- `grep`, when the calls of `read` return the pieces and then 0. What an earlier call has left in the buffer is still
there. -/
def grep (pattern : List UInt8) (s : State) (pieces : List (List UInt8)) : State :=
  pieces.foldl (chunk pattern) { s with m := 0 }

/-- Every call of `read` returns some bytes, at most as many as it was asked for. -/
def Served (pattern : List UInt8) : State → List (List UInt8) → Prop
  | _, [] => True
  | s, piece :: pieces => piece ≠ [] ∧ piece.length ≤ BUFSIZE - s.m - 1 ∧ Served pattern (chunk pattern s piece) pieces

/-! ### What should be written -/

/-- The lines of the input that are ended by a newline, where `cur` is the beginning of the first one. -/
def lines (cur : List UInt8) : List UInt8 → List (List UInt8)
  | [] => []
  | b :: input => if b = newline then cur :: lines [] input else lines (cur ++ [b]) input

/-- The line that is not ended yet. -/
def rest (cur : List UInt8) : List UInt8 → List UInt8
  | [] => cur
  | b :: input => if b = newline then rest [] input else rest (cur ++ [b]) input

/-- The lines that match, each with its newline. -/
def selected (pattern : List UInt8) (ls : List (List UInt8)) : List UInt8 :=
  (ls.filter (gmatch pattern)).flatMap (· ++ [newline])

/-- The loop over the pieces without its buffer: a piece that has no newline is lost, with what was kept before it. -/
def written (pattern : List UInt8) : List UInt8 → List (List UInt8) → List UInt8
  | _, [] => []
  | cur, piece :: pieces =>
    if newline ∈ piece then selected pattern (lines cur piece) ++ written pattern (rest cur piece) pieces
    else written pattern [] pieces

section Lines
variable {cur a b : List UInt8} {pattern : List UInt8}

theorem lines_append (cur a b : List UInt8) : lines cur (a ++ b) = lines cur a ++ lines (rest cur a) b := by
  induction a generalizing cur with
  | nil => rfl
  | cons x a ih =>
    rw [List.cons_append, lines, lines, rest]
    split
    · rw [ih, List.cons_append]
    · exact ih _

theorem rest_append (cur a b : List UInt8) : rest cur (a ++ b) = rest (rest cur a) b := by
  induction a generalizing cur with
  | nil => rfl
  | cons x a ih =>
    rw [List.cons_append, rest, rest]
    split <;> exact ih _

theorem lines_of_not_mem (h : newline ∉ a) : lines cur a = [] ∧ rest cur a = cur ++ a := by
  induction a generalizing cur with
  | nil => exact ⟨rfl, (List.append_nil cur).symm⟩
  | cons x a ih =>
    have hx : x ≠ newline := (List.ne_of_not_mem_cons h).symm
    rw [lines, rest, if_neg hx, if_neg hx]
    obtain ⟨hl, hr⟩ : lines (cur ++ [x]) a = [] ∧ rest (cur ++ [x]) a = cur ++ [x] ++ a :=
      ih (List.not_mem_of_not_mem_cons h)
    exact ⟨hl, by rw [hr, List.append_assoc, List.singleton_append]⟩

/-- The first line is ended. -/
theorem lines_first (h : newline ∉ a) (b : List UInt8) :
    lines [] (a ++ newline :: b) = a :: lines [] b ∧ rest [] (a ++ newline :: b) = rest [] b := by
  obtain ⟨hlines, hrest⟩ : lines [] a = [] ∧ rest [] a = [] ++ a := lines_of_not_mem h
  rw [lines_append, rest_append, hlines, hrest, lines, rest, if_pos rfl, if_pos rfl]
  exact ⟨rfl, rfl⟩

theorem selected_append (ls ls' : List (List UInt8)) : selected pattern (ls ++ ls') = selected pattern ls ++ selected pattern ls' := by
  rw [selected, List.filter_append, List.flatMap_append]
  rfl

theorem newline_not_mem_rest (hcur : newline ∉ cur) : newline ∉ rest cur a := by
  induction a generalizing cur with
  | nil => exact hcur
  | cons x a ih =>
    rw [rest]
    split
    · exact ih List.not_mem_nil
    · rename_i hx
      apply ih
      simp [hcur, Ne.symm hx]

theorem rest_of_mem (h : newline ∈ a) (cur cur' : List UInt8) : rest cur a = rest cur' a := by
  induction a generalizing cur cur' with
  | nil => cases h
  | cons x a ih =>
    rw [rest, rest]
    split
    · rfl
    · rename_i hx
      exact ih ((List.mem_cons.mp h).resolve_left (Ne.symm hx)) _ _

theorem gmatch_nil (text : List UInt8) : gmatch [] text = true := by
  cases text <;> rfl

/-- It selects every byte up to the last newline. -/
theorem length_selected_nil (cur a : List UInt8) :
    (selected [] (lines cur a)).length + (rest cur a).length = cur.length + a.length := by
  have hall : ∀ ls : List (List UInt8), ls.filter (gmatch []) = ls := fun ls =>
    List.filter_eq_self.mpr fun l _ => gmatch_nil l
  unfold selected
  rw [hall]
  induction a generalizing cur with
  | nil => exact Nat.zero_add _
  | cons x a ih =>
    rw [lines, rest]
    split
    · rw [List.flatMap_cons, List.length_append, List.length_append, Nat.add_assoc, ih []]
      simp only [List.length_nil, List.length_cons]
      omega
    · rw [ih, List.length_append, List.length_singleton, List.length_cons]
      omega

/-- The beginning of the first line counts when that line is ended. -/
theorem length_selected_cur (h : newline ∈ a) (cur : List UInt8) :
    (selected [] (lines cur a)).length = cur.length + (selected [] (lines [] a)).length := by
  have hcur := length_selected_nil cur a
  have hnil := length_selected_nil [] a
  rw [rest_of_mem h cur []] at hcur
  rw [List.length_nil] at hnil
  omega

end Lines

/-- Every piece has a newline, apart from those behind the last newline of the input. -/
def LineWise : List (List UInt8) → Prop
  | [] => True
  | piece :: pieces => (newline ∈ piece ∨ newline ∉ pieces.flatten) ∧ LineWise pieces

section Pieces
variable {cur : List UInt8} {pieces : List (List UInt8)} {pattern : List UInt8}

/-- Then nothing is lost that belongs to an ended line. -/
theorem written_eq (h : LineWise pieces) (hcur : newline ∉ cur) : written pattern cur pieces = selected pattern (lines cur pieces.flatten) := by
  induction pieces generalizing cur with
  | nil => rfl
  | cons piece pieces ih =>
    rw [written, List.flatten_cons, lines_append, selected_append]
    by_cases hnl : newline ∈ piece
    · rw [if_pos hnl, ih h.2 (newline_not_mem_rest hcur)]
    · have hlater := h.1.resolve_left hnl
      rw [if_neg hnl, ih h.2 List.not_mem_nil, (lines_of_not_mem hnl).1, (lines_of_not_mem hlater).1, (lines_of_not_mem hlater).1]
      rfl

theorem length_selected_le (cur a : List UInt8) :
    (selected [] (lines [] a)).length ≤ (selected [] (lines cur a)).length := by
  by_cases h : newline ∈ a
  · rw [length_selected_cur h cur]
    exact Nat.le_add_left ..
  · rw [(lines_of_not_mem h).1]
    exact Nat.zero_le _

theorem length_written_le (cur : List UInt8) (pieces : List (List UInt8)) :
    (written [] cur pieces).length ≤ (selected [] (lines cur pieces.flatten)).length := by
  induction pieces generalizing cur with
  | nil => exact Nat.zero_le _
  | cons piece pieces ih =>
    rw [written, List.flatten_cons, lines_append, selected_append, List.length_append]
    split
    · rw [List.length_append]
      exact Nat.add_le_add_left (ih _) _
    · exact Nat.le_trans (ih []) (Nat.le_trans (length_selected_le _ _) (Nat.le_add_left ..))

/-- Otherwise some byte of an ended line is lost. -/
theorem length_written_lt (h : ¬ LineWise pieces) (hne : ∀ piece ∈ pieces, piece ≠ []) (cur : List UInt8) :
    (written [] cur pieces).length < (selected [] (lines cur pieces.flatten)).length := by
  induction pieces generalizing cur with
  | nil => exact absurd trivial h
  | cons piece pieces ih =>
    obtain ⟨hpiece, hpieces⟩ := List.forall_mem_cons.mp hne
    rw [written, List.flatten_cons, lines_append, selected_append, List.length_append]
    by_cases hnl : newline ∈ piece
    · have hlater : ¬ LineWise pieces := fun hl => h ⟨.inl hnl, hl⟩
      rw [if_pos hnl, List.length_append]
      exact Nat.add_lt_add_left (ih hlater hpieces _) _
    · rw [if_neg hnl, (lines_of_not_mem hnl).2]
      by_cases hend : newline ∈ pieces.flatten
      · have hle := length_written_le [] pieces
        have hpos := List.length_pos_iff.mpr hpiece
        rw [length_selected_cur hend, List.length_append]
        omega
      · have hlater : ¬ LineWise pieces := fun hl => h ⟨.inr hend, hl⟩
        exact Nat.lt_of_lt_of_le (ih hlater hpieces []) (Nat.le_trans (length_selected_le _ _) (Nat.le_add_left ..))

end Pieces

section Buffer
variable {buf : Nat → UInt8} {p n k m : Nat} {l d : List UInt8} {pattern out : List UInt8}

/-- The bytes `l` at `p`, with a NUL behind them. -/
structure Ended (buf : Nat → UInt8) (p : Nat) (l : List UInt8) : Prop where
  bytes : slice buf p l.length = l
  nul : buf (p + l.length) = 0
  free : 0 ∉ l

theorem Ended.tail {x : UInt8} (h : Ended buf p (x :: l)) : buf p = x ∧ Ended buf (p + 1) l := by
  have hbytes := h.bytes
  rw [List.length_cons, Nat.add_comm, slice_add] at hbytes
  obtain ⟨hx, hl⟩ := List.cons.inj hbytes
  refine ⟨hx, hl, ?_, fun h0 => h.free (List.mem_cons_of_mem x h0)⟩
  rw [Nat.add_assoc, Nat.add_comm 1]
  exact h.nul

theorem Ended.cstring_eq (h : Ended buf p l) (hk : l.length < k) : cstring buf k p = l := by
  induction l generalizing p k with
  | nil =>
    obtain ⟨k, rfl⟩ := Nat.exists_eq_succ_of_ne_zero (Nat.ne_of_gt hk)
    have hnul : buf p = 0 := h.nul
    rw [cstring, if_pos hnul]
  | cons x l ih =>
    obtain ⟨k, rfl⟩ := Nat.exists_eq_succ_of_ne_zero (Nat.ne_of_gt (Nat.lt_trans (Nat.succ_pos _) hk))
    obtain ⟨hx, htail⟩ := h.tail
    have hne : x ≠ 0 := fun h0 => h.free (h0 ▸ List.mem_cons_self)
    rw [cstring, hx, if_neg hne, ih htail (Nat.lt_of_succ_lt_succ hk)]

theorem Ended.strchr_none (h : Ended buf p l) (hnl : newline ∉ l) (k : Nat) : strchr buf newline k p = none := by
  induction l generalizing p k with
  | nil =>
    cases k with
    | zero => rfl
    | succ k =>
      have hnul : buf p = 0 := h.nul
      rw [strchr, if_pos hnul]
  | cons x l ih =>
    cases k with
    | zero => rfl
    | succ k =>
      obtain ⟨hx, htail⟩ := h.tail
      have hne : x ≠ newline := (List.ne_of_not_mem_cons hnl).symm
      have h0 : x ≠ 0 := fun h0 => h.free (h0 ▸ List.mem_cons_self)
      rw [strchr, hx, if_neg h0, if_neg hne]
      exact ih htail (List.not_mem_of_not_mem_cons hnl) k

theorem Ended.strchr_some (h : Ended buf p (l ++ newline :: d)) (hnl : newline ∉ l) (hk : l.length < k) :
    strchr buf newline k p = some (p + l.length) := by
  induction l generalizing p k with
  | nil =>
    obtain ⟨k, rfl⟩ := Nat.exists_eq_succ_of_ne_zero (Nat.ne_of_gt hk)
    rw [strchr, h.tail.1, if_neg (by decide), if_pos rfl]
    rfl
  | cons x l ih =>
    obtain ⟨k, rfl⟩ := Nat.exists_eq_succ_of_ne_zero (Nat.ne_of_gt (Nat.lt_trans (Nat.succ_pos _) hk))
    obtain ⟨hx, htail⟩ := h.tail
    have hne : x ≠ newline := (List.ne_of_not_mem_cons hnl).symm
    have h0 : x ≠ 0 := fun h0 => h.free (h0 ▸ List.mem_cons_self)
    rw [strchr, hx, if_neg h0, if_neg hne, ih htail (List.not_mem_of_not_mem_cons hnl) (Nat.lt_of_succ_lt_succ hk),
      List.length_cons, Nat.add_assoc, Nat.add_comm 1]

theorem Ended.drop {e : List UInt8} (h : Ended buf p (l ++ e)) : Ended buf (p + l.length) e := by
  induction l generalizing p with
  | nil => exact h
  | cons x l ih =>
    rw [List.length_cons, Nat.add_comm l.length, ← Nat.add_assoc]
    exact ih h.tail.2

theorem Ended.congr {buf' : Nat → UInt8} (h : Ended buf p l) (hsame : ∀ i ≥ p, buf' i = buf i) : Ended buf' p l := by
  refine ⟨?_, ?_, h.free⟩
  · rw [← h.bytes, length_slice]
    apply slice_congr
    intro i _
    exact hsame _ (Nat.le_add_right p i)
  · rw [hsame _ (Nat.le_add_right ..)]
    exact h.nul

/-- A newline is made the end of its line. -/
theorem Ended.cut (h : Ended buf p (l ++ newline :: d)) : Ended (Function.update buf (p + l.length) 0) p l := by
  have hbytes := h.bytes
  rw [List.length_append, slice_add] at hbytes
  refine ⟨?_, Function.update_self .., fun h0 => h.free (List.mem_append_left _ h0)⟩
  rw [← (List.append_inj hbytes (length_slice ..)).1, length_slice]
  apply slice_congr
  intro i hi
  exact Function.update_of_ne (by omega) ..

/-- With its newline put back, the line is what it was. -/
theorem Ended.line (h : Ended buf p (l ++ newline :: d)) :
    slice (Function.update buf (p + l.length) newline) p (p + l.length + 1 - p) = l ++ [newline] := by
  have hat : buf (p + l.length) = newline := h.drop.tail.1
  have hbytes := h.bytes
  rw [List.length_append, slice_add] at hbytes
  rw [← hat, Function.update_eq_self, Nat.add_assoc, Nat.add_sub_cancel_left, slice_add,
    (List.append_inj hbytes (length_slice ..)).1]
  rfl

theorem scan_spec (pattern out : List UInt8) (k : Nat) (hd : Ended buf p d) (hk : d.length < k) (hfit : p + d.length < BUFSIZE) :
    ∃ p' buf' , scan pattern k p buf out = (p', buf', out ++ selected pattern (lines [] d)) ∧ Ended buf' p' (rest [] d) ∧
      p' + (rest [] d).length = p + d.length ∧ (p' = p ↔ newline ∉ d) := by
  induction k generalizing p buf d out with
  | zero => exact absurd hk (Nat.not_lt_zero _)
  | succ k ih =>
    by_cases hnl : newline ∈ d
    · obtain ⟨l, d', rfl, hl⟩ := List.eq_append_cons_of_mem hnl
      rw [List.length_append, List.length_cons] at hk hfit ⊢
      obtain ⟨hlines, hrest⟩ := lines_first hl d'
      have hstr := hd.strchr_some hl (k := BUFSIZE - p) (by omega)
      have hline := hd.cut.cstring_eq (k := BUFSIZE - p) (by omega)
      have htail : Ended buf (p + l.length + 1) d' := hd.drop.tail.2
      have hkeep : ∀ x, ∀ i ≥ p + l.length + 1, Function.update buf (p + l.length) x i = buf i := fun x i hi =>
        Function.update_of_ne (by omega) ..
      -- the loop goes on behind the newline, whatever has been put in its place
      have hgo : ∀ x out, ∃ p' buf', scan pattern k (p + l.length + 1) (Function.update buf (p + l.length) x) out =
          (p', buf', out ++ selected pattern (lines [] d')) ∧ Ended buf' p' (rest [] d') ∧
          p' + (rest [] d').length = p + (l.length + (d'.length + 1)) ∧ (p' = p ↔ newline ∉ l ++ newline :: d') := by
        intro x out
        obtain ⟨p', buf', hscan, hended, hlen, -⟩ := @ih (Function.update buf (p + l.length) x) (p + l.length + 1) d' out
          (htail.congr (hkeep x)) (by omega) (by omega)
        have hrest := length_selected_nil [] d'
        rw [List.length_nil] at hrest
        refine ⟨p', buf', hscan, hended, by omega, fun hp => ?_, fun hno => absurd hnl hno⟩
        omega
      rw [scan, hstr]
      dsimp only
      rw [hline, hlines, hrest]
      by_cases hmatch : gmatch pattern l = true
      · obtain ⟨p', buf', hscan, hended⟩ := hgo newline (out ++ (l ++ [newline]))
        refine ⟨p', buf', ?_, hended⟩
        rw [if_pos hmatch, Function.update_idem, hd.line, hscan]
        simp [selected, hmatch]
      · obtain ⟨p', buf', hscan, hended⟩ := hgo 0 out
        refine ⟨p', buf', ?_, hended⟩
        rw [if_neg hmatch, hscan]
        simp [selected, hmatch]
    · have hstr := hd.strchr_none hnl (BUFSIZE - p)
      obtain ⟨hlines, hrest⟩ : lines [] d = [] ∧ rest [] d = [] ++ d := lines_of_not_mem hnl
      refine ⟨p, buf, ?_, ?_, ?_, ?_⟩
      · rw [scan, hstr, hlines]
        simp [selected]
      · rwa [hrest]
      · rw [hrest, List.nil_append]
      · exact ⟨fun _ => hnl, fun _ => rfl⟩

end Buffer

section Run
variable {s : State} {cur piece pattern : List UInt8} {pieces : List (List UInt8)}

/-- The beginning of a line is kept at the front of the buffer. -/
structure Kept (s : State) (cur : List UInt8) : Prop where
  bytes : slice s.buf 0 cur.length = cur
  m : s.m = cur.length
  free : 0 ∉ cur
  unfinished : newline ∉ cur

theorem Kept.read (h : Kept s cur) (h0 : 0 ∉ piece) :
    Ended (Function.update (store s.buf s.m piece) (s.m + piece.length) 0) 0 (cur ++ piece) := by
  refine ⟨?_, ?_, fun hmem => (List.mem_append.mp hmem).elim h.free h0⟩
  · have hkept : slice (store s.buf s.m piece) 0 cur.length = cur := by
      rw [slice_store_of_disjoint s.buf (.inl (by rw [h.m, Nat.zero_add])), h.bytes]
    have hpiece : slice (store s.buf s.m piece) s.m piece.length = piece := slice_store ..
    have hnul : slice (Function.update (store s.buf s.m piece) (s.m + piece.length) 0) 0 (cur ++ piece).length =
        slice (store s.buf s.m piece) 0 (cur ++ piece).length := by
      apply slice_congr
      intro i hi
      rw [List.length_append] at hi
      exact Function.update_of_ne (by rw [h.m]; omega) ..
    rw [hnul, List.length_append, slice_add, hkept, Nat.zero_add, ← h.m, hpiece]
  · rw [List.length_append, Nat.zero_add, ← h.m]
    exact Function.update_self ..

theorem lines_cur (hcur : newline ∉ cur) (a : List UInt8) : lines [] (cur ++ a) = lines cur a ∧ rest [] (cur ++ a) = rest cur a := by
  obtain ⟨hlines, hrest⟩ : lines [] cur = [] ∧ rest [] cur = [] ++ cur := lines_of_not_mem hcur
  rw [lines_append, rest_append, hlines, hrest]
  exact ⟨rfl, rfl⟩

/-- A piece with a newline ends lines, and the beginning of the next one is kept; another one is lost. -/
theorem Kept.chunk (pattern : List UInt8) (h : Kept s cur) (h0 : 0 ∉ piece) (hne : piece ≠ []) (hfit : piece.length ≤ BUFSIZE - s.m - 1) :
    if newline ∈ piece then (chunk pattern s piece).out = s.out ++ selected pattern (lines cur piece) ∧
        Kept (chunk pattern s piece) (rest cur piece)
      else (chunk pattern s piece).out = s.out ∧ Kept (chunk pattern s piece) [] := by
  have hpos := List.length_pos_iff.mpr hne
  have hlen : (cur ++ piece).length < BUFSIZE := by
    rw [List.length_append, ← h.m]
    omega
  obtain ⟨p, buf, hscan, hended, hend, hmoved⟩ := scan_spec pattern s.out BUFSIZE (h.read h0) hlen (by rwa [Nat.zero_add])
  obtain ⟨hlines, hrest⟩ := lines_cur h.unfinished piece
  rw [hlines] at hscan
  rw [hrest] at hended hend
  rw [List.length_append, ← h.m, Nat.zero_add] at hend
  have hchunk : Grep.chunk pattern s piece =
      if (if p = 0 then 0 else s.m + piece.length) > 0 then
        ⟨store buf 0 (slice buf p ((if p = 0 then 0 else s.m + piece.length) - p)),
          (if p = 0 then 0 else s.m + piece.length) - p, s.out ++ selected pattern (lines cur piece)⟩
      else ⟨buf, if p = 0 then 0 else s.m + piece.length, s.out ++ selected pattern (lines cur piece)⟩ := by
    unfold Grep.chunk
    dsimp only
    rw [hscan]
  by_cases hnl : newline ∈ piece
  · have hp : p ≠ 0 := fun hp => hmoved.mp hp (List.mem_append_right cur hnl)
    have hkeep : s.m + piece.length - p = (rest cur piece).length := by omega
    rw [if_pos hnl, hchunk, if_neg hp, if_pos (by omega), hkeep, hended.bytes]
    refine ⟨rfl, slice_store .., rfl, hended.free, newline_not_mem_rest h.unfinished⟩
  · have hp : p = 0 := hmoved.mpr fun hmem => (List.mem_append.mp hmem).elim h.unfinished hnl
    rw [if_neg hnl, hchunk, if_pos hp, if_neg (Nat.lt_irrefl 0), (lines_of_not_mem hnl).1]
    exact ⟨List.append_nil _, rfl, rfl, List.not_mem_nil, List.not_mem_nil⟩

/-- What the loop of `grep` writes is what the loop without a buffer writes. -/
theorem Kept.loop_out (h : Kept s cur) (hserved : Served pattern s pieces) (h0 : ∀ piece ∈ pieces, 0 ∉ piece) :
    (pieces.foldl (Grep.chunk pattern) s).out = s.out ++ written pattern cur pieces := by
  induction pieces generalizing s cur with
  | nil => exact (List.append_nil _).symm
  | cons piece pieces ih =>
    obtain ⟨hne, hfit, hlater⟩ := hserved
    obtain ⟨hpiece, hpieces⟩ := List.forall_mem_cons.mp h0
    have hchunk := h.chunk pattern hpiece hne hfit
    rw [List.foldl_cons, written]
    by_cases hnl : newline ∈ piece
    · rw [if_pos hnl] at hchunk ⊢
      rw [ih hchunk.2 hlater hpieces, hchunk.1, List.append_assoc]
    · rw [if_neg hnl] at hchunk ⊢
      rw [ih hchunk.2 hlater hpieces, hchunk.1]

theorem Served.ne_nil (h : Served pattern s pieces) : ∀ piece ∈ pieces, piece ≠ [] := by
  induction pieces generalizing s with
  | nil => exact fun piece hp => nomatch hp
  | cons piece pieces ih => exact List.forall_mem_cons.mpr ⟨h.1, ih h.2.2⟩

end Run

/-- Nothing is kept when `grep` begins. -/
theorem kept_start (s : State) : Kept { s with m := 0 } [] := ⟨rfl, rfl, List.not_mem_nil, List.not_mem_nil⟩

/-- `grep` writes the lines of its input that match, for every pattern, exactly when every piece that `read` returns
has a newline, apart from the pieces behind the last newline of the input. It makes no difference what earlier files
have left in the buffer. -/
theorem grep_lines_iff {s : State} {pieces : List (List UInt8)} (h0 : ∀ piece ∈ pieces, 0 ∉ piece)
    (hserved : ∀ pattern, Served pattern { s with m := 0 } pieces) :
    (∀ pattern, (grep pattern s pieces).out = s.out ++ selected pattern (lines [] pieces.flatten)) ↔ LineWise pieces := by
  have hout : ∀ pattern, (grep pattern s pieces).out = s.out ++ written pattern [] pieces := fun pattern =>
    (kept_start s).loop_out (hserved pattern) h0
  constructor
  · intro hall
    by_contra hlost
    have hlt := length_written_lt hlost (hserved []).ne_nil []
    rw [List.append_cancel_left ((hout []).symm.trans (hall []))] at hlt
    exact Nat.lt_irrefl _ hlt
  · intro hwise pattern
    rw [hout, written_eq hwise List.not_mem_nil]

/-- The zeroed buffer. -/
def start : State := ⟨fun _ => 0, 0, []⟩

/-- A second file in two reads, the first of which ends within the second line; of the first file a line without a
newline was left. -/
theorem grep_lines_twoReads : LineWise [[97, newline, 98], [99, newline]] ∧
    ∀ pattern, (grep pattern (grep [98] start [[98, newline, 98]]) [[97, newline, 98], [99, newline]]).out =
      [98, newline] ++ selected pattern [[97], [98, 99]] := by
  have hwise : LineWise [[97, newline, 98], [99, newline]] := ⟨.inl (by decide), .inl (by decide), trivial⟩
  have hserved : ∀ (s : State) pattern, Served pattern { s with m := 0 } [[97, newline, 98], [99, newline]] := by
    intro s pattern
    have hfit : [97, newline, 98].length ≤ BUFSIZE - 0 - 1 := by decide
    have hchunk := (kept_start s).chunk pattern (by decide : 0 ∉ [97, newline, 98]) (by decide) hfit
    rw [if_pos (by decide)] at hchunk
    refine ⟨by decide, hfit, by decide, ?_, trivial⟩
    rw [hchunk.2.m]
    decide
  have hfirst : (grep [98] start [[98, newline, 98]]).out = [98, newline] := by decide +kernel
  refine ⟨hwise, fun pattern => ?_⟩
  rw [← hfirst]
  exact (grep_lines_iff (by decide) (hserved _)).mpr hwise pattern

/-- The line `ab` comes in two pieces, and `grep a` does not find it. -/
theorem grep_loses_line : Served [97] start [[97], [98, newline]] ∧
    (grep [97] start [[97], [98, newline]]).out ≠ selected [97] (lines [] [97, 98, newline]) := by
  have heval : (chunk [97] start [97]).m = 0 ∧
      (grep [97] start [[97], [98, newline]]).out ≠ selected [97] (lines [] [97, 98, newline]) := by decide +kernel
  refine ⟨⟨by decide, by decide, by decide, ?_, trivial⟩, heval.2⟩
  rw [heval.1]
  decide

end Chameleon.Grep
