import Mathlib.Data.Nat.Digits.Lemmas
import Mathlib.Logic.Function.Basic

/-! `printint` of the kernel (`console.c`) and of the user library (`printf.c`), and `atoi` of
`ulib.c`. -/

namespace Chameleon.Str

/-- The characters of a string constant. -/
def chars (cs : List Char) : List UInt8 := cs.map fun c => UInt8.ofNat c.toNat

/-- `digits` of `console.c`. -/
def Kernel.digits : List UInt8 :=
  chars ['0', '1', '2', '3', '4', '5', '6', '7', '8', '9', 'a', 'b', 'c', 'd', 'e', 'f']

/-- `digits` of `printf.c`. -/
def User.digits : List UInt8 :=
  chars ['0', '1', '2', '3', '4', '5', '6', '7', '8', '9', 'A', 'B', 'C', 'D', 'E', 'F']

abbrev minus : UInt8 := 45

/-- `char buf[16]` and the index `i` of the next store into it. -/
structure NumBuf where
  buf : Nat → UInt8
  i : Nat

/-- `buf[i++] = c`, which must not be past `buf[15]`. -/
def NumBuf.put (b : NumBuf) (c : UInt8) : Option NumBuf :=
  if b.i < 16 then some ⟨Function.update b.buf b.i c, b.i + 1⟩ else none

/-- `do{ buf[i++] = digits[x % base]; }while((x /= base) != 0)`, cut off after `fuel` rounds. A round
fills a byte of `buf`, so that the loop ends or fails within seventeen rounds. -/
def digitLoop (digits : List UInt8) (base : UInt32) : Nat → NumBuf → UInt32 → Option NumBuf
  | 0, _, _ => none
  | fuel + 1, b, x =>
    (b.put (digits.getD (x % base).toNat 0)).bind fun b =>
      if x / base ≠ 0 then digitLoop digits base fuel b (x / base) else some b

/-- `while(--i >= 0) putc(buf[i])` -/
def flush (buf : Nat → UInt8) : Nat → List UInt8
  | 0 => []
  | i + 1 => buf i :: flush buf i

/-- What both functions do once they have the magnitude `x`: the characters that they pass on. The
bytes of `buf` are those that the stack holds. -/
def printDigits (digits : List UInt8) (buf : Nat → UInt8) (base : UInt32) (neg : Bool) (x : UInt32) :
    Option (List UInt8) :=
  (digitLoop digits base 17 ⟨buf, 0⟩ x).bind fun b =>
    (if neg then b.put minus else some b).map fun b => flush b.buf b.i

/-- `printint` of `console.c`: the characters for `consputc`. -/
def Kernel.printint (buf : Nat → UInt8) (xx base sign : Int32) : Option (List UInt8) :=
  -- `sign && (sign = xx < 0)`
  let sign : Int32 := if sign ≠ 0 then (if xx < 0 then 1 else 0) else sign
  let x : UInt32 := if sign ≠ 0 then (-xx).toUInt32 else xx.toUInt32
  printDigits Kernel.digits buf base.toUInt32 (sign ≠ 0) x

/-- `printint` of `printf.c`: the characters for `putc`. -/
def User.printint (buf : Nat → UInt8) (xx base sgn : Int32) : Option (List UInt8) :=
  if sgn ≠ 0 ∧ xx < 0 then printDigits User.digits buf base.toUInt32 true (-xx).toUInt32
  else printDigits User.digits buf base.toUInt32 false xx.toUInt32

/-- The loop of `atoi` at the rest `s` of the string. A `char` above 127 is negative, and no digit. -/
def atoiLoop (n : Int32) : List UInt8 → Int32
  | [] => n
  | c :: s =>
    if 48 ≤ c ∧ c ≤ 57 then atoiLoop (n * 10 + Int32.ofNat c.toNat - 48) s else n

/-- `atoi` of `ulib.c`. -/
def atoi (s : List UInt8) : Int32 := atoiLoop 0 s

section Numeral

/-- The digits of `v`, the least significant first; those of zero are not empty. -/
def digitsOf (base v : Nat) : List Nat := if v = 0 then [0] else Nat.digits base v

/-- The character for a digit, with `letter` for ten. -/
def digitChar (letter : UInt8) (d : Nat) : UInt8 :=
  if d < 10 then 48 + UInt8.ofNat d else letter + UInt8.ofNat (d - 10)

/-- Digits, the most significant first, that stand for `v` without leading zeros. -/
structure Canonical (base v : Nat) (ds : List Nat) : Prop where
  ne_nil : ds ≠ []
  lt_base : ∀ d ∈ ds, d < base
  value : Nat.ofDigits base ds.reverse = v
  no_leading_zero : ds.head? = some 0 → ds = [0]

/-- The string is the canonical numeral of `z`. -/
def IsNumeral (letter : UInt8) (base : Nat) (z : Int) (out : List UInt8) : Prop :=
  ∃ ds, Canonical base z.natAbs ds ∧
    out = (if z < 0 then [minus] else []) ++ ds.map (digitChar letter)

variable {base v : Nat}

theorem digitsOf_eq (hb : 1 < base) (v : Nat) :
    digitsOf base v = v % base :: if v / base ≠ 0 then digitsOf base (v / base) else [] := by
  unfold digitsOf
  rcases Nat.eq_zero_or_pos v with rfl | hv
  · simp
  · rw [if_neg hv.ne', Nat.digits_def' hb hv]
    split_ifs with h
    · rfl
    · rw [not_not.mp h, Nat.digits_zero]

theorem canonical_digitsOf (hb : 1 < base) (v : Nat) : Canonical base v (digitsOf base v).reverse := by
  unfold digitsOf
  split_ifs with hv
  · subst hv
    exact ⟨by simp, by simpa using Nat.zero_lt_of_lt hb, by simp, fun _ => rfl⟩
  · refine ⟨?_, fun d hd => Nat.digits_lt_base hb (List.mem_reverse.mp hd), ?_, fun h => ?_⟩
    · simpa using Nat.digits_ne_nil_iff_ne_zero.mpr hv
    · rw [List.reverse_reverse, Nat.ofDigits_digits]
    · have hlast := Nat.getLast_digit_ne_zero base hv
      rw [List.head?_reverse, List.getLast?_eq_some_getLast (Nat.digits_ne_nil_iff_ne_zero.mpr hv),
        Option.some.injEq] at h
      exact absurd h hlast

theorem length_digitsOf_le (hb : 1 < base) {k : Nat} (hk : 0 < k) (hv : v < base ^ k) :
    (digitsOf base v).length ≤ k := by
  unfold digitsOf
  split_ifs
  · exact hk
  · exact (Nat.digits_length_le_iff hb v).mpr hv

end Numeral

section Print

variable {digits : List UInt8} {base x : UInt32} {b : NumBuf}

theorem flush_update (buf : Nat → UInt8) (c : UInt8) {i j : Nat} (h : i ≤ j) :
    flush (Function.update buf j c) i = flush buf i := by
  induction i with
  | zero => rfl
  | succ i ih => rw [flush, flush, ih (by omega), Function.update_of_ne (by omega)]

theorem put_eq (h : b.i < 16) (c : UInt8) : ∃ b', b.put c = some b' ∧ b'.i = b.i + 1 ∧
    flush b'.buf b'.i = c :: flush b.buf b.i := by
  refine ⟨_, if_pos h, rfl, ?_⟩
  change Function.update b.buf b.i c b.i :: flush (Function.update b.buf b.i c) b.i = _
  rw [Function.update_self, flush_update _ _ (Nat.le_refl _)]

/-- The loop stores the digits of `x`, which come out in the order of the numeral. -/
theorem digitLoop_eq (digits : List UInt8) (hbase : 1 < base.toNat) {fuel : Nat}
    (hfuel : (digitsOf base.toNat x.toNat).length ≤ fuel)
    (hroom : b.i + (digitsOf base.toNat x.toNat).length ≤ 16) :
    ∃ b', digitLoop digits base fuel b x = some b' ∧
      b'.i = b.i + (digitsOf base.toNat x.toNat).length ∧
      flush b'.buf b'.i =
        (digitsOf base.toNat x.toNat).reverse.map (fun d => digits.getD d 0) ++ flush b.buf b.i := by
  induction fuel generalizing b x with
  | zero =>
    rw [digitsOf_eq hbase] at hfuel
    simp at hfuel
  | succ fuel ih =>
    have hdiv : (x / base ≠ 0) ↔ x.toNat / base.toNat ≠ 0 := by
      rw [← UInt32.toNat_div, ne_eq, ne_eq, ← UInt32.toNat_inj]
      rfl
    rw [digitsOf_eq hbase] at hfuel hroom ⊢
    obtain ⟨b₁, hput, hi, hflush⟩ := put_eq (b := b) (by rw [List.length_cons] at hroom; omega)
      (digits.getD (x % base).toNat 0)
    rw [digitLoop, hput, Option.bind_some]
    rw [UInt32.toNat_mod] at hflush
    by_cases hmore : x / base ≠ 0
    · rw [if_pos hmore]
      rw [if_pos (hdiv.mp hmore), List.length_cons, ← UInt32.toNat_div] at hfuel hroom ⊢
      obtain ⟨b', hloop, hi', hflush'⟩ := ih (b := b₁) (x := x / base) (by omega) (by omega)
      refine ⟨b', hloop, by omega, ?_⟩
      rw [hflush', hflush, List.reverse_cons, List.map_append, List.append_assoc]
      rfl
    · rw [if_neg hmore]
      rw [if_neg (mt hdiv.mpr hmore)]
      exact ⟨b₁, rfl, hi, hflush⟩

/-- Both tables have the characters of the digits, and differ in the letters. -/
def Table (digits : List UInt8) (letter : UInt8) : Prop := ∀ d < 16, digits.getD d 0 = digitChar letter d

theorem Kernel.digits_table : Table Kernel.digits 97 := by
  unfold Table
  decide

theorem User.digits_table : Table User.digits 65 := by
  unfold Table
  decide

theorem printDigits_eq {letter : UInt8} (htable : Table digits letter) (buf : Nat → UInt8)
    (hbase : base = 10 ∨ base = 16) (neg : Bool) (x : UInt32) :
    printDigits digits buf base neg x = some ((if neg then [minus] else []) ++
      (digitsOf base.toNat x.toNat).reverse.map (digitChar letter)) := by
  have hone : 1 < base.toNat := by rcases hbase with rfl | rfl <;> decide
  have hsixteen : base.toNat ≤ 16 := by rcases hbase with rfl | rfl <;> decide
  have hpow : 2 ^ 32 ≤ base.toNat ^ 10 := by rcases hbase with rfl | rfl <;> decide
  have hlen : (digitsOf base.toNat x.toNat).length ≤ 10 :=
    length_digitsOf_le hone (by decide) (Nat.lt_of_lt_of_le x.toNat_lt hpow)
  have hchars : (digitsOf base.toNat x.toNat).reverse.map (fun d => digits.getD d 0) =
      (digitsOf base.toNat x.toNat).reverse.map (digitChar letter) := by
    refine List.map_congr_left fun d hd => htable d ?_
    exact Nat.lt_of_lt_of_le ((canonical_digitsOf hone x.toNat).lt_base d hd) hsixteen
  obtain ⟨b, hloop, hi, hflush⟩ := digitLoop_eq digits (b := ⟨buf, 0⟩) hone
    (Nat.le_trans hlen (by decide : 10 ≤ 17)) (by change 0 + _ ≤ 16; omega)
  have hroom : b.i < 16 := by
    rw [hi]
    change 0 + _ < 16
    omega
  rw [hchars, show flush (NumBuf.mk buf 0).buf (NumBuf.mk buf 0).i = [] from rfl, List.append_nil] at hflush
  rw [printDigits, hloop, Option.bind_some]
  cases neg with
  | false => simp [hflush]
  | true =>
    obtain ⟨b', hput, _, hflush'⟩ := put_eq hroom minus
    simp [hput, hflush', hflush]

/-- The number that is printed. -/
def printed (xx sign : Int32) : Int := if sign ≠ 0 ∧ xx < 0 then xx.toInt else xx.toUInt32.toNat

/-- The negated word, read without a sign, is the magnitude; that of the least integer, too. -/
theorem toNat_neg_toUInt32 {xx : Int32} (h : xx < 0) : (-xx).toUInt32.toNat = xx.toInt.natAbs := by
  have hneg : xx.toInt < 0 := Int32.lt_iff_toInt_lt.mp h
  have hnat : (-xx).toUInt32.toNat = (-xx.toBitVec).toNat := rfl
  have hint : xx.toInt = xx.toBitVec.toInt := rfl
  have hlt := xx.toBitVec.isLt
  rw [hint, BitVec.toInt_eq_toNat_cond] at hneg
  rw [hnat, hint, BitVec.toInt_eq_toNat_cond, BitVec.toNat_neg]
  split_ifs at hneg ⊢ <;> omega

/-- The string that both functions print, but for the letters. -/
def numeral (letter : UInt8) (base : Nat) (z : Int) : List UInt8 :=
  (if z < 0 then [minus] else []) ++ (digitsOf base z.natAbs).reverse.map (digitChar letter)

theorem isNumeral_numeral (letter : UInt8) {base : Nat} (hb : 1 < base) (z : Int) :
    IsNumeral letter base z (numeral letter base z) :=
  ⟨_, canonical_digitsOf hb z.natAbs, rfl⟩

theorem signed_eq {letter : UInt8} (htable : Table digits letter) (buf : Nat → UInt8) (xx sign : Int32)
    (hbase : base = 10 ∨ base = 16) :
    (if sign ≠ 0 ∧ xx < 0 then printDigits digits buf base true (-xx).toUInt32
      else printDigits digits buf base false xx.toUInt32) =
      some (numeral letter base.toNat (printed xx sign)) := by
  unfold printed
  split_ifs with hneg
  · have hlt : xx.toInt < 0 := Int32.lt_iff_toInt_lt.mp hneg.2
    rw [printDigits_eq htable buf hbase, toNat_neg_toUInt32 hneg.2, numeral, if_pos hlt]
    rfl
  · have hge : ¬(xx.toUInt32.toNat : Int) < 0 := Int.not_lt.mpr (Int.natCast_nonneg _)
    rw [printDigits_eq htable buf hbase, numeral, if_neg hge]
    rfl

/-- The kernel reuses `sign` for what the user library has in `neg`. -/
theorem Kernel.printint_branch (buf : Nat → UInt8) (xx base sign : Int32) :
    Kernel.printint buf xx base sign =
      if sign ≠ 0 ∧ xx < 0 then printDigits Kernel.digits buf base.toUInt32 true (-xx).toUInt32
      else printDigits Kernel.digits buf base.toUInt32 false xx.toUInt32 := by
  unfold Kernel.printint
  by_cases hsign : sign = 0
  · simp [hsign]
  · by_cases hxx : xx < 0
    · simp [hsign, hxx]
    · simp [hsign, hxx]

/-- A string without a digit at its front. -/
def Stops (s : List UInt8) : Prop := ∀ c ∈ s.head?, ¬(48 ≤ c ∧ c ≤ 57)

theorem atoiLoop_digit (letter : UInt8) {d : Nat} (hd : d < 10) (a : Nat) (s : List UInt8) :
    atoiLoop (Int32.ofNat a) (digitChar letter d :: s) = atoiLoop (Int32.ofNat (a * 10 + d)) s := by
  have hchar : (digitChar letter d).toNat = 48 + d := by
    rw [digitChar, if_pos hd, UInt8.toNat_add, UInt8.toNat_ofNat']
    change (48 + d % 2 ^ 8) % 2 ^ 8 = 48 + d
    omega
  have hdigit : 48 ≤ digitChar letter d ∧ digitChar letter d ≤ 57 := by
    rw [UInt8.le_iff_toNat_le, UInt8.le_iff_toNat_le, hchar]
    change 48 ≤ 48 + d ∧ 48 + d ≤ 57
    omega
  have hnext : Int32.ofNat a * 10 + Int32.ofNat (48 + d) - 48 = Int32.ofNat (a * 10 + d) := by
    rw [Nat.add_comm 48, Int32.ofNat_add d, ← Int32.add_assoc, Int32.ofNat_add, Int32.ofNat_mul]
    exact Int32.add_sub_cancel _ 48
  rw [atoiLoop, if_pos hdigit, hchar, hnext]

theorem atoiLoop_eq (letter : UInt8) {ds : List Nat} (hds : ∀ d ∈ ds, d < 10) {s : List UInt8}
    (hs : Stops s) (a : Nat) :
    atoiLoop (Int32.ofNat a) (ds.map (digitChar letter) ++ s) =
      Int32.ofNat (ds.foldl (fun a d => a * 10 + d) a) := by
  induction ds generalizing a with
  | nil =>
    cases s with
    | nil => rfl
    | cons c s => exact if_neg (hs c rfl)
  | cons d ds ih =>
    rw [List.forall_mem_cons] at hds
    rw [List.map_cons, List.cons_append, atoiLoop_digit letter hds.1, ih hds.2]
    rfl

/-- `atoi` reads back what stands for a number below `2 ^ 31`, and more generally for a word. -/
theorem atoi_numeral (letter : UInt8) (v : Nat) {s : List UInt8} (hs : Stops s) :
    atoi (numeral letter 10 v ++ s) = Int32.ofNat v := by
  have hcanonical := canonical_digitsOf (by decide : 1 < 10) v
  have hge : ¬(v : Int) < 0 := Int.not_lt.mpr (Int.natCast_nonneg v)
  have hvalue : (digitsOf 10 v).reverse.foldl (fun a d => a * 10 + d) 0 = v := by
    have hv := hcanonical.value
    rw [Nat.ofDigits_eq_foldr, List.foldr_reverse] at hv
    conv_rhs => rw [← hv]
    refine congrArg (fun f => List.foldl f 0 _) ?_
    funext a d
    rw [Nat.cast_id, Nat.mul_comm, Nat.add_comm]
  rw [numeral, if_neg hge, Int.natAbs_natCast, List.nil_append]
  exact (atoiLoop_eq letter hcanonical.lt_base hs 0).trans (congrArg Int32.ofNat hvalue)

/-- Upper case, of the letters. -/
def upper (c : UInt8) : UInt8 := if 97 ≤ c ∧ c ≤ 122 then c - 32 else c

theorem upper_digitChar {d : Nat} (hd : d < 16) : upper (digitChar 97 d) = digitChar 65 d := by
  revert d
  decide

theorem map_upper_numeral {base : Nat} (hb : 1 < base) (hle : base ≤ 16) (z : Int) :
    (numeral 97 base z).map upper = numeral 65 base z := by
  have hsign : (if z < 0 then [minus] else []).map upper = if z < 0 then [minus] else [] := by
    split_ifs <;> rfl
  rw [numeral, numeral, List.map_append, hsign, List.map_map]
  refine congrArg _ (List.map_congr_left fun d hd => ?_)
  exact upper_digitChar (Nat.lt_of_lt_of_le ((canonical_digitsOf hb z.natAbs).lt_base d hd) hle)

/-- Both functions return, print the canonical numeral and differ in the case of letters only; `atoi`
takes the decimal numeral of a nonnegative integer back to it. -/
theorem printint_exact (buf buf' : Nat → UInt8) (xx base sign : Int32) (hbase : base = 10 ∨ base = 16) :
    ∃ k u, Kernel.printint buf xx base sign = some k ∧ User.printint buf' xx base sign = some u ∧
      IsNumeral 97 base.toInt.toNat (printed xx sign) k ∧
      IsNumeral 65 base.toInt.toNat (printed xx sign) u ∧ k.map upper = u ∧
      (base = 10 → 0 ≤ xx → ∀ s, atoi (k ++ 0 :: s) = xx ∧ atoi (u ++ 0 :: s) = xx) := by
  have hbase' : base.toUInt32 = 10 ∨ base.toUInt32 = 16 := by
    rcases hbase with rfl | rfl
    · exact .inl rfl
    · exact .inr rfl
  have htoNat : base.toInt.toNat = base.toUInt32.toNat := by rcases hbase with rfl | rfl <;> rfl
  have hone : 1 < base.toUInt32.toNat := by rcases hbase with rfl | rfl <;> decide
  have hle : base.toUInt32.toNat ≤ 16 := by rcases hbase with rfl | rfl <;> decide
  rw [htoNat]
  refine ⟨_, _, (Kernel.printint_branch ..).trans (signed_eq Kernel.digits_table buf xx sign hbase'),
    signed_eq User.digits_table buf' xx sign hbase', isNumeral_numeral 97 hone _,
    isNumeral_numeral 65 hone _, map_upper_numeral hone hle _, ?_⟩
  rintro rfl hxx s
  have hprinted : printed xx sign = (xx.toUInt32.toNat : Int) :=
    if_neg fun h => absurd h.2 (Int32.not_lt.mpr hxx)
  have hword : Int32.ofNat xx.toUInt32.toNat = xx := by
    apply Int32.toBitVec_inj.mp
    exact BitVec.ofNat_toNat ..
  have hstops : Stops (0 :: s) := by
    intro c hc
    obtain rfl : 0 = c := Option.some.inj hc
    decide
  rw [hprinted]
  exact ⟨(atoi_numeral 97 _ hstops).trans hword, (atoi_numeral 65 _ hstops).trans hword⟩

/-- The least integer in decimal. -/
theorem printint_exact_minInt : ∃ k u,
    Kernel.printint (fun _ => 0) Int32.minValue 10 1 = some k ∧
      User.printint (fun _ => 0) Int32.minValue 10 1 = some u ∧
      IsNumeral 97 10 (-2147483648) k ∧ IsNumeral 65 10 (-2147483648) u ∧ k.map upper = u := by
  obtain ⟨k, u, hk, hu, hnk, hnu, hupper, _⟩ :=
    printint_exact (fun _ => 0) (fun _ => 0) Int32.minValue 10 1 (.inl rfl)
  exact ⟨k, u, hk, hu, hnk, hnu, hupper⟩

end Print

end Chameleon.Str
