import Mathlib.Data.Nat.Find
import Chameleon.Lib.Bytes
import Chameleon.Vm.Layout

/-! `copyout` of `vm.c`, for every page directory. The modules on address spaces keep physical
memory in two views: the entries of page directories and page tables, by the physical address of
their page, and the bytes of all other pages. In one memory a page can be both, and then `copyout`
can change the tables that it walks. -/

namespace Chameleon.Vm

structure Mem where
  /-- Entry `i` of the page directory or page table at physical address `pa`. -/
  entry : Nat → Nat → Nat
  byte : Nat → UInt8

/-- The two views of one memory. -/
def Mem.of (ram : Nat → UInt8) : Mem where
  entry := fun pa i => Bytes.number (Bytes.slice ram (pa + 4 * i) 4)
  byte := ram

def Mem.setBytes (m : Mem) (f : Nat → UInt8) : Mem := { m with byte := f }

@[simp] theorem Mem.setBytes_byte (m : Mem) (f : Nat → UInt8) : (m.setBytes f).byte = f := rfl
@[simp] theorem Mem.setBytes_self (m : Mem) : m.setBytes m.byte = m := rfl
@[simp] theorem Mem.setBytes_setBytes (m : Mem) (f g : Nat → UInt8) :
    (m.setBytes f).setBytes g = m.setBytes g := rfl

/-- Reading through a null page-table pointer. -/
inductive Fault
  | nullPte
  deriving DecidableEq

/-- `walkpgdir(pgdir, va, 0)`: the page table and index of the entry for `va`, if the page
table exists. -/
def walkpgdir (m : Mem) (pgdir va : Nat) : Option (Nat × Nat) :=
  if present (m.entry pgdir (PDX va)) then
    some (PTE_ADDR (m.entry pgdir (PDX va)), PTX va)
  else none

/-- `uva2ka`: the physical address behind the kernel address it returns, `none` for 0. The
code dereferences the result of `walkpgdir` without testing it; `null` is what the null pointer
reads. -/
def uva2ka (null : Except Fault Nat) (m : Mem) (pgdir uva : Nat) : Except Fault (Option Nat) :=
  ((walkpgdir m pgdir uva).elim null fun ti => .ok (m.entry ti.1 ti.2)).map fun pte =>
    if !present pte then none
    else if !user pte then none
    else some (PTE_ADDR pte)

/-- `copyout(pgdir, va, p, len)` for a buffer of `len` bytes, where `set` replaces the bytes of
the memory. -/
def copyout (set : Mem → (Nat → UInt8) → Mem) (null : Except Fault Nat) (m : Mem) (pgdir va : Nat)
    (buf : List UInt8) : Except Fault Int × Mem :=
  if _hlen : buf = [] then (.ok 0, m)
  else
    let va0 := PGROUNDDOWN va
    match uva2ka null m pgdir va0 with
    | .error f => (.error f, m)
    | .ok none => (.ok (-1), m)
    | .ok (some pa0) =>
      let n := min (PGSIZE - (va - va0)) buf.length
      copyout set null (set m (Bytes.store m.byte (pa0 + (va - va0)) (buf.take n))) pgdir
        ((va0 + PGSIZE) % WORD) (buf.drop n)
termination_by buf.length
decreasing_by
  have hpos : 0 < buf.length := List.length_pos_of_ne_nil _hlen
  have hoff : va % PGSIZE < PGSIZE := Nat.mod_lt _ (by decide)
  rw [List.length_drop, sub_PGROUNDDOWN]
  omega

/-! ## The byte-by-byte reading of the loop -/

/-- What the hardware-style walk says about one user address. -/
inductive Access
  | noTable
  | denied
  | granted (pa : Nat)

section Bytewise
variable {null : Except Fault Nat}

def access (null : Except Fault Nat) (m : Mem) (pgdir a : Nat) : Access :=
  match uva2ka null m pgdir (PGROUNDDOWN a) with
  | .error _ => .noTable
  | .ok none => .denied
  | .ok (some pa0) => .granted (pa0 + a % PGSIZE)

def copyBytes (null : Except Fault Nat) (m : Mem) (pgdir : Nat) :
    Nat → List UInt8 → Except Fault Int × Mem
  | _, [] => (.ok 0, m)
  | va, b :: bs =>
    match access null m pgdir va with
    | .noTable => (.error .nullPte, m)
    | .denied => (.ok (-1), m)
    | .granted pa =>
      copyBytes null (m.setBytes (Function.update m.byte pa b)) pgdir ((va + 1) % WORD) bs

theorem access_byte (m : Mem) (f : Nat → UInt8) (pgdir a : Nat) :
    access null (m.setBytes f) pgdir a = access null m pgdir a := rfl

theorem access_of_granted {m : Mem} {pgdir va pa0 : Nat}
    (h : uva2ka null m pgdir (PGROUNDDOWN va) = .ok (some pa0)) {i : Nat}
    (hi : va % PGSIZE + i < PGSIZE) : access null m pgdir (va + i) = .granted (pa0 + va % PGSIZE + i) := by
  have hoff : (va + i) % PGSIZE = va % PGSIZE + i := by
    rw [Nat.add_mod, Nat.mod_eq_of_lt (a := i) (by omega), Nat.mod_eq_of_lt hi]
  rw [access, PGROUNDDOWN_add hi, h]
  simp only [hoff, Nat.add_assoc]

/-- Inside one granted page, copying a chunk at once is copying it byte by byte. -/
theorem copyBytes_chunk {m : Mem} {pgdir va pa0 : Nat} {buf : List UInt8} (hva : va < WORD)
    (h : uva2ka null m pgdir (PGROUNDDOWN va) = .ok (some pa0)) {n : Nat} (hn : n ≤ buf.length)
    (hpage : va % PGSIZE + n ≤ PGSIZE) :
    copyBytes null m pgdir va buf =
      copyBytes null (m.setBytes (Bytes.store m.byte (pa0 + va % PGSIZE) (buf.take n)))
        pgdir ((va + n) % WORD) (buf.drop n) := by
  induction n with
  | zero => simp [Nat.mod_eq_of_lt hva]
  | succ n ih =>
    rw [ih (by omega) (by omega)]
    have hlt : n < buf.length := hn
    have hwrap : (va + n) % WORD = va + n := Nat.mod_eq_of_lt (by unfold WORD PGSIZE at *; omega)
    have htake : buf.take (n + 1) = buf.take n ++ [buf[n]] := by simp
    have hlen : (buf.take n).length = n := List.length_take_of_le (by omega)
    rw [List.drop_eq_getElem_cons hlt, copyBytes, access_byte, hwrap,
      access_of_granted h (by omega), htake, Bytes.store_concat, hlen, Nat.add_assoc va n 1]
    simp only [Mem.setBytes_setBytes, Mem.setBytes_byte]

theorem copyout_eq_copyBytes (m : Mem) (pgdir va : Nat) (hva : va < WORD) (buf : List UInt8) :
    copyout Mem.setBytes null m pgdir va buf = copyBytes null m pgdir va buf := by
  fun_induction copyout Mem.setBytes null m pgdir va buf with
  | case1 m va => rfl
  | case2 m va buf hne va0 f h =>
    obtain ⟨b, bs, rfl⟩ := List.exists_cons_of_ne_nil hne
    cases f
    rw [copyBytes, access, h]
  | case3 m va buf hne va0 h =>
    obtain ⟨b, bs, rfl⟩ := List.exists_cons_of_ne_nil hne
    rw [copyBytes, access, h]
  | case4 m va buf hne va0 pa0 h n ih =>
    have hoff : va - va0 = va % PGSIZE := sub_PGROUNDDOWN va
    have hlt : va % PGSIZE < PGSIZE := Nat.mod_lt _ (by decide)
    rw [copyBytes_chunk hva h (n := n) (Nat.min_le_right _ _) (by omega), ih (Nat.mod_lt _ (by decide)),
      hoff]
    by_cases hfull : buf.length ≤ n
    · simp only [List.drop_eq_nil_of_le hfull, copyBytes]
    · have hn : va + n = va0 + PGSIZE := by
        have := PGROUNDDOWN_add_mod va
        simp only [n, va0] at *
        omega
      rw [hn]

end Bytewise

/-! ## The range of a call

The addresses of the range are taken in order, modulo `2 ^ 32`. -/

/-- The page-table entry that translates `a`, when its page table exists. -/
def pteOf (m : Mem) (pgdir a : Nat) : Option Nat :=
  (walkpgdir m pgdir a).map fun ti => m.entry ti.1 ti.2

/-- The page of `a` is present with `PTE_U`. -/
def UserMapped (m : Mem) (pgdir a : Nat) : Prop :=
  ∃ pte, pteOf m pgdir a = some pte ∧ present pte ∧ user pte

/-- The physical byte behind a mapped address. -/
def physAddr (m : Mem) (pgdir a : Nat) : Nat :=
  (pteOf m pgdir a).elim 0 fun pte => PTE_ADDR pte + a % PGSIZE

theorem pteOf_PGROUNDDOWN (m : Mem) (pgdir a : Nat) :
    pteOf m pgdir (PGROUNDDOWN a) = pteOf m pgdir a := by
  simp only [pteOf, walkpgdir, PDX_PGROUNDDOWN, PTX_PGROUNDDOWN]

section Range
variable {null : Except Fault Nat} {m : Mem} {pgdir a : Nat}

theorem access_of_userMapped (h : UserMapped m pgdir a) :
    access null m pgdir a = .granted (physAddr m pgdir a) := by
  obtain ⟨pte, hpte, hp, hu⟩ := h
  rw [physAddr, hpte]
  rw [← pteOf_PGROUNDDOWN] at hpte
  obtain ⟨ti, hwalk, rfl⟩ := Option.map_eq_some_iff.mp hpte
  simp [access, uva2ka, hwalk, Except.map, hp, hu]

/-- An address that is not mapped for the user, where the null pointer does not read as the entry
of a user page. -/
theorem access_of_not_userMapped (hnull : ∀ w, null = .ok w → ¬ (present w ∧ user w))
    (h : ¬ UserMapped m pgdir a) : access null m pgdir a =
      if (walkpgdir m pgdir a).isSome then .denied else null.casesOn (fun _ => .noTable) fun _ => .denied := by
  have hwalk : walkpgdir m pgdir (PGROUNDDOWN a) = walkpgdir m pgdir a := by
    simp only [walkpgdir, PDX_PGROUNDDOWN, PTX_PGROUNDDOWN]
  have hdenied : ∀ w, ¬ (present w ∧ user w) →
      (if !present w then none else if !user w then none else some (PTE_ADDR w)) = none := by
    intro w hw
    cases hp : present w <;> cases hu : user w <;> simp_all
  unfold access uva2ka
  rw [hwalk]
  cases hw : walkpgdir m pgdir a with
  | none =>
    cases null with
    | error f => rfl
    | ok w =>
      simp only [Option.elim_none, Except.map, hdenied w (hnull w rfl)]
      rfl
  | some ti =>
    have hno : ¬ (present (m.entry ti.1 ti.2) ∧ user (m.entry ti.1 ti.2)) := fun hpu =>
      h ⟨_, by rw [pteOf, hw]; rfl, hpu⟩
    simp only [Option.elim_some, Except.map, hdenied _ hno]
    rfl

end Range

/-- As long as the range is mapped, the bytes of the buffer go to its physical addresses. -/
theorem copyBytes_mapped {null : Except Fault Nat} {m : Mem} {pgdir va : Nat} (hva : va < WORD) (buf : List UInt8) {k : Nat}
    (hk : k ≤ buf.length) (h : ∀ i < k, UserMapped m pgdir ((va + i) % WORD)) :
    copyBytes null m pgdir va buf =
      copyBytes null (m.setBytes
          (Bytes.scatter m.byte (fun i => physAddr m pgdir ((va + i) % WORD)) buf k))
        pgdir ((va + k) % WORD) (buf.drop k) := by
  induction k with
  | zero => simp [Bytes.scatter, Nat.mod_eq_of_lt hva]
  | succ k ih =>
    have hlt : k < buf.length := hk
    rw [ih (by omega) fun i hi => h i (by omega), List.drop_eq_getElem_cons hlt, copyBytes,
      access_byte, access_of_userMapped (h k (Nat.lt_succ_self k))]
    simp only [Bytes.scatter, List.getD_eq_getElem _ _ hlt, Nat.mod_add_mod, Nat.add_assoc,
      Mem.setBytes_setBytes, Mem.setBytes_byte]

/-! ## The contract of `copyout` -/

section Outcome
variable {null : Except Fault Nat} {m : Mem} {pgdir va : Nat} {buf : List UInt8}

/-- The bytes of memory after the first `k` bytes of the buffer have been copied. -/
def copied (m : Mem) (pgdir va : Nat) (buf : List UInt8) (k : Nat) : Nat → UInt8 :=
  Bytes.scatter m.byte (fun i => physAddr m pgdir ((va + i) % WORD)) buf k

theorem copyout_of_mapped (hva : va < WORD)
    (h : ∀ i < buf.length, UserMapped m pgdir ((va + i) % WORD)) :
    copyout Mem.setBytes null m pgdir va buf = (.ok 0, m.setBytes (copied m pgdir va buf buf.length)) := by
  rw [copyout_eq_copyBytes m pgdir va hva, copyBytes_mapped hva buf le_rfl h, List.drop_length,
    copyBytes, copied]

theorem copyout_of_unmapped (hnull : ∀ w, null = .ok w → ¬ (present w ∧ user w)) (hva : va < WORD) {i : Nat}
    (hi : i < buf.length)
    (h : ∀ j < i, UserMapped m pgdir ((va + j) % WORD))
    (hun : ¬ UserMapped m pgdir ((va + i) % WORD)) :
    copyout Mem.setBytes null m pgdir va buf =
      (if (walkpgdir m pgdir ((va + i) % WORD)).isSome then .ok (-1) else null.map fun _ => -1,
        m.setBytes (copied m pgdir va buf i)) := by
  rw [copyout_eq_copyBytes m pgdir va hva, copyBytes_mapped hva buf hi.le h,
    List.drop_eq_getElem_cons hi, copyBytes, access_byte, access_of_not_userMapped hnull hun]
  split_ifs
  · rfl
  · rcases null with ⟨⟨⟩⟩ | w <;> rfl

/-- The first address of the range that is not mapped for the user, if there is one. -/
theorem mapped_or_first (m : Mem) (pgdir va : Nat) (buf : List UInt8) :
    (∀ i < buf.length, UserMapped m pgdir ((va + i) % WORD)) ∨
    ∃ i < buf.length, (∀ j < i, UserMapped m pgdir ((va + j) % WORD)) ∧
      ¬ UserMapped m pgdir ((va + i) % WORD) := by
  classical
  by_cases hall : ∀ i < buf.length, UserMapped m pgdir ((va + i) % WORD)
  · exact .inl hall
  · have hex : ∃ i, i < buf.length ∧ ¬ UserMapped m pgdir ((va + i) % WORD) := by
      simpa only [not_forall, exists_prop] using hall
    refine .inr ⟨Nat.find hex, (Nat.find_spec hex).1, fun j hj => ?_, (Nat.find_spec hex).2⟩
    by_contra hun
    exact Nat.find_min hex hj ⟨lt_trans hj (Nat.find_spec hex).1, hun⟩

end Outcome

/-! ## One memory -/

section OneMemory
variable {m m' : Mem} {pgdir va : Nat} {buf : List UInt8}

/-- The page directory `pgdir` and its page tables, by physical address. -/
def IsTable (m : Mem) (pgdir f : Nat) : Prop :=
  f = pgdir ∨ ∃ i < NPDENTRIES, present (m.entry pgdir i) ∧ f = PTE_ADDR (m.entry pgdir i)

/-- Two memories with the same tables of `pgdir`. -/
def SameTables (m m' : Mem) (pgdir : Nat) : Prop :=
  ∀ f, IsTable m pgdir f → ∀ i < NPTENTRIES, m'.entry f i = m.entry f i

theorem SameTables.walkpgdir (h : SameTables m m' pgdir) (a : Nat) :
    walkpgdir m' pgdir a = walkpgdir m pgdir a := by
  unfold Vm.walkpgdir
  rw [h pgdir (.inl rfl) _ (PDX_lt a)]

theorem SameTables.uva2ka (h : SameTables m m' pgdir) (null : Except Fault Nat) (a : Nat) :
    uva2ka null m' pgdir a = uva2ka null m pgdir a := by
  unfold Vm.uva2ka
  rw [h.walkpgdir]
  cases hw : Vm.walkpgdir m pgdir a with
  | none => rfl
  | some ti =>
    unfold Vm.walkpgdir at hw
    split at hw
    case isTrue hp =>
      obtain rfl := Option.some.inj hw
      rw [Option.elim_some, Option.elim_some, h _ (.inr ⟨_, PDX_lt a, hp, rfl⟩) _ (PTX_lt a)]
    case isFalse => cases hw

/-- A store that avoids the tables. -/
theorem SameTables.store (h : SameTables m (.of m.byte) pgdir) {x : Nat} {bs : List UInt8}
    (hx : ∀ i < bs.length, ∀ f, IsTable m pgdir f → ¬ (f ≤ x + i ∧ x + i < f + PGSIZE)) :
    SameTables (m.setBytes (Bytes.store m.byte x bs)) (.of (Bytes.store m.byte x bs)) pgdir := by
  intro f hf i hi
  refine Eq.trans (congrArg Bytes.number (Bytes.slice_congr fun j hj => if_neg fun hin => ?_)) (h f hf i hi)
  refine hx (f + 4 * i + j - x) (by omega) f hf ?_
  unfold NPTENTRIES PGSIZE at *
  omega

end OneMemory

end Chameleon.Vm
