import Chameleon.Param
import Chameleon.Lib.Bytes
import Chameleon.Lib.While
import Chameleon.Vm.Layout

/-! The search for the multiprocessor tables of `mp.c`. Addresses are virtual, `mem` is what the kernel reads there.
A pointer that the code keeps in a variable is reduced modulo `2 ^ 32` where the code computes it. -/

namespace Chameleon.Mp
open Bytes
open Vm (KERNBASE WORD)

abbrev Memory := BitVec 32 → UInt8

/-- The byte at an address, which wraps. -/
def byte (mem : Memory) (a : Nat) : UInt8 := mem (BitVec.ofNat 32 a)

def P2V (a : Nat) : Nat := (a + KERNBASE) % WORD

section Search
variable (mem : Memory)

def sum (addr len : Nat) : Nat := ((slice (byte mem) addr len).map UInt8.toNat).sum % 256

/-- `mpsearch1`, which looks at every 16th address of the `len` bytes at `a`. -/
def mpsearch1 (a len : Nat) : Option Nat :=
  ((List.range ((len + 15) / 16)).map fun i => P2V a + 16 * i).find? fun p =>
    -- "_MP_"
    slice (byte mem) p 4 = [0x5f, 0x4d, 0x50, 0x5f] ∧ sum mem p 16 = 0

def mpsearch : Option Nat :=
  let bda := P2V 0x400
  let p := ((byte mem (bda + 0x0f)).toNat * 256 + (byte mem (bda + 0x0e)).toNat) * 16
  let found :=
    if p ≠ 0 then mpsearch1 mem p 1024
    else
      let p := ((byte mem (bda + 0x14)).toNat * 256 + (byte mem (bda + 0x13)).toNat) * 1024
      mpsearch1 mem ((p + (WORD - 1024)) % WORD) 1024
  found.or (mpsearch1 mem 0xf0000 0x10000)

/-- `mp->physaddr` -/
def physaddr (mp : Nat) : Nat := number (slice (byte mem) (mp + 4) 4)

/-- `conf->length` -/
def length (conf : Nat) : Nat := number (slice (byte mem) (conf + 4) 2)

/-- The floating pointer structure and the configuration table. -/
def mpconfig : Option (Nat × Nat) := do
  let mp ← mpsearch mem
  if physaddr mem mp = 0 then none
  let conf := P2V (physaddr mem mp)
  -- "PCMP"
  if slice (byte mem) conf 4 ≠ [0x50, 0x43, 0x4d, 0x50] then none
  if byte mem (conf + 6) ≠ 1 ∧ byte mem (conf + 6) ≠ 4 then none
  if sum mem conf (length mem conf) ≠ 0 then none
  return (mp, conf)

end Search

/-! ### The entries -/

/-- The variables of the loop of `mpinit`. -/
structure Scan where
  p : Nat
  ismp : Bool
  ncpu : Nat
  apicid : Nat → UInt8
  ioapicid : UInt8

def MPPROC : UInt8 := 0
def MPBUS : UInt8 := 1
def MPIOAPIC : UInt8 := 2
def MPIOINTR : UInt8 := 3
def MPLINTR : UInt8 := 4

section Entries
variable (mem : Memory)

/-- The body of the loop. In C the `break` of the last case leaves the `switch` and not the loop. -/
def entry (s : Scan) : Scan :=
  if byte mem s.p = MPPROC then
    let s := if s.ncpu < NCPU then
        { s with apicid := Function.update s.apicid s.ncpu (byte mem (s.p + 1)), ncpu := s.ncpu + 1 }
      else s
    { s with p := (s.p + 20) % WORD }
  else if byte mem s.p = MPIOAPIC then { s with ioapicid := byte mem (s.p + 1), p := (s.p + 8) % WORD }
  else if byte mem s.p = MPBUS ∨ byte mem s.p = MPIOINTR ∨ byte mem s.p = MPLINTR then { s with p := (s.p + 8) % WORD }
  else { s with ismp := false }

/-- `(uchar*)(conf+1)` -/
def firstEntry (conf : Nat) : Nat := (conf + 44) % WORD

/-- `(uchar*)conf+conf->length` -/
def tableEnd (conf : Nat) : Nat := (conf + length mem conf) % WORD

/-- The loop begins behind the header of the table, with the globals as the kernel is loaded. -/
def start (conf : Nat) : Scan := ⟨firstEntry conf, true, 0, fun _ => 0, 0⟩

def before (conf : Nat) (s : Scan) : Bool := s.p < tableEnd mem conf

/-- What `mpinit` leaves to the kernel. -/
structure Found where
  lapic : Nat
  ncpu : Nat
  apicid : Nat → UInt8
  ioapicid : UInt8
  /-- Whether the external interrupts are masked in the IMCR. -/
  imcr : Bool

/-- The part of `mpinit` behind its loop. -/
def finish (mp conf : Nat) (s : Scan) : Except String Found :=
  if s.ismp = false then .error "Didn't find a suitable machine"
  else .ok ⟨number (slice (byte mem) (conf + 36) 4), s.ncpu, s.apicid, s.ioapicid, byte mem (mp + 12) ≠ 0⟩

/-- `mpinit`: `none` when the loop is still running after `fuel` tests, an error for a panic. -/
def mpinit (fuel : Nat) : Option (Except String Found) :=
  match mpconfig mem with
  | none => some (.error "Expect to run on an SMP")
  | some (mp, conf) => (While.run (before mem conf) (entry mem) fuel (start conf)).map (finish mem mp conf)

end Entries

/-! ### The tables -/

/-- The size of an entry of each known type. -/
def entrySize (type : UInt8) : Option Nat :=
  if type = MPPROC then some 20
  else if type = MPBUS ∨ type = MPIOAPIC ∨ type = MPIOINTR ∨ type = MPLINTR then some 8
  else none

/-- The entries of a table from `p` on lie at the addresses `ps`, each behind the one before, up to one that starts at
`e` or past it. All of them have a known type. -/
inductive Entries (mem : Memory) (e : Nat) : Nat → List Nat → Prop
  | done {p : Nat} (hle : e ≤ p) : Entries mem e p []
  | entry {p k : Nat} {ps : List Nat} (hlt : p < e) (hk : entrySize (byte mem p) = some k)
      (hps : Entries mem e ((p + k) % WORD) ps) : Entries mem e p (p :: ps)

/-- One of the entries from `p` on has an unknown type. -/
inductive Unknown (mem : Memory) (e : Nat) : Nat → Prop
  | here {p : Nat} (hlt : p < e) (hk : entrySize (byte mem p) = none) : Unknown mem e p
  | later {p k : Nat} (hlt : p < e) (hk : entrySize (byte mem p) = some k) (h : Unknown mem e ((p + k) % WORD)) :
      Unknown mem e p

/-- The second bytes of the entries of one type: APIC ids. -/
def apics (mem : Memory) (type : UInt8) (ps : List Nat) : List UInt8 :=
  (ps.filter fun p => byte mem p = type).map fun p => byte mem (p + 1)

/-- What the kernel is to find in the entries `ps`: up to `NCPU` processors, and the last I/O APIC. -/
def foundIn (mem : Memory) (mp conf : Nat) (ps : List Nat) : Found where
  lapic := number (slice (byte mem) (conf + 36) 4)
  ncpu := ((apics mem MPPROC ps).take NCPU).length
  apicid i := ((apics mem MPPROC ps).take NCPU).getD i 0
  ioapicid := (apics mem MPIOAPIC ps).getLastD 0
  imcr := byte mem (mp + 12) ≠ 0

/-- What is expected of `mpinit` on the table at `conf`: it returns what all the entries say, or it panics because one
has an unknown type. -/
def Finishes (mem : Memory) (mp conf : Nat) : Prop :=
  (∃ ps, Entries mem (tableEnd mem conf) (firstEntry conf) ps ∧
    Returns (mpinit mem) (.ok (foundIn mem mp conf ps)) ∧ (foundIn mem mp conf ps).ncpu ≤ NCPU) ∨
  Unknown mem (tableEnd mem conf) (firstEntry conf) ∧ Returns (mpinit mem) (.error "Didn't find a suitable machine")

section Proofs
variable {mem : Memory} {mp conf p k e : Nat} {s : Scan} {ps qs : List Nat}

theorem apics_concat (type : UInt8) (qs : List Nat) (p : Nat) :
    apics mem type (qs ++ [p]) = apics mem type qs ++ if byte mem p = type then [byte mem (p + 1)] else [] := by
  unfold apics
  rw [List.filter_append, List.map_append]
  split_ifs with h
  · rw [List.filter_cons_of_pos (by simpa using h)]
    rfl
  · rw [List.filter_cons_of_neg (by simpa using h)]
    rfl

/-- The variables of the loop behind the entries `qs`. -/
def scanned (mem : Memory) (qs : List Nat) (p : Nat) : Scan where
  p := p
  ismp := true
  ncpu := ((apics mem MPPROC qs).take NCPU).length
  apicid i := ((apics mem MPPROC qs).take NCPU).getD i 0
  ioapicid := (apics mem MPIOAPIC qs).getLastD 0

theorem getD_concat (l : List UInt8) (x : UInt8) :
    Function.update (fun i => l.getD i 0) l.length x = fun i => (l ++ [x]).getD i 0 := by
  funext i
  rcases Nat.lt_trichotomy i l.length with hlt | rfl | hgt
  · rw [Function.update_of_ne hlt.ne, List.getD_append _ _ _ _ hlt]
  · rw [Function.update_self, List.getD_append_right _ _ _ _ le_rfl, Nat.sub_self]
    rfl
  · rw [Function.update_of_ne hgt.ne', List.getD_eq_default _ _ hgt.le, List.getD_eq_default]
    rw [List.length_append]
    exact hgt

/-- One turn of the loop at an entry of a known type. -/
theorem entry_scanned (qs : List Nat) (hk : entrySize (byte mem p) = some k) :
    entry mem (scanned mem qs p) = scanned mem (qs ++ [p]) ((p + k) % WORD) := by
  have hp : (scanned mem qs p).p = p := rfl
  unfold entrySize at hk
  unfold entry
  rw [hp]
  by_cases hproc : byte mem p = MPPROC
  · have hio : byte mem p ≠ MPIOAPIC := by rw [hproc]; decide
    rw [if_pos hproc] at hk ⊢
    cases hk
    rcases Nat.lt_or_ge (apics mem MPPROC qs).length NCPU with hlt | hge
    · have hroom : (scanned mem qs p).ncpu < NCPU := lt_of_le_of_lt (List.length_take_le' _ _) hlt
      rw [if_pos hroom]
      simp only [scanned, apics_concat, if_pos hproc, if_neg hio, List.append_nil]
      rw [List.take_of_length_le hlt.le, List.take_of_length_le (by simpa using Nat.succ_le_of_lt hlt),
        getD_concat]
      simp only [List.length_append, List.length_singleton]
    · have hfull : ¬ (scanned mem qs p).ncpu < NCPU := Nat.not_lt.mpr (List.length_take_of_le hge).ge
      rw [if_neg hfull]
      simp only [scanned, apics_concat, if_pos hproc, if_neg hio, List.append_nil]
      rw [List.take_append_of_le_length hge]
  · rw [if_neg hproc] at hk ⊢
    by_cases hio : byte mem p = MPIOAPIC
    · rw [if_pos hio]
      rw [if_pos (.inr (.inl hio))] at hk
      cases hk
      simp only [scanned, apics_concat, if_neg hproc, if_pos hio, List.append_nil, List.getLastD_concat]
    · rw [if_neg hio]
      split_ifs at hk with hknown
      cases hk
      rw [if_pos (hknown.imp_right fun h => h.resolve_left hio)]
      simp only [scanned, apics_concat, if_neg hproc, if_neg hio, List.append_nil]

/-- At an entry of an unknown type the loop does not move. -/
theorem entry_unknown (hk : entrySize (byte mem s.p) = none) : (entry mem s).p = s.p := by
  unfold entrySize at hk
  unfold entry
  split_ifs at hk ⊢
  · tauto
  · tauto
  · rfl

theorem entry_known (hk : entrySize (byte mem s.p) = some k) : (entry mem s).p = (s.p + k) % WORD := by
  unfold entrySize at hk
  unfold entry
  split_ifs at hk ⊢ <;> first | (cases hk; rfl) | tauto

/-- The loop consumes the entries one by one. -/
theorem Entries.ends (h : Entries mem (tableEnd mem conf) p ps) (qs : List Nat) :
    ∃ q, While.Ends (before mem conf) (Mp.entry mem) (scanned mem qs p) (scanned mem (qs ++ ps) q) := by
  induction h generalizing qs with
  | @done p hle =>
    refine ⟨p, ?_⟩
    rw [List.append_nil]
    exact .stop (decide_eq_false (Nat.not_lt.mpr hle))
  | @entry p k ps hlt hk _ ih =>
    obtain ⟨q, hq⟩ := ih (qs ++ [p])
    refine ⟨q, .round (decide_eq_true hlt) ?_⟩
    rw [entry_scanned qs hk]
    rwa [List.append_assoc, List.singleton_append] at hq

-- At an unknown type the loop turns on the spot, so a loop that ends has met none.
theorem entries_of_run {t : Scan} (fuel : Nat) (h : While.run (before mem conf) (entry mem) fuel s = some t) :
    ∃ ps, Entries mem (tableEnd mem conf) s.p ps := by
  induction fuel generalizing s with
  | zero => cases h
  | succ fuel ih =>
    unfold While.run at h
    cases hc : before mem conf s with
    | false => exact ⟨[], .done (Nat.not_lt.mp (of_decide_eq_false hc))⟩
    | true =>
      rw [if_pos hc] at h
      obtain ⟨ps, hps⟩ := ih h
      cases hk : entrySize (byte mem s.p) with
      | none => exact ⟨ps, entry_unknown hk ▸ hps⟩
      | some k => exact ⟨s.p :: ps, .entry (of_decide_eq_true hc) hk (entry_known hk ▸ hps)⟩

theorem mpinit_of_mpconfig (hconf : mpconfig mem = some (mp, conf)) (fuel : Nat) : mpinit mem fuel =
    (While.run (before mem conf) (entry mem) fuel (start conf)).map (finish mem mp conf) := by
  unfold mpinit
  rw [hconf]

theorem mpinit_of_entries (hconf : mpconfig mem = some (mp, conf))
    (h : Entries mem (tableEnd mem conf) (firstEntry conf) ps) :
    Returns (mpinit mem) (.ok (foundIn mem mp conf ps)) := by
  obtain ⟨q, hq⟩ := h.ends []
  rw [funext (mpinit_of_mpconfig hconf)]
  exact Returns.map hq (finish mem mp conf)

/-- Without such entries the loop never ends. -/
theorem mpinit_eq_none (hconf : mpconfig mem = some (mp, conf))
    (h : ¬ ∃ ps, Entries mem (tableEnd mem conf) (firstEntry conf) ps) (fuel : Nat) : mpinit mem fuel = none := by
  rw [mpinit_of_mpconfig hconf]
  cases hrun : While.run (before mem conf) (entry mem) fuel (start conf) with
  | none => rfl
  | some t => exact absurd (entries_of_run fuel hrun) h

theorem not_returns (hnone : ∀ fuel, mpinit mem fuel = none) (r : Except String Found) : ¬ Returns (mpinit mem) r := by
  rintro ⟨N, hrun⟩
  exact Option.some_ne_none _ ((hrun N le_rfl).symm.trans (hnone N))

/-- On an unknown entry there is no end. -/
theorem Unknown.not_entries (h : Unknown mem e p) : ¬ ∃ ps, Entries mem e p ps := by
  induction h with
  | here hlt hk =>
    rintro ⟨_, hle | ⟨-, hk', -⟩⟩
    · exact absurd hlt (Nat.not_lt.mpr hle)
    · exact absurd (hk.symm.trans hk') (Option.some_ne_none _).symm
  | later hlt hk _ ih =>
    rintro ⟨_, hle | ⟨-, hk', hps⟩⟩
    · exact absurd hlt (Nat.not_lt.mpr hle)
    · cases hk.symm.trans hk'
      exact ih ⟨_, hps⟩

/-- `mpinit` finishes exactly on the tables whose entries all have a known type and come to the end of the table, with
what these entries say. On every other table it neither returns nor panics. -/
theorem mpinit_finishes_iff (hconf : mpconfig mem = some (mp, conf)) :
    (Finishes mem mp conf ↔ ∃ ps, Entries mem (tableEnd mem conf) (firstEntry conf) ps) ∧
      (¬ Finishes mem mp conf → ∀ fuel, mpinit mem fuel = none) := by
  have hiff : Finishes mem mp conf ↔ ∃ ps, Entries mem (tableEnd mem conf) (firstEntry conf) ps := by
    constructor
    · rintro (⟨ps, hps, -⟩ | ⟨hunknown, hret⟩)
      · exact ⟨ps, hps⟩
      · exact absurd hret (not_returns (mpinit_eq_none hconf hunknown.not_entries) _)
    · rintro ⟨ps, hps⟩
      exact .inl ⟨ps, hps, mpinit_of_entries hconf hps, List.length_take_le _ _⟩
  exact ⟨hiff, fun hnot => mpinit_eq_none hconf fun h => hnot (hiff.mpr h)⟩

end Proofs

/-- A machine with the table `entries` at the end of its base memory. -/
def firmware (entries : List UInt8) : Memory :=
  let mem := store (fun _ => 0) (P2V 0x40e) [0xc0, 0x9f]
  let mem := store mem (P2V 0x9fc00) [0x5f, 0x4d, 0x50, 0x5f, 0x00, 0xfd, 0x09, 0x00, 1, 4, 0x9a]
  let header := [0x50, 0x43, 0x4d, 0x50] ++ le 2 (44 + entries.length) ++ [4]
  let checksum := -(header ++ entries).foldl (· + ·) 0
  let mem := store mem (P2V 0x9fd00) (header ++ checksum :: List.replicate 36 0 ++ entries)
  fun a => mem a.toNat

/-- A processor with the APIC id 7, and an I/O APIC with the id 1. -/
def oneOfEach : List UInt8 := [0, 7] ++ List.replicate 18 0 ++ [2, 1, 0x20, 1, 0, 0, 0, 0]

theorem mpinit_finishes_oneOfEach : mpconfig (firmware oneOfEach) = some (P2V 0x9fc00, P2V 0x9fd00) ∧
    Finishes (firmware oneOfEach) (P2V 0x9fc00) (P2V 0x9fd00) := by
  have hrun : mpconfig (firmware oneOfEach) = some (P2V 0x9fc00, P2V 0x9fd00) ∧
      tableEnd (firmware oneOfEach) (P2V 0x9fd00) = P2V 0x9fd00 + 72 ∧
      entrySize (byte (firmware oneOfEach) (P2V 0x9fd00 + 44)) = some 20 ∧
      entrySize (byte (firmware oneOfEach) (P2V 0x9fd00 + 64)) = some 8 := by decide +kernel
  obtain ⟨hconf, hend, hproc, hio⟩ := hrun
  refine ⟨hconf, (mpinit_finishes_iff hconf).1.mpr ⟨[P2V 0x9fd00 + 44, P2V 0x9fd00 + 64], ?_⟩⟩
  rw [hend]
  exact .entry (by decide) hproc (.entry (by decide) hio (.done (by decide)))

/-- `mpinit` loops forever on a table with an entry of type 5. -/
theorem mpinit_loops : ∃ mem mp conf, mpconfig mem = some (mp, conf) ∧ ¬ Finishes mem mp conf ∧
    ∀ fuel, mpinit mem fuel = none := by
  have hrun : mpconfig (firmware [5]) = some (P2V 0x9fc00, P2V 0x9fd00) ∧
      entrySize (byte (firmware [5]) (firstEntry (P2V 0x9fd00))) = none ∧
      firstEntry (P2V 0x9fd00) < tableEnd (firmware [5]) (P2V 0x9fd00) := by decide +kernel
  obtain ⟨hconf, hsize, hlt⟩ := hrun
  have hnone := mpinit_eq_none hconf (Unknown.here hlt hsize).not_entries
  refine ⟨_, _, _, hconf, ?_, hnone⟩
  rintro (⟨ps, -, hret, -⟩ | ⟨-, hret⟩)
  · exact not_returns hnone _ hret
  · exact not_returns hnone _ hret

end Chameleon.Mp
