import Mathlib.Data.List.MinMax
import Chameleon.Vm.Loader
import Chameleon.Vm.Supply

/-! The image that `exec` builds: the segments of the program file, the guard page, and the
stack with the arguments. -/

namespace Chameleon.Vm
open Region Hoare

/-! ### The program file -/

/-- The program headers that the loop of `exec` reads, `n` of them from offset `off` on. -/
def phdrs (content : List UInt8) : Nat → Nat → List Proghdr
  | 0, _ => []
  | n + 1, off =>
    proghdr (readi content off PROGHDRSIZE) :: phdrs content n ((off + PROGHDRSIZE) % WORD)

def isLoad (ph : Proghdr) : Bool := ph.type == ELF_PROG_LOAD

/-- The LOAD segments of a program file. -/
def segmentsOf (content : List UInt8) : List Proghdr :=
  let elf := elfhdr (readi content 0 ELFHDRSIZE)
  (phdrs content elf.phnum elf.phoff).filter isLoad

/-- The file begins with the header of a program. -/
def HasHeader (content : List UInt8) : Prop :=
  (readi content 0 ELFHDRSIZE).length = ELFHDRSIZE ∧ (elfhdr (readi content 0 ELFHDRSIZE)).magic = ELF_MAGIC

/-- The end of the highest segment. -/
def imageEnd (content : List UInt8) : Nat := ((segmentsOf content).map fun ph => ph.vaddr + ph.memsz).foldr max 0

/-- A segment that `exec` loads into the first `m` pages. -/
structure Loads (content : List UInt8) (m : Nat) (ph : Proghdr) : Prop where
  file : ph.filesz ≤ ph.memsz
  pages : 0 < ph.vaddr + ph.memsz ∧ ph.vaddr + ph.memsz ≤ m * PGSIZE
  aligned : ph.vaddr % PGSIZE = 0
  inside : ph.off + ph.filesz ≤ content.length

/-- A program file that `exec` loads into the first `m` pages. -/
structure Loadable (content : List UInt8) (m : Nat) : Prop where
  header : HasHeader content
  length : content.length < WORD
  phdrs : (elfhdr (readi content 0 ELFHDRSIZE)).phoff + 32 * (elfhdr (readi content 0 ELFHDRSIZE)).phnum ≤ content.length
  segments : ∀ ph ∈ segmentsOf content, Loads content m ph
  room : (m + 2) * PGSIZE < KERNBASE

/-- `b` does not come before `a`, and their address ranges are disjoint. -/
def Ascending (a b : Proghdr) : Prop :=
  a.vaddr ≤ b.vaddr ∧ ∀ x, a.vaddr ≤ x → x < a.vaddr + a.memsz → b.vaddr ≤ x → ¬ x < b.vaddr + b.memsz

/-- A segment in memory: its bytes from the file, then zeros. -/
def SegmentAt (content : List UInt8) (ph : Proghdr) (byte : Nat → UInt8) : Prop :=
  (∀ i < ph.filesz, content[ph.off + i]? = some (byte (ph.vaddr + i))) ∧
    ∀ i, ph.filesz ≤ i → i < ph.memsz → byte (ph.vaddr + i) = 0

/-- The image while the segments `done` are loaded and `sz` is the size. -/
structure ImageTo (content : List UInt8) (done : List Proghdr) (sz : Nat) (S : View) : Prop where
  size : sz < KERNBASE
  below : ∀ va < PGROUNDUP sz, present (S.pte va) ∧ user (S.pte va)
  above : ∀ va < KERNBASE, PGROUNDUP sz ≤ va → ¬ present (S.pte va)
  files : ∀ ph ∈ done, ph.filesz ≤ ph.memsz
  fits : ∀ ph ∈ done, ph.vaddr + ph.memsz ≤ sz
  top : sz = 0 ∨ ∃ ph ∈ done, sz = ph.vaddr + ph.memsz
  segments : done.Pairwise Ascending → ∀ ph ∈ done, SegmentAt content ph S.byte

theorem SegmentAt.congr {content : List UInt8} {ph : Proghdr} {byte byte' : Nat → UInt8} (h : SegmentAt content ph byte)
    (hfile : ph.filesz ≤ ph.memsz) (hsame : ∀ x, ph.vaddr ≤ x → x < ph.vaddr + ph.memsz → byte' x = byte x) :
    SegmentAt content ph byte' := by
  refine ⟨fun i hi => ?_, fun i hlo hi => ?_⟩
  · rw [hsame _ (Nat.le_add_right _ _) (by omega)]
    exact h.1 i hi
  · rw [hsame _ (Nat.le_add_right _ _) (by omega)]
    exact h.2 i hlo hi

theorem proghdr_off_lt (bs : List UInt8) : (proghdr bs).off < WORD := field_lt bs 4 4

section
variable {content : List UInt8} {done : List Proghdr} {sz sz' : Nat} {S S' : View} {ph : Proghdr}

/-- Where a later segment starts, everything before has ended. -/
theorem ImageTo.le_vaddr (h : ImageTo content done sz S) (hasc : ∀ a ∈ done, Ascending a ph) (hmem : 0 < ph.memsz) :
    sz ≤ ph.vaddr := by
  rcases h.top with rfl | ⟨a, ha, rfl⟩
  · exact Nat.zero_le _
  · obtain ⟨hle, hdisj⟩ := hasc a ha
    by_contra hlt
    exact hdisj ph.vaddr hle (by omega) le_rfl (by omega)

/-- The pages that `allocuvm` adds to an image. -/
theorem ImageTo.below_grown (h : ImageTo content done sz S) (hle : sz ≤ sz') (hlt : sz' < KERNBASE)
    (hg : Grown (PGROUNDUP sz) (PGROUNDUP sz') S S') :
    (∀ va < PGROUNDUP sz', present (S'.pte va) ∧ user (S'.pte va)) ∧
      ∀ va < KERNBASE, PGROUNDUP sz' ≤ va → ¬ present (S'.pte va) := by
  have hup := PGROUNDUP_le hlt.le
  have hmono := PGROUNDUP_mono hle hlt.le
  constructor
  · intro va hva
    by_cases hold : va < PGROUNDUP sz
    · rw [(hg.off va (by unfold KERNBASE WORD at *; omega) (by omega)).1]
      exact h.below va hold
    · obtain ⟨hp, hflags, -⟩ := hg.new va (Nat.not_lt.mp hold) hva
      refine ⟨hp, ?_⟩
      rw [user_iff]
      unfold PTE_FLAGS PGSIZE at hflags
      have hval : (PTE_W ||| PTE_U ||| PTE_P) = 7 := by decide
      omega
  · intro va hva hge
    rw [(hg.off va (by unfold KERNBASE WORD at *; omega) (by omega)).1]
    exact h.above va hva (by omega)

/-- One more segment has been allocated and loaded. -/
theorem ImageTo.extend (h : ImageTo content done sz S) (hsz' : sz' = max sz (ph.vaddr + ph.memsz)) (hlt : sz' < KERNBASE)
    (hg : Grown (PGROUNDUP sz) (PGROUNDUP sz') S S') (hal : ph.vaddr % PGSIZE = 0) (hfile : ph.filesz ≤ ph.memsz)
    (hlen : 0 < ph.filesz → ph.off + ph.filesz ≤ content.length) :
    ImageTo content (done ++ [ph]) sz' (S'.store ph.vaddr ((content.drop ph.off).take ph.filesz)) := by
  have hle : sz ≤ sz' := hsz' ▸ Nat.le_max_left _ _
  have htop : ph.vaddr + ph.memsz ≤ sz' := hsz' ▸ Nat.le_max_right _ _
  have hup := PGROUNDUP_le hlt.le
  obtain ⟨huser, habove⟩ := h.below_grown hle hlt hg
  have hbytes : ((content.drop ph.off).take ph.filesz).length = ph.filesz := by
    rw [List.length_take, List.length_drop]
    omega
  refine ⟨hlt, huser, habove, fun a ha => ?_, fun a ha => ?_, ?_, fun hpair a ha => ?_⟩
  · rcases List.mem_append.mp ha with ha | ha
    · exact h.files a ha
    · rw [List.mem_singleton.mp ha]
      exact hfile
  · rcases List.mem_append.mp ha with ha | ha
    · exact le_trans (h.fits a ha) hle
    · rw [List.mem_singleton.mp ha]
      exact htop
  · rcases Nat.le_total sz (ph.vaddr + ph.memsz) with hmax | hmax
    · rw [Nat.max_eq_right hmax] at hsz'
      exact .inr ⟨ph, List.mem_append.mpr (.inr (List.mem_singleton_self ph)), hsz'⟩
    · rw [Nat.max_eq_left hmax] at hsz'
      rw [hsz']
      exact h.top.imp_right fun ⟨a, ha, heq⟩ => ⟨a, List.mem_append.mpr (.inl ha), heq⟩
  · rw [List.pairwise_append] at hpair
    have hasc : ∀ a ∈ done, Ascending a ph := fun a ha => hpair.2.2 a ha ph (List.mem_singleton_self ph)
    rcases List.mem_append.mp ha with ha | ha
    · refine (h.segments hpair.1 a ha).congr (h.files a ha) fun x h1 h2 => ?_
      have hx : x < sz := lt_of_lt_of_le h2 (h.fits a ha)
      have hold := (hg.off x (by unfold KERNBASE WORD at *; omega) fun hin =>
        absurd (lt_of_lt_of_le hx (PGROUNDUP_le h.size.le).2) (Nat.not_lt.mpr hin.1)).2
      refine Eq.trans ?_ hold
      rcases Nat.lt_or_ge x ph.vaddr with hlo | hge
      · exact Bytes.store_of_lt _ _ hlo
      · refine Bytes.store_of_le _ _ ?_
        have := (hasc a ha).2 x h1 h2 hge
        omega
    · rw [List.mem_singleton.mp ha]
      refine ⟨fun i hi => ?_, fun i h1 h2 => ?_⟩
      · have hi' : i < ((content.drop ph.off).take ph.filesz).length := by rwa [hbytes]
        have hget : (S'.store ph.vaddr ((content.drop ph.off).take ph.filesz)).byte (ph.vaddr + i) =
            ((content.drop ph.off).take ph.filesz)[i] := Bytes.store_add _ _ hi'
        rw [hget, List.getElem_take, List.getElem_drop, List.getElem?_eq_getElem]
      · have hzero : S'.byte (ph.vaddr + i) = 0 := by
          have hle := h.le_vaddr hasc (by omega)
          refine (hg.new _ ?_ ?_).2.2
          · have := PGROUNDUP_lt h.size.le
            have := PGROUNDUP_mod sz
            unfold PGSIZE at *
            omega
          · exact lt_of_lt_of_le (by omega) hup.2
        refine Eq.trans (Bytes.store_of_le _ _ ?_) hzero
        rw [hbytes]
        omega

end

section
variable {L : Layout} {T : Multiset Nat} {R : Region Nat Page} {S : View} {d : Nat} {E : String → Prop}

theorem readi_length {content : List UInt8} {off n : Nat} (hword : content.length < WORD)
    (hle : n = 0 ∨ off + n ≤ content.length) : (readi content off n).length = n := by
  unfold readi
  split
  · rw [List.length_nil]
    unfold WORD at *
    omega
  · rw [List.length_take, List.length_drop]
    omega

/-- Two pages for each page of the image are enough for every segment. -/
theorem loadSegments_plenty {φ : Prop} {x m : Nat} (L : Layout) {content : List UInt8} (d n : Nat) {off sz : Nat}
    (hword : content.length < WORD) (hoff : off + 32 * n ≤ content.length) (hm : m * PGSIZE < KERNBASE)
    (hload : ∀ ph ∈ (phdrs content n off).filter isLoad, Loads content m ph) :
    Triple Ever (Plenty φ (n * (2 * m) + x)) (Watched.loadSegments (fun _ => pure ()) L content d n off sz)
      (Succeeds φ (· ≠ none) x) := by
  induction n generalizing off sz with
  | zero => exact Triple.ret fun k hk => ⟨fun _ => nofun, hk.mono (by omega)⟩
  | succ n ih =>
    have hnext : (off + PROGHDRSIZE) % WORD = off + 32 := Nat.mod_eq_of_lt (by unfold PROGHDRSIZE; omega)
    have hfull : (readi content off PROGHDRSIZE).length = PROGHDRSIZE :=
      readi_length hword (.inr (by unfold PROGHDRSIZE; omega))
    rw [phdrs, hnext] at hload
    rw [Nat.succ_mul, add_comm _ (2 * m), add_assoc]
    unfold Watched.loadSegments
    dsimp only
    rw [hnext]
    refine Triple.ite (fun h => absurd hfull h) fun _ => ?_
    generalize proghdr (readi content off PROGHDRSIZE) = ph at *
    refine Triple.ite (fun htype => ?_) fun htype => ?_
    · rw [List.filter_cons_of_neg (by rw [isLoad, beq_iff_eq]; exact htype)] at hload
      exact (ih (by omega) hload).pre fun k hk => hk.mono (by omega)
    rw [List.filter_cons_of_pos (by rw [isLoad, beq_iff_eq]; exact not_not.mp htype), List.forall_mem_cons] at hload
    obtain ⟨⟨hfile, hend, hal, hinside⟩, hrest⟩ := hload
    have hsum : (ph.vaddr + ph.memsz) % WORD = ph.vaddr + ph.memsz := by
      unfold WORD KERNBASE at *
      omega
    rw [hsum, Watched.allocuvm_unwatched]
    refine Triple.ite (fun h => absurd h (by omega)) fun _ => Triple.ite (fun h => absurd h (by omega)) fun _ => ?_
    refine (allocuvm_plenty L d (n := m) (by omega) ?_).bind fun r => ?_
    · unfold pagesIn PGSIZE at *
      omega
    rw [pure_bind]
    refine Triple.ite (fun hr => failed fun _ h hφ => ?_) fun _ => Triple.ite (fun h => absurd hal h) fun _ => ?_
    · have := h.1 hφ
      omega
    refine ((loaduvm_plenty d ph.vaddr fun i => readi_length hword ?_).pre fun k hk => hk.2).bind fun r' => ?_
    · unfold WORD at *
      omega
    rw [pure_bind]
    refine Triple.ite (fun hr => failed fun _ h hφ => absurd (h.1 hφ) (Int.not_le.mpr hr)) fun _ => ?_
    exact (ih (by omega) hrest).pre fun k hk => hk.2

variable (hT : T.Nodup) (hF : ∀ f ∈ T, IsFrame L f)
include hT hF

omit hT hF in
/-- A watch that passes where the pages below `PGROUNDUP(sz)` are mapped. -/
structure Watch (T : Multiset Nat) (d : Nat) (w : Nat → Kern Unit) : Prop where
  watches : ∀ sz, Watches (w sz)
  passes : ∀ sz, Passes T d (w sz) fun S => ∀ va < PGROUNDUP sz, present (S.pte va)

/-- `allocuvm` on an image whose pages end at its size. -/
theorem allocuvm_image {w : Nat → Kern Unit} (hw : Watch T d w) {sz : Nat} (newsz : Nat) (hsz : sz ≤ KERNBASE)
    (hpos : newsz < sz → sz < KERNBASE) (hbelow : ∀ va < PGROUNDUP sz, present (S.pte va))
    (habove : ∀ va < KERNBASE, PGROUNDUP sz ≤ va → ¬ present (S.pte va)) :
    Triple E (Owns T (view d S + R)) (Watched.allocuvm (w sz) L d sz newsz) fun r k => ∃ S', Owns T (view d S' + R) k ∧
      (r ≠ 0 → r < KERNBASE ∧ r = max sz newsz ∧ Grown (PGROUNDUP sz) (PGROUNDUP r) S S') := by
  by_cases hbig : newsz ≥ KERNBASE
  · rw [Watched.allocuvm, if_pos hbig]
    exact Triple.ret fun k hk => ⟨S, hk, fun h => absurd rfl h⟩
  have hnew : newsz < KERNBASE := Nat.not_le.mp hbig
  by_cases hlt : newsz < sz
  · rw [Watched.allocuvm, if_neg hbig, if_pos hlt]
    refine Triple.ret fun k hk => ⟨S, hk, fun _ => ⟨hpos hlt, (Nat.max_eq_left hlt.le).symm, fun _ _ _ => ⟨rfl, rfl⟩,
      fun va h1 h2 => ?_⟩⟩
    exact absurd h2 (Nat.not_lt.mpr h1)
  · have hup := (PGROUNDUP_le hsz).1
    refine (allocuvm_watched hT hF (Nat.not_lt.mp hlt) hnew (fun S' R k hoff => hw.passes sz S' R k fun va hva => ?_)
      fun va h1 h2 hp => ?_).post fun r k hk => ?_
    · rw [(hoff va (by unfold KERNBASE WORD at *; omega) (by omega)).1]
      exact hbelow va hva
    · exact absurd hp (habove va (lt_of_lt_of_le h2 (PGROUNDUP_le hnew.le).1) h1)
    · obtain ⟨S', hk, hcase⟩ := hk
      refine ⟨S', hk, fun hr => ?_⟩
      rcases hcase with ⟨rfl, hg⟩ | ⟨rfl, -⟩
      · exact ⟨hnew, (Nat.max_eq_right (Nat.not_lt.mp hlt)).symm, hg⟩
      · exact absurd rfl hr

/-- What the loop over the program headers leaves. -/
def SegmentsLoaded (T : Multiset Nat) (R : Region Nat Page) (d : Nat) (content : List UInt8) (done : List Proghdr)
    (r : Option Nat) (k : Kmem) : Prop :=
  ∃ S, Owns T (view d S + R) k ∧ ∀ sz, r = some sz → ImageTo content done sz S

theorem loadSegments_view {w : Nat → Kern Unit} (hw : Watch T d w) (content : List UInt8) (n : Nat) {off sz : Nat}
    {done : List Proghdr} (hS : ImageTo content done sz S) :
    Triple E (Owns T (view d S + R)) (Watched.loadSegments w L content d n off sz)
      (SegmentsLoaded T R d content (done ++ (phdrs content n off).filter isLoad)) := by
  induction n generalizing off sz done S with
  | zero =>
    refine Triple.ret fun k hk => ⟨S, hk, fun sz' h => ?_⟩
    obtain rfl := Option.some.inj h
    rw [phdrs, List.filter_nil, List.append_nil]
    exact hS
  | succ n ih =>
    have hbad : ∀ {P : Kmem → Prop} {done}, (∀ k, P k → ∃ S, Owns T (view d S + R) k) →
        Triple E P (pure none : Kern (Option Nat)) (SegmentsLoaded T R d content done) := by
      intro P done h
      refine Triple.ret fun k hk => ?_
      obtain ⟨S, hk⟩ := h k hk
      exact ⟨S, hk, fun sz h => nomatch h⟩
    have hoff := proghdr_off_lt (readi content off PROGHDRSIZE)
    have hph := proghdr_lt (readi content off PROGHDRSIZE)
    rw [phdrs]
    unfold Watched.loadSegments
    dsimp only
    refine Triple.ite (fun _ => hbad fun k hk => ⟨S, hk⟩) fun _ => ?_
    generalize proghdr (readi content off PROGHDRSIZE) = ph at *
    refine Triple.ite (fun htype => ?_) fun htype => ?_
    · rw [List.filter_cons_of_neg (by rw [isLoad, beq_iff_eq]; exact htype)]
      exact ih hS
    rw [not_not] at htype
    have hload : isLoad ph = true := beq_iff_eq.mpr htype
    rw [List.filter_cons_of_pos hload, List.append_cons]
    refine Triple.ite (fun _ => hbad fun k hk => ⟨S, hk⟩) fun hmem => Triple.ite (fun _ => hbad fun k hk => ⟨S, hk⟩)
      fun hwrap => ?_
    -- The check before has excluded that the end of the segment wraps.
    have hsum : (ph.vaddr + ph.memsz) % WORD = ph.vaddr + ph.memsz := by
      unfold WORD at *
      omega
    rw [hsum]
    refine (allocuvm_image hT hF hw _ hS.size.le (fun _ => hS.size) (fun va hva => (hS.below va hva).1) hS.above).bind fun r => ?_
    refine Triple.exists_pre fun S₁ => ?_
    by_cases hr : r = 0
    · subst hr
      exact (hw.passes 0).next (fun va hva => absurd hva (Nat.not_lt_zero va)) (fun _ h => h.1)
        (Triple.ite (fun _ => hbad fun k hk => ⟨S₁, hk.1⟩) fun h => absurd rfl h)
    refine Triple.given (fun k hk => hk.2 hr) fun hgrown => ?_
    obtain ⟨hlt, hmax, hg⟩ := hgrown
    have huser := (hS.below_grown (hmax ▸ Nat.le_max_left _ _) hlt hg).1
    refine (hw.passes r).next (fun va hva => (huser va hva).1) (fun _ h => h.1) (Triple.ite (fun h => absurd h hr) fun _ =>
      Triple.ite (fun _ => hbad fun k hk => ⟨S₁, hk.1⟩) fun hal => ?_)
    rw [not_not] at hal
    have htop : ph.vaddr + ph.memsz ≤ r := hmax ▸ Nat.le_max_right _ _
    have hup := PGROUNDUP_le hlt.le
    refine ((loaduvm_view hT hal hoff (by omega) fun va h1 h2 => (huser va (by omega)).1).pre
      fun k hk => hk.1).bind fun r' => ?_
    refine Triple.exists_pre fun S₂ => Triple.given (fun k hk => hk.2.1) fun hpte => ?_
    refine (hw.passes r).next (fun va hva => hpte ▸ (huser va hva).1) (fun _ h => h.1)
      (Triple.ite (fun _ => hbad fun k hk => ⟨S₂, hk.1⟩) fun hr' => ?_)
    refine Triple.given (fun k hk => hk.2.2 (Int.not_lt.mp hr')) fun hstored => ?_
    obtain ⟨rfl, hlen⟩ := hstored
    exact (ih (hS.extend hmax hlt hg hal (Nat.not_lt.mp hmem) hlen)).pre fun k hk => hk.1

end

/-! ### The stack -/

/-- The bytes that `exec` takes from the stack for one string. -/
def room (arg : List UInt8) : Nat := (arg.length + 1 + 3) / 4 * 4

/-- The bytes that the arguments need: the strings, and the words of `ustack`. -/
def stackNeed (argv : List (List UInt8)) : Nat := (argv.map room).sum + 4 * (4 + argv.length)

/-- The strings of `argv` lie at the addresses `ptrs`, each below the one before, between `lo`
and `hi`. -/
def Strings (byte : Nat → UInt8) : List (List UInt8) → List Nat → Nat → Nat → Prop
  | [], [], hi, lo => lo = hi
  | arg :: args, p :: ps, hi, lo =>
    (lo ≤ p ∧ p + (arg.length + 1) ≤ hi ∧ Bytes.slice byte p (arg.length + 1) = arg ++ [0]) ∧ Strings byte args ps p lo
  | _, _, _, _ => False

/-- The 32-bit word at address `a`. -/
def wordAt (byte : Nat → UInt8) (a : Nat) : Nat := Bytes.number (Bytes.slice byte a 4)

/-- An image with the stack in its top page and a guard page below. -/
structure StackPage (top : Nat) (S : View) : Prop where
  aligned : top % PGSIZE = 0
  two : 2 * PGSIZE ≤ top
  size : top < KERNBASE
  guard : ∀ va, top - 2 * PGSIZE ≤ va → va < top - PGSIZE → ¬ user (S.pte va)
  page : ∀ va, top - PGSIZE ≤ va → va < top → present (S.pte va) ∧ user (S.pte va)
  above : ∀ va < KERNBASE, top ≤ va → ¬ present (S.pte va)

theorem Strings.le {byte : Nat → UInt8} {argv : List (List UInt8)} {ptrs : List Nat} {hi lo : Nat}
    (h : Strings byte argv ptrs hi lo) : lo ≤ hi := by
  cases argv with
  | nil =>
    cases ptrs with
    | nil => exact le_of_eq h
    | cons p ps => exact h.elim
  | cons arg args =>
    cases ptrs with
    | nil => exact h.elim
    | cons p ps => exact le_trans h.1.1 (le_trans (Nat.le_add_right _ _) h.1.2.1)

theorem Strings.length_eq {byte : Nat → UInt8} {argv : List (List UInt8)} {ptrs : List Nat} {hi lo : Nat}
    (h : Strings byte argv ptrs hi lo) : ptrs.length = argv.length := by
  induction argv generalizing ptrs hi with
  | nil =>
    cases ptrs with
    | nil => rfl
    | cons p ps => exact h.elim
  | cons arg args ih =>
    cases ptrs with
    | nil => exact h.elim
    | cons p ps => rw [List.length_cons, List.length_cons, ih h.2]

/-- Only the bytes between the bounds matter. -/
theorem Strings.congr {byte byte' : Nat → UInt8} {argv : List (List UInt8)} {ptrs : List Nat} {hi lo : Nat}
    (h : Strings byte argv ptrs hi lo) (hsame : ∀ x, lo ≤ x → x < hi → byte' x = byte x) :
    Strings byte' argv ptrs hi lo := by
  induction argv generalizing ptrs hi with
  | nil =>
    cases ptrs with
    | nil => exact h
    | cons p ps => exact h.elim
  | cons arg args ih =>
    cases ptrs with
    | nil => exact h.elim
    | cons p ps =>
      obtain ⟨⟨hlo, hhi, hslice⟩, hrest⟩ := h
      refine ⟨⟨hlo, hhi, Eq.trans (Bytes.slice_congr fun i hi' => ?_) hslice⟩, ih hrest fun x h1 h2 => ?_⟩
      · exact hsame _ (by omega) (by omega)
      · exact hsame x h1 (by omega)

/-- Where a string goes when every byte of it can be stored: the wrap-around of the stack
pointer, the guard page and the end of the image are all hit by some byte otherwise. -/
theorem push_address {top sp n a : Nat} (htop : top < KERNBASE) (hal : top % PGSIZE = 0) (htwo : 2 * PGSIZE ≤ top)
    (hlo : top - PGSIZE ≤ sp) (hhi : sp ≤ top) (hsp : sp % 4 = 0) (hn : 0 < n)
    (ha : a = (sp + WORD - n % WORD) % WORD / 4 * 4)
    (hall : ∀ i < n, (a + i) % WORD < top ∧
      ¬ (top - 2 * PGSIZE ≤ (a + i) % WORD ∧ (a + i) % WORD < top - PGSIZE)) :
    top - PGSIZE ≤ a ∧ a + n ≤ sp ∧ a = sp - (n + 3) / 4 * 4 := by
  have hword : a < WORD := by unfold WORD at *; omega
  have hfirst : a < top := by
    have := (hall 0 hn).1
    rwa [Nat.add_zero, Nat.mod_eq_of_lt hword] at this
  have hend : a + n ≤ top := by
    by_contra hgt
    have := (hall (top - a) (by omega)).1
    rw [Nat.add_sub_cancel' hfirst.le, Nat.mod_eq_of_lt (lt_trans htop (by decide))] at this
    exact lt_irrefl _ this
  have hmod : n % WORD = n := Nat.mod_eq_of_lt (by unfold KERNBASE WORD at *; omega)
  rw [hmod] at ha
  have hle : n ≤ sp := by unfold KERNBASE WORD at *; omega
  have ha' : a = (sp - n) / 4 * 4 := by unfold KERNBASE WORD at *; omega
  have hguard : top - PGSIZE ≤ a := by
    by_contra hlt
    have hbyte := hall (top - PGSIZE - 4 - a) (by unfold PGSIZE at *; omega)
    have hat : (a + (top - PGSIZE - 4 - a)) % WORD = top - PGSIZE - 4 := by
      rw [Nat.mod_eq_of_lt] <;> unfold KERNBASE WORD PGSIZE at * <;> omega
    rw [hat] at hbyte
    unfold PGSIZE at *
    omega
  omega

section
variable {L : Layout} {T : Multiset Nat} {R : Region Nat Page} {S : View} {d : Nat} {k : Kmem} {E : String → Prop}
variable {w : Kern Unit}

theorem StackPage.congr {top : Nat} {S' : View} (h : StackPage top S) (hpte : S'.pte = S.pte) : StackPage top S' := by
  refine ⟨h.aligned, h.two, h.size, ?_, ?_, ?_⟩
  · rw [hpte]
    exact h.guard
  · rw [hpte]
    exact h.page
  · rw [hpte]
    exact h.above

theorem Owns.lt_of_user {va : Nat} (h : Owns T (view d S + R) k) (hva : va < WORD) (hp : present (S.pte va))
    (hu : user (S.pte va)) : va < KERNBASE := by
  refine lt_of_userMapped h.sound.1.kernel (userMapped_iff.mpr ?_) hva
  rw [h.pte]
  exact ⟨hp, hu⟩

variable (hT : T.Nodup)
include hT

/-- `copyout` below the stack pointer: it stores the string into the stack page, or fails for lack of room. -/
theorem push_view {top sp a : Nat} {buf : List UInt8} (hst : StackPage top S) (hlo : top - PGSIZE ≤ sp) (hhi : sp ≤ top)
    (hsp : sp % 4 = 0) (hn : 0 < buf.length) (ha : a = (sp + WORD - buf.length % WORD) % WORD / 4 * 4) :
    Triple E (Owns T (view d S + R)) (copyoutChecked d a buf) fun r k => ∃ S', Owns T (view d S' + R) k ∧
      S'.pte = S.pte ∧ (0 ≤ r → (top - PGSIZE ≤ a ∧ a + buf.length ≤ sp ∧ a = sp - (buf.length + 3) / 4 * 4) ∧
        S'.byte = Bytes.store S.byte a buf) ∧ (top - PGSIZE + (buf.length + 3) / 4 * 4 ≤ sp → 0 ≤ r) := by
  have hword : a < WORD := by rw [ha]; unfold WORD; omega
  refine Triple.given (p := ∀ va < WORD, present (S.pte va) → user (S.pte va) → va < KERNBASE)
    (fun k hk va hva => hk.lt_of_user hva) fun huser => ?_
  refine (copyoutChecked_view hT hword buf).post fun r k hk => ?_
  obtain ⟨S', hk, hpte, hbyte, hok⟩ := hk
  refine ⟨S', hk, hpte, fun hr => ?_, fun hroom => hok.mpr fun i hi => ?_⟩
  case refine_2 =>
    have hsize := hst.size
    rw [Nat.mod_eq_of_lt (by unfold KERNBASE WORD at *; omega)]
    exact hst.page _ (by unfold KERNBASE WORD at *; omega) (by unfold KERNBASE WORD at *; omega)
  have hall := hok.mp hr
  have haddr := push_address hst.size hst.aligned hst.two hlo hhi hsp hn ha fun i hi => by
    obtain ⟨hp, hu⟩ := hall i hi
    have hlt := huser _ (Nat.mod_lt _ (by decide)) hp hu
    refine ⟨?_, fun hin => hst.guard _ hin.1 hin.2 hu⟩
    by_contra hge
    exact hst.above _ hlt (Nat.not_lt.mp hge) hp
  refine ⟨haddr, ?_⟩
  have hsmall : ∀ i < buf.length, (a + i) % WORD = a + i := by
    intro i hi
    refine Nat.mod_eq_of_lt ?_
    have := hst.size
    unfold KERNBASE WORD at *
    omega
  rw [hbyte hr, Bytes.scatter_congr _ _ hsmall, Bytes.scatter_add _ _ _ le_rfl, List.take_length]

/-- What the loop over the arguments leaves, from stack pointer `sp` on. -/
def ArgsPushed (T : Multiset Nat) (R : Region Nat Page) (d top : Nat) (S : View) (argv : List (List UInt8)) (sp : Nat)
    (ustack : List Nat) (r : Option (Nat × List Nat)) (k : Kmem) : Prop :=
  ∃ S', Owns T (view d S' + R) k ∧ S'.pte = S.pte ∧
    (ustack.length + argv.length ≤ MAXARG → top - PGSIZE + (argv.map room).sum ≤ sp → r ≠ none) ∧
    ∀ lo ptrs, r = some (lo, ptrs) →
    (top - PGSIZE ≤ lo ∧ lo % 4 = 0 ∧ lo + (argv.map room).sum = sp ∧ ptrs.length ≤ MAXARG) ∧
    (∃ new, ptrs = ustack ++ new ∧ Strings S'.byte argv new sp lo) ∧
    ∀ x, ¬ (lo ≤ x ∧ x < sp) → S'.byte x = S.byte x

theorem pushArgs_view {top : Nat} (argv : List (List UInt8)) {sp : Nat} (ustack : List Nat) (hst : StackPage top S)
    (hw : Passes T d w (·.pte = S.pte)) (hlo : top - PGSIZE ≤ sp) (hhi : sp ≤ top) (hsp : sp % 4 = 0)
    (hlen : ustack.length ≤ MAXARG) :
    Triple E (Owns T (view d S + R)) (Watched.pushArgs w copyoutChecked d argv sp ustack)
      (ArgsPushed T R d top S argv sp ustack) := by
  induction argv generalizing sp ustack S with
  | nil =>
    refine Triple.ret fun k hk => ⟨S, hk, rfl, fun _ _ => nofun, fun lo ptrs h => ?_⟩
    obtain ⟨rfl, rfl⟩ := Prod.mk.inj (Option.some.inj h)
    exact ⟨⟨hlo, hsp, Nat.add_zero _, hlen⟩, ⟨[], (List.append_nil _).symm, rfl⟩, fun _ _ => rfl⟩
  | cons arg rest ih =>
    refine Triple.ite (fun _ => Triple.ret fun k hk => ⟨S, hk, rfl, fun hcount _ => ?_, fun _ _ h => nomatch h⟩)
      fun hmax => ?_
    · rw [List.length_cons] at hcount
      omega
    have hbuf : (arg ++ [0]).length = arg.length + 1 := by
      rw [List.length_append, List.length_singleton]
    -- `sp = (sp - (strlen(argv[argc]) + 1)) & ~3` in unsigned arithmetic.
    generalize haddr : (sp + WORD - (arg.length + 1) % WORD) % WORD / 4 * 4 = a
    refine (push_view hT hst hlo hhi hsp (by omega) (by rw [hbuf, haddr])).bind fun r => ?_
    refine Triple.exists_pre fun S₁ => Triple.given (fun k hk => hk.2.1) fun hpte => ?_
    refine hw.next hpte (fun _ h => h.1) (Triple.ite (fun _ => Triple.ret fun k hk => ?_) fun hr => ?_)
    · refine ⟨S₁, hk.1, hk.2.1, fun _ hroom => ?_, fun _ _ h => nomatch h⟩
      rw [List.map_cons, List.sum_cons, room] at hroom
      have := hk.2.2.2 (by rw [hbuf]; omega)
      omega
    refine Triple.given (fun k hk => hk.2.2.1 (Int.not_lt.mp hr)) fun hpushed => ?_
    obtain ⟨⟨hge, hle, hroom⟩, hbyte⟩ := hpushed
    rw [hbuf] at hle hroom
    have hal : a % 4 = 0 := by rw [← haddr]; exact Nat.mul_mod_left _ _
    refine ((ih (ustack ++ [a]) (hst.congr hpte) (hpte ▸ hw) hge (by omega) hal ?_).pre fun k hk => hk.1).post
      fun r' k hk => ?_
    · rw [List.length_append, List.length_singleton]
      omega
    obtain ⟨S₂, hk, hpte₂, hsome, hok⟩ := hk
    refine ⟨S₂, hk, hpte₂.trans hpte, fun hcount hroom => hsome ?_ ?_, fun lo ptrs h => ?_⟩
    · rw [List.length_cons] at hcount
      rw [List.length_append, List.length_singleton]
      omega
    · rw [List.map_cons, List.sum_cons, room] at hroom
      omega
    obtain ⟨⟨h1, h2, h3, h4⟩, ⟨new, rfl, hstr⟩, hoff⟩ := hok lo ptrs h
    have hloa := hstr.le
    refine ⟨⟨h1, h2, ?_, h4⟩, ⟨a :: new, ?_, ⟨hloa, hle, ?_⟩, hstr⟩, fun x hx => ?_⟩
    · have hne : (arg.length + 1 + 3) / 4 * 4 ≤ sp := by omega
      rw [List.map_cons, List.sum_cons, room]
      omega
    · rw [List.append_assoc, List.singleton_append]
    · -- the rest is pushed below this string
      have hsame : Bytes.slice S₂.byte a (arg.length + 1) = Bytes.slice S₁.byte a (arg.length + 1) :=
        Bytes.slice_congr fun i _ => hoff _ (by omega)
      rw [hsame, hbyte, ← hbuf, Bytes.slice_store]
    · rw [hoff x (by omega), hbyte]
      rcases Nat.lt_or_ge x a with hxa | hxa
      · exact Bytes.store_of_lt _ _ hxa
      · exact Bytes.store_of_le _ _ (by omega)

end

/-! ### The words on top of the strings -/

theorem wordBytes_eq (w : Nat) : wordBytes w = Bytes.le 4 w := by
  simp only [wordBytes, Bytes.le, Nat.div_div_eq_div_mul]
  rfl

theorem length_words (words : List Nat) : (words.flatMap wordBytes).length = 4 * words.length := by
  induction words with
  | nil => rfl
  | cons w ws ih =>
    rw [List.flatMap_cons, List.length_append, ih, wordBytes_eq, Bytes.length_le, List.length_cons]
    omega

/-- Words that have been stored can be read. -/
theorem wordAt_store (m : Nat → UInt8) (a : Nat) (words : List Nat) {i : Nat} (hi : i < words.length)
    (hw : words[i] < WORD) : wordAt (Bytes.store m a (words.flatMap wordBytes)) (a + 4 * i) = words[i] := by
  induction words generalizing m a i with
  | nil => exact absurd hi (Nat.not_lt_zero i)
  | cons w ws ih =>
    have hlen : (wordBytes w).length = 4 := by rw [wordBytes_eq, Bytes.length_le]
    rw [List.flatMap_cons, Bytes.store_append, hlen]
    cases i with
    | zero =>
      have hslice := Bytes.slice_store m a (wordBytes w)
      rw [hlen] at hslice
      show Bytes.number (Bytes.slice _ a 4) = w
      rw [Bytes.slice_store_of_disjoint _ (.inl le_rfl), hslice, wordBytes_eq, Bytes.number_le]
      exact Nat.mod_eq_of_lt hw
    | succ i =>
      have hnext : a + 4 * (i + 1) = a + 4 + 4 * i := by omega
      rw [hnext]
      exact ih (Bytes.store m a (wordBytes w)) (a + 4) (Nat.lt_of_succ_lt_succ hi) hw

/-- The words that `exec` puts at the stack pointer. -/
def ustackOf (esp : Nat) (argv : List (List UInt8)) (ptrs : List Nat) : List Nat :=
  [0xffffffff, argv.length, esp + 12] ++ ptrs ++ [0]

/-- The stack that `exec` leaves in the top page, below `top`. -/
structure StackBuilt (top : Nat) (argv : List (List UInt8)) (esp : Nat) (byte : Nat → UInt8) : Prop where
  aligned : esp % 4 = 0
  inside : top - PGSIZE ≤ esp ∧ esp < top
  need : esp + stackNeed argv = top
  args : ∃ ptrs : List Nat, ptrs.length = argv.length ∧
    (∀ i (_ : i < (ustackOf esp argv ptrs).length), wordAt byte (esp + 4 * i) = (ustackOf esp argv ptrs)[i]) ∧
    Strings byte argv ptrs top (esp + 4 * (ustackOf esp argv ptrs).length)

theorem length_ustackOf (esp : Nat) (argv : List (List UInt8)) (ptrs : List Nat) :
    (ustackOf esp argv ptrs).length = ptrs.length + 4 := by
  simp only [ustackOf, List.length_append, List.length_cons, List.length_nil]
  omega

theorem Strings.lt_of_mem {byte : Nat → UInt8} {argv : List (List UInt8)} {ptrs : List Nat} {hi lo : Nat}
    (h : Strings byte argv ptrs hi lo) {p : Nat} (hp : p ∈ ptrs) : p < hi := by
  induction argv generalizing ptrs hi with
  | nil =>
    cases ptrs with
    | nil => exact absurd hp List.not_mem_nil
    | cons q ps => exact h.elim
  | cons arg args ih =>
    cases ptrs with
    | nil => exact h.elim
    | cons q ps =>
      rcases List.mem_cons.mp hp with rfl | hp
      · have := h.1.2.1
        omega
      · exact lt_trans (ih h.2 hp) (by have := h.1.2.1; omega)

section
variable {L : Layout} {T : Multiset Nat} {R : Region Nat Page} {S : View} {d : Nat} {k : Kmem} {E : String → Prop}
variable {w : Kern Unit}
variable (hT : T.Nodup)
include hT

theorem pushUstack_view {top sp : Nat} {argv : List (List UInt8)} {ptrs : List Nat} (hst : StackPage top S)
    (hw : Passes T d w (·.pte = S.pte)) (hlo : top - PGSIZE ≤ sp) (hsp : sp % 4 = 0) (hsum : sp + (argv.map room).sum = top) (hlen : ptrs.length ≤ MAXARG)
    (hstr : Strings S.byte argv ptrs top sp) :
    Triple E (Owns T (view d S + R)) (Watched.pushUstack w copyoutChecked d sp ptrs)
      fun r k => ∃ S', Owns T (view d S' + R) k ∧ S'.pte = S.pte ∧
        (top - PGSIZE + 4 * (ptrs.length + 4) ≤ sp → r ≠ none) ∧ ∀ esp, r = some esp →
        StackBuilt top argv esp S'.byte ∧ esp ≤ sp ∧ ∀ x < esp, S'.byte x = S.byte x := by
  have hargc := hstr.length_eq
  have hhi : sp ≤ top := hsum ▸ Nat.le_add_right _ _
  have hmax : ptrs.length ≤ 32 := hlen
  unfold Watched.pushUstack
  dsimp only
  generalize hwords : [0xffffffff, ptrs.length, (sp + WORD - (ptrs.length + 1) * 4) % WORD] ++ ptrs ++ [0] = words
  have hcount : words.length = ptrs.length + 4 := by
    rw [← hwords]
    simp only [List.length_append, List.length_cons, List.length_nil]
    omega
  have hbytes : (words.flatMap wordBytes).length = 4 * (ptrs.length + 4) := by rw [length_words, hcount]
  generalize haddr : (sp + WORD - (3 + ptrs.length + 1) * 4) % WORD = a
  refine (push_view hT hst hlo hhi hsp (by omega) (by rw [hbytes]; unfold WORD at *; omega)).bind fun r => ?_
  refine Triple.exists_pre fun S₁ => Triple.given (fun k hk => hk.2.1) fun hpte => hw.next hpte (fun _ h => h.1)
    (Triple.ite (fun _ => Triple.ret fun k hk => ?_) fun hr => Triple.ret fun k hk => ?_)
  · refine ⟨S₁, hk.1, hk.2.1, fun hroom => ?_, fun _ h => nomatch h⟩
    have := hk.2.2.2 (by rw [hbytes]; omega)
    omega
  obtain ⟨hk, -, hok, -⟩ := hk
  obtain ⟨⟨hge, hle, hroom⟩, hbyte⟩ := hok (Int.not_lt.mp hr)
  rw [hbytes] at hle hroom
  have htop := hst.size
  refine ⟨S₁, hk, hpte, fun _ => nofun, fun esp hesp => ?_⟩
  obtain rfl := Option.some.inj hesp
  -- the pointer to the array is computed before the stack pointer moves
  have hustack : ustackOf a argv ptrs = words := by
    rw [← hwords, ustackOf, ← hargc]
    have hptr : a + 12 = (sp + WORD - (ptrs.length + 1) * 4) % WORD := by
      unfold KERNBASE WORD at *
      omega
    rw [hptr]
  have hsmall : ∀ w ∈ words, w < WORD := by
    intro w hw
    rw [← hwords] at hw
    simp only [List.mem_append, List.mem_cons, List.not_mem_nil, or_false] at hw
    rcases hw with ((rfl | rfl | rfl) | hw) | rfl
    · decide
    · exact lt_of_le_of_lt hmax (by decide)
    · exact Nat.mod_lt _ (by decide)
    · exact lt_trans (hstr.lt_of_mem hw) (lt_trans htop (by decide))
    · decide
  refine ⟨⟨by omega, ⟨hge, by omega⟩, ?_, ptrs, hargc, fun i hi => ?_, ?_⟩, by omega, fun x hx => ?_⟩
  · rw [stackNeed, ← hargc]
    omega
  · rw [hbyte]
    simp only [hustack] at hi ⊢
    exact wordAt_store S.byte a words hi (hsmall _ (List.getElem_mem hi))
  · have hend : a + 4 * (ustackOf a argv ptrs).length = sp := by
      rw [length_ustackOf]
      omega
    rw [hend, hbyte]
    exact hstr.congr fun x h1 _ => Bytes.store_of_le _ _ (by omega)
  · rw [hbyte]
    exact Bytes.store_of_lt _ _ hx

end

/-! ### The image -/

/-- What the address space of a process shows after `exec` has returned 0, for a size `sz` and a
stack pointer `esp`. -/
structure ExecView (content : List UInt8) (argv : List (List UInt8)) (sz esp : Nat) (S : View) : Prop where
  size : 2 * PGSIZE ≤ sz ∧ sz < KERNBASE
  top : sz = PGROUNDUP (imageEnd content) + 2 * PGSIZE
  below : ∀ ph ∈ segmentsOf content, ph.filesz ≤ ph.memsz ∧ ph.vaddr + ph.memsz ≤ sz - 2 * PGSIZE
  segments : (segmentsOf content).Pairwise Ascending → ∀ ph ∈ segmentsOf content, SegmentAt content ph S.byte
  guard : ∀ va, sz - 2 * PGSIZE ≤ va → va < sz - PGSIZE → present (S.pte va) ∧ ¬ user (S.pte va)
  pages : ∀ va < sz, ¬ (sz - 2 * PGSIZE ≤ va ∧ va < sz - PGSIZE) → present (S.pte va) ∧ user (S.pte va)
  stack : StackBuilt sz argv esp S.byte

theorem StackBuilt.congr {top esp : Nat} {argv : List (List UInt8)} {byte byte' : Nat → UInt8}
    (h : StackBuilt top argv esp byte) (hsame : ∀ x, esp ≤ x → x < top → byte' x = byte x) :
    StackBuilt top argv esp byte' := by
  obtain ⟨ptrs, hlen, hwords, hstr⟩ := h.args
  have hle := hstr.le
  refine ⟨h.aligned, h.inside, h.need, ptrs, hlen, fun i hi => ?_, hstr.congr fun x h1 h2 => hsame x (by omega) h2⟩
  refine Eq.trans (congrArg Bytes.number (Bytes.slice_congr fun j hj => ?_)) (hwords i hi)
  exact hsame _ (by omega) (by omega)

theorem ExecView.congr {content : List UInt8} {argv : List (List UInt8)} {sz esp : Nat} {S S' : View}
    (h : ExecView content argv sz esp S) (hpte : S'.pte = S.pte)
    (hbyte : ∀ va < KERNBASE, present (S.pte va) → S'.byte va = S.byte va) : ExecView content argv sz esp S' := by
  have hsize := h.size
  have hsame : ∀ va < sz, ¬ (sz - 2 * PGSIZE ≤ va ∧ va < sz - PGSIZE) → S'.byte va = S.byte va :=
    fun va hva hin => hbyte va (by omega) (h.pages va hva hin).1
  refine ⟨h.size, h.top, h.below, fun hpair ph hph => ?_, ?_, ?_, h.stack.congr fun x h1 h2 => ?_⟩
  · obtain ⟨hfile, hfit⟩ := h.below ph hph
    exact (h.segments hpair ph hph).congr hfile fun x h1 h2 => hsame x (by omega) (by omega)
  · rw [hpte]
    exact h.guard
  · rw [hpte]
    exact h.pages
  · have := h.stack.inside.1
    exact hsame x h2 (by omega)

theorem not_user_clearU (pte : Nat) : ¬ user (clearU pte) := by
  unfold clearU
  split
  case isTrue h =>
    rw [user_iff] at h ⊢
    unfold PTE_U
    omega
  case isFalse h => exact h

/-- The view after `clearpteu` on the lower one of the two new pages. -/
def guarded (S : View) (top : Nat) : View := S.setPte (top - 2 * PGSIZE) (clearU (S.pte (top - 2 * PGSIZE)))

section
variable {content : List UInt8} {done : List Proghdr} {sz top : Nat} {S S₁ : View}
variable (hS : ImageTo content done sz S) (htop : top = PGROUNDUP sz + 2 * PGSIZE) (hlt : top < KERNBASE)
variable (hg : Grown (PGROUNDUP sz) top S S₁)

include htop hlt in
theorem PGROUNDUP_top : PGROUNDUP top = top := by
  have hmod := PGROUNDUP_mod sz
  generalize PGROUNDUP sz = lo at *
  unfold PGROUNDUP PGSIZE WORD KERNBASE at *
  omega

include hS htop hlt hg

theorem below_top : (∀ va < top, present (S₁.pte va) ∧ user (S₁.pte va)) ∧
    ∀ va < KERNBASE, top ≤ va → ¬ present (S₁.pte va) := by
  have hle := (PGROUNDUP_le hS.size.le).2
  have h := hS.below_grown (show sz ≤ top by omega) hlt (by rw [PGROUNDUP_top htop hlt]; exact hg)
  rw [PGROUNDUP_top htop hlt] at h
  exact h

omit hS hg in
theorem guarded_pte {va : Nat} (hva : va < WORD) : (guarded S₁ top).pte va =
    if top - 2 * PGSIZE ≤ va ∧ va < top - PGSIZE then clearU (S₁.pte (top - 2 * PGSIZE)) else S₁.pte va := by
  have hmod := PGROUNDUP_mod sz
  have hiff := samePage_page (a := top - 2 * PGSIZE) (by rw [htop, Nat.add_sub_cancel]; exact hmod) (by omega) hva
  have hsub : top - 2 * PGSIZE + PGSIZE = top - PGSIZE := by unfold PGSIZE at *; omega
  rw [hsub] at hiff
  show (if _ then _ else _) = _
  by_cases hsame : SamePage va (top - 2 * PGSIZE)
  · rw [if_pos hsame, if_pos (hiff.mp hsame)]
  · rw [if_neg hsame, if_neg (mt hiff.mpr hsame)]

theorem stackPage_guarded : StackPage top (guarded S₁ top) := by
  obtain ⟨hbelow, habove⟩ := below_top hS htop hlt hg
  have hmod := PGROUNDUP_mod sz
  refine ⟨?_, by omega, hlt, fun va h1 h2 => ?_, fun va h1 h2 => ?_, fun va hva hge => ?_⟩
  · rw [htop]
    unfold PGSIZE at *
    omega
  · rw [guarded_pte htop hlt (by unfold KERNBASE WORD at *; omega), if_pos ⟨h1, h2⟩]
    exact not_user_clearU _
  · rw [guarded_pte htop hlt (by unfold KERNBASE WORD at *; omega), if_neg (by omega)]
    exact hbelow va h2
  · rw [guarded_pte htop hlt (lt_trans hva (by decide)), if_neg (by unfold PGSIZE at *; omega)]
    exact habove va hva hge

theorem execView_of_stack {argv : List (List UInt8)} {esp : Nat} {S₃ : View} (hdone : done = segmentsOf content)
    (hpte : S₃.pte = (guarded S₁ top).pte) (hbyte : ∀ x < esp, S₃.byte x = S₁.byte x)
    (hstack : StackBuilt top argv esp S₃.byte) : ExecView content argv top esp S₃ := by
  obtain ⟨hbelow, -⟩ := below_top hS htop hlt hg
  have hst := stackPage_guarded hS htop hlt hg
  have hup := (PGROUNDUP_le hS.size.le).2
  have hin := hstack.inside.1
  have hsub : top - 2 * PGSIZE = PGROUNDUP sz := by omega
  have hsz : sz = imageEnd content := by
    rw [hdone] at hS
    refine le_antisymm ?_ (List.max_le_of_forall_le _ _ (List.forall_mem_map.mpr hS.fits))
    rcases hS.top with rfl | ⟨ph, hph, rfl⟩
    · exact Nat.zero_le _
    · exact List.le_max_of_le (List.mem_map_of_mem hph) le_rfl
  refine ⟨⟨hst.two, hlt⟩, hsz ▸ htop, fun ph hph => ?_, fun hpair ph hph => ?_, fun va h1 h2 => ?_, fun va hva hout => ?_, hstack⟩
  · rw [← hdone] at hph
    exact ⟨hS.files ph hph, by rw [hsub]; exact le_trans (hS.fits ph hph) hup⟩
  · rw [← hdone] at hph hpair
    refine (hS.segments hpair ph hph).congr (hS.files ph hph) fun x h1 h2 => ?_
    have hx : x < PGROUNDUP sz := lt_of_lt_of_le h2 (le_trans (hS.fits ph hph) hup)
    rw [hbyte x (by unfold PGSIZE at *; omega)]
    exact (hg.off x (by unfold KERNBASE WORD at *; omega) (by omega)).2
  · have hword : va < WORD := by unfold KERNBASE WORD at *; omega
    refine ⟨?_, hpte ▸ hst.guard va h1 h2⟩
    rw [hpte, guarded_pte htop hlt hword, if_pos ⟨h1, h2⟩, present_clearU]
    exact (hbelow _ (by unfold PGSIZE at *; omega)).1
  · rw [hpte, guarded_pte htop hlt (by unfold KERNBASE WORD at *; omega), if_neg hout]
    exact hbelow va hva

end

theorem ExecView.mapped {content : List UInt8} {argv : List (List UInt8)} {sz esp : Nat} {S : View}
    (h : ExecView content argv sz esp S) : ∀ va < PGROUNDUP sz, present (S.pte va) := by
  intro va hva
  rw [PGROUNDUP_top h.top h.size.2] at hva
  by_cases hin : sz - 2 * PGSIZE ≤ va ∧ va < sz - PGSIZE
  · exact (h.guard va hin.1 hin.2).1
  · exact (h.pages va hva hin).1

section
variable {L : Layout} {T : Multiset Nat} {R : Region Nat Page} {S : View} {d : Nat} {E : String → Prop}
variable (hT : T.Nodup) (hF : ∀ f ∈ T, IsFrame L f)
include hT hF

theorem buildStack_view {φ : Prop} {w : Nat → Kern Unit} (hw : Watch T d w) {content : List UInt8}
    {argv : List (List UInt8)} {sz : Nat} (hS : ImageTo content (segmentsOf content) sz S)
    (hφ : φ → (stackNeed argv ≤ PGSIZE ∧ argv.length ≤ MAXARG) ∧ PGROUNDUP sz + 2 * PGSIZE < KERNBASE) :
    Triple E (fun k => Plenty φ 4 k ∧ Owns T (view d S + R) k)
      (Watched.buildStack w copyoutChecked L argv d sz)
      fun r k => ∃ S', Owns T (view d S' + R) k ∧ (φ → r ≠ none) ∧
        ∀ top esp, r = some (top, esp) → ExecView content argv top esp S' := by
  have hround : PGROUNDUP (PGROUNDUP sz) = PGROUNDUP sz := by
    have := hS.size
    unfold PGROUNDUP PGSIZE WORD KERNBASE at *
    omega
  have hsum : (PGROUNDUP sz + 2 * PGSIZE) % WORD = PGROUNDUP sz + 2 * PGSIZE := by
    have := (PGROUNDUP_le hS.size.le).1
    exact Nat.mod_eq_of_lt (by unfold WORD PGSIZE KERNBASE at *; omega)
  have hbelow : ∀ va < PGROUNDUP (PGROUNDUP sz), present (S.pte va) := by
    rw [hround]
    exact fun va hva => (hS.below va hva).1
  have habove : ∀ va < KERNBASE, PGROUNDUP (PGROUNDUP sz) ≤ va → ¬ present (S.pte va) := by
    rw [hround]
    exact hS.above
  unfold Watched.buildStack
  simp only [hsum]
  generalize htwo : 2 * PGSIZE = two at *
  have hpos : 0 < two := by rw [← htwo]; decide
  have halloc := allocuvm_image (E := E) (R := R) hT hF hw (PGROUNDUP sz + two) (PGROUNDUP_le hS.size.le).1
    (fun h => absurd h (by omega)) hbelow habove
  have hplenty : Triple Ever (Plenty φ 4) (allocuvm L d (PGROUNDUP sz) (PGROUNDUP sz + two)) (Succeeds φ (· ≠ 0) 0) := by
    by_cases hp : φ
    · refine Triple.post (allocuvm_plenty (x := 0) (n := 2) L d (hφ hp).2 ?_) fun r k hr => ⟨fun h => ?_, hr.2⟩
      · rw [hround]
        unfold pagesIn PGSIZE at *
        omega
      · have := hr.1 h
        omega
    · exact failed fun _ _ => hp
  rw [← Watched.allocuvm_unwatched] at hplenty
  refine (hw.passes _).next hbelow (fun _ h => h.2) ((((Watched.allocuvm_erases (hw.watches _)).triple (fun _ => trivial) hplenty).and
    halloc).bind fun top => ?_)
  refine (Triple.exists_pre (P := fun S₁ k => (φ → top ≠ 0) ∧ Owns T (view d S₁ + R) k ∧ _) fun S₁ => ?_).pre
    fun k ⟨⟨h, _⟩, S', hk⟩ => ⟨S', h, hk⟩
  -- `goto bad`: there is no page left for the stack.
  by_cases hr : top = 0
  · subst hr
    refine (hw.passes 0).next (fun va hva => absurd hva (Nat.not_lt_zero va)) (fun _ h => h.2.1)
      (Triple.ite (fun _ => Triple.ret fun k hk => ?_) fun h => absurd rfl h)
    exact ⟨S₁, hk.2.1, fun hp => absurd rfl (hk.1 hp), fun _ _ h => nomatch h⟩
  refine Triple.pre ?_ fun k hk => hk.2
  refine Triple.given (fun k hk => hk.2 hr) fun hgrown => ?_
  obtain ⟨hlt, hmax, hg⟩ := hgrown
  rw [Nat.max_eq_right (Nat.le_add_right _ _), ← htwo] at hmax
  rw [hround, PGROUNDUP_top hmax hlt] at hg
  have hst := stackPage_guarded hS hmax hlt hg
  have hall := (below_top hS hmax hlt hg).1
  have hpass : Passes T d (w top) (·.pte = (guarded S₁ top).pte) := by
    refine fun S' R k hpte => (hw.passes top) S' R k fun va hva => ?_
    rw [PGROUNDUP_top hmax hlt] at hva
    rw [hpte, guarded_pte hmax hlt (by unfold KERNBASE WORD at *; omega)]
    split
    · rw [present_clearU]
      exact (hall _ (by omega)).1
    · exact (hall va hva).1
  refine (hw.passes top).next (fun va hva => (hall va (by rwa [PGROUNDUP_top hmax hlt] at hva)).1) (fun _ h => h.1)
    (Triple.ite (fun h => absurd h hr) fun _ => ?_)
  -- The lower one of the two new pages becomes the guard page.
  refine ((clearpteu_view hT (by omega) (hall (top - two) (by omega)).1).pre fun k hk => hk.1).bind fun _ => ?_
  refine hpass.next (S := guarded S₁ top) rfl (fun k hk => by rw [guarded, htwo]; exact hk) ?_
  have hargs := pushArgs_view (E := E) (T := T) (R := R) (d := d) hT argv [] hst hpass (Nat.sub_le _ _) le_rfl
    (by have := hst.aligned; unfold PGSIZE at *; omega) (Nat.zero_le _)
  unfold guarded at hargs
  rw [htwo] at hargs
  refine hargs.bind fun args => Triple.exists_pre fun S₂ => ?_
  cases args with
  | none =>
    refine Triple.ret fun k hk => ⟨S₂, hk.1, fun hp => absurd rfl (hk.2.2.1 ?_ ?_), fun _ _ h => nomatch h⟩
    · rw [List.length_nil, Nat.zero_add]
      exact (hφ hp).1.2
    · have := (hφ hp).1.1
      unfold stackNeed at this
      omega
  | some args =>
    refine Triple.given (fun k hk => hk.2.1) fun hpte => Triple.given (fun k hk => hk.2.2.2 _ _ rfl) fun hpushed => ?_
    obtain ⟨⟨hge, hal, hspace, hlen⟩, ⟨new, hnew, hstr⟩, hoff⟩ := hpushed
    rw [List.nil_append] at hnew
    rw [← hnew] at hstr
    have hpte' : S₂.pte = (guarded S₁ top).pte := by
      rw [hpte, guarded, htwo]
    refine ((pushUstack_view hT (hst.congr hpte') (hpte' ▸ hpass) hge hal hspace hlen hstr).pre fun k hk => hk.1).bind fun esp => ?_
    refine Triple.exists_pre fun S₃ => ?_
    cases esp with
    | none =>
      refine Triple.ret fun k hk => ⟨S₃, hk.1, fun hp => absurd rfl (hk.2.2.1 ?_), fun _ _ h => nomatch h⟩
      have := (hφ hp).1.1
      have hargc := hstr.length_eq
      unfold stackNeed at this
      omega
    | some esp =>
      refine Triple.ret fun k hk => ⟨S₃, hk.1, fun _ => nofun, fun top' esp' h => ?_⟩
      obtain ⟨rfl, rfl⟩ := Prod.mk.inj (Option.some.inj h)
      obtain ⟨hbuilt, hesp, hbelow⟩ := hk.2.2.2 _ rfl
      refine execView_of_stack hS hmax hlt hg rfl (hk.2.1.trans hpte') (fun x hx => ?_) hbuilt
      rw [hbelow x hx]
      exact hoff x fun hin => absurd (lt_of_lt_of_le hx hesp) (Nat.not_lt.mpr hin.1)

end

/-- Each pointer addresses its string. -/
theorem Strings.get {byte : Nat → UInt8} {argv : List (List UInt8)} {ptrs : List Nat} {hi lo i p : Nat}
    {arg : List UInt8} (h : Strings byte argv ptrs hi lo) (harg : argv[i]? = some arg) (hp : ptrs[i]? = some p) :
    (lo ≤ p ∧ p + (arg.length + 1) ≤ hi) ∧ Bytes.slice byte p (arg.length + 1) = arg ++ [0] := by
  induction argv generalizing ptrs hi i with
  | nil => exact nomatch harg
  | cons a args ih =>
    cases ptrs with
    | nil => exact nomatch hp
    | cons q ps =>
      cases i with
      | zero =>
        obtain rfl := Option.some.inj harg
        obtain rfl := Option.some.inj hp
        exact ⟨⟨h.1.1, h.1.2.1⟩, h.1.2.2⟩
      | succ i =>
        obtain ⟨⟨hlo, hhi⟩, hslice⟩ := ih h.2 harg hp
        exact ⟨⟨hlo, hhi.trans ((Nat.le_add_right _ _).trans h.1.2.1)⟩, hslice⟩

/-- A later string lies below an earlier one. -/
theorem Strings.apart {byte : Nat → UInt8} {argv : List (List UInt8)} {ptrs : List Nat} {hi lo i j p q : Nat}
    {arg : List UInt8} (h : Strings byte argv ptrs hi lo) (hij : i < j) (harg : argv[j]? = some arg)
    (hp : ptrs[i]? = some p) (hq : ptrs[j]? = some q) : q + (arg.length + 1) ≤ p := by
  induction argv generalizing ptrs hi i j with
  | nil => exact nomatch harg
  | cons a args ih =>
    cases ptrs with
    | nil => exact nomatch hp
    | cons r ps =>
      cases j with
      | zero => exact absurd hij (Nat.not_lt_zero i)
      | succ j =>
        cases i with
        | zero =>
          obtain rfl := Option.some.inj hp
          exact (h.2.get harg hq).1.2
        | succ i => exact ih h.2 (Nat.lt_of_succ_lt_succ hij) harg hp hq

/-- The image that `exec` owes the new program, as the process with registers and size `u` sees
memory `m`. The pointer block takes `16 + 4 * argc` bytes from `esp` on. -/
structure ExecImage (content : List UInt8) (argv : List (List UInt8)) (u : UserImage) (m : Mem) : Prop where
  segments : ∀ ph ∈ segmentsOf content,
    SegmentAt content ph (viewOf m u.pgdir).byte ∧ ph.vaddr + ph.memsz ≤ u.sz - 2 * PGSIZE
  guard : ∀ va, u.sz - 2 * PGSIZE ≤ va → va < u.sz - PGSIZE →
    present ((viewOf m u.pgdir).pte va) ∧ ¬ user ((viewOf m u.pgdir).pte va)
  esp : u.esp % 4 = 0 ∧ u.sz - PGSIZE ≤ u.esp ∧ u.esp < u.sz
  args : ∃ ptrs : List Nat, ptrs.length = argv.length ∧
    (∀ (i : Nat) w, ([0xffffffff, argv.length, u.esp + 12] ++ ptrs ++ [0])[i]? = some w →
      wordAt (viewOf m u.pgdir).byte (u.esp + 4 * i) = w) ∧
    (∀ (i : Nat) arg p, argv[i]? = some arg → ptrs[i]? = some p →
      (u.esp + (16 + 4 * argv.length) ≤ p ∧ p + (arg.length + 1) ≤ u.sz) ∧
      Bytes.slice (viewOf m u.pgdir).byte p (arg.length + 1) = arg ++ [0]) ∧
    ∀ (i j : Nat) arg p q, i < j → argv[j]? = some arg → ptrs[i]? = some p → ptrs[j]? = some q → q + (arg.length + 1) ≤ p

theorem ExecView.image {content : List UInt8} {argv : List (List UInt8)} {u : UserImage} {m : Mem}
    (h : ExecView content argv u.sz u.esp (viewOf m u.pgdir)) (hasc : (segmentsOf content).Pairwise Ascending) :
    ExecImage content argv u m := by
  obtain ⟨ptrs, hlen, hwords, hstr⟩ := h.stack.args
  have hblock : u.esp + 4 * (ustackOf u.esp argv ptrs).length = u.esp + (16 + 4 * argv.length) := by
    rw [length_ustackOf, hlen]
    omega
  rw [hblock] at hstr
  refine ⟨fun ph hph => ⟨h.segments hasc ph hph, (h.below ph hph).2⟩, h.guard, ⟨h.stack.aligned, h.stack.inside⟩, ptrs,
    hlen, fun i w hw => ?_, fun i arg p harg hp => hstr.get harg hp,
    fun i j arg p q hij harg hp hq => hstr.apart hij harg hp hq⟩
  obtain ⟨hi, rfl⟩ := List.getElem?_eq_some_iff.mp hw
  exact hwords i hi

end Chameleon.Vm
