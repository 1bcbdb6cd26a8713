import Mathlib.Algebra.BigOperators.Group.Finset.Basic
import Chameleon.Vm.ExecCall
import Chameleon.Vm.Process

/-! Every page frame has exactly one owner after every operation. -/

namespace Chameleon.Vm
open Region Hoare
open Ptable (Slot)

/-- The pages of a process: its kernel stack and its address space. -/
def procRegion (q : Ptable.Proc) : Region Nat (Nat → Nat) :=
  if q.state = .unused then 0 else q.kstack.elim 0 single + q.pgdir.elim 0 space

def procs (t : Table) : Region Nat (Nat → Nat) := ∑ p, procRegion (t.proc p)

/-- The pages of all processes but `p`. -/
def others (t : Table) (p : Slot) : Region Nat (Nat → Nat) := ∑ q ∈ Finset.univ.erase p, procRegion (t.proc q)

/-- A slot in use has a kernel stack, and an address space below `KERNBASE`. -/
def TableOk (t : Table) : Prop :=
  ∀ p, (t.proc p).state ≠ .unused →
    (t.proc p).kstack.isSome ∧ (t.proc p).pgdir.isSome ∧ (t.proc p).sz < KERNBASE

theorem procs_split (t : Table) (p : Slot) : procs t = procRegion (t.proc p) + others t p :=
  (Finset.add_sum_erase _ _ (Finset.mem_univ p)).symm

theorem others_congr {t t' : Table} {p : Slot} (h : ∀ q, q ≠ p → t'.proc q = t.proc q) :
    others t' p = others t p :=
  Finset.sum_congr rfl fun q hq => by rw [h q (Finset.ne_of_mem_erase hq)]

theorem procRegion_unused {q : Ptable.Proc} (h : q.state = .unused) : procRegion q = 0 := if_pos h

theorem procRegion_used {q : Ptable.Proc} (h : q.state ≠ .unused) {stack d : Nat}
    (hs : q.kstack = some stack) (hd : q.pgdir = some d) : procRegion q = single stack + space d := by
  rw [procRegion, if_neg h, hs, hd]
  rfl

/-- Two contents of a slot with the same pages, both in use or both not. -/
def SameSpace (q' q : Ptable.Proc) : Prop :=
  (q'.state = .unused ↔ q.state = .unused) ∧ q'.kstack = q.kstack ∧ q'.pgdir = q.pgdir ∧ q'.sz = q.sz

theorem SameSpace.refl (q : Ptable.Proc) : SameSpace q q := ⟨Iff.rfl, rfl, rfl, rfl⟩

theorem SameSpace.trans {q q' q'' : Ptable.Proc} (h : SameSpace q'' q') (h' : SameSpace q' q) :
    SameSpace q'' q :=
  ⟨h.1.trans h'.1, h.2.1.trans h'.2.1, h.2.2.1.trans h'.2.2.1, h.2.2.2.trans h'.2.2.2⟩

theorem setProc_self (t : Table) (p : Slot) (f : Ptable.Proc → Ptable.Proc) :
    (t.setProc p f).proc p = f (t.proc p) := Function.update_self _ _ _

theorem setProc_of_ne (t : Table) {p q : Slot} (f : Ptable.Proc → Ptable.Proc) (h : q ≠ p) :
    (t.setProc p f).proc q = t.proc q := Function.update_of_ne h _ _

theorem TableOk.set {t t' : Table} (ht : TableOk t) {p : Slot} (h : ∀ q, q ≠ p → t'.proc q = t.proc q)
    (hp : (t'.proc p).state ≠ .unused →
      (t'.proc p).kstack.isSome ∧ (t'.proc p).pgdir.isSome ∧ (t'.proc p).sz < KERNBASE) : TableOk t' := by
  intro q hq
  by_cases hqp : q = p
  · rw [hqp] at hq ⊢
    exact hp hq
  · rw [h q hqp] at hq ⊢
    exact ht q hq

theorem Live.used {t : Table} {p : Slot} (h : Live t p) : (t.proc p).state ≠ .unused := by
  rcases h with h | h | h <;> rw [h] <;> decide

theorem scan_some {t : Table} {test : Ptable.Proc → Bool} {p : Slot} (h : t.scan test = some p) :
    test (t.proc p) = true :=
  List.find?_some (p := fun p => test (t.proc p)) h

theorem allocproc_some {t t' : Table} {np : Slot} (h : Ptable.allocproc t = some (np, t')) :
    (t.proc np).state = .unused ∧ ∀ q, q ≠ np → t'.proc q = t.proc q := by
  obtain ⟨p, hp, heq⟩ := Option.map_eq_some_iff.mp h
  obtain ⟨rfl, rfl⟩ := Prod.mk.inj heq
  exact ⟨by simpa using scan_some hp, fun q hq => Function.update_of_ne hq _ _⟩

section
variable {L : Layout} {T : Multiset Nat} {R : Region Nat (Nat → Nat)} {t : Table} {cur : Slot}
variable (hT : T.Nodup) (hF : ∀ f ∈ T, IsFrame L f)

/-- What an operation of a live process guarantees. -/
def Keeps (T : Multiset Nat) (R : Region Nat (Nat → Nat)) (t' : Table) (k : Kmem) : Prop :=
  TableOk t' ∧ Acct T (procs t' + R) k

/-- An operation that replaces the pages of one slot. -/
theorem Keeps.replace (ht : TableOk t) {t' : Table} {p : Slot} {k : Kmem}
    (hother : ∀ q, q ≠ p → t'.proc q = t.proc q)
    (hok : (t'.proc p).state ≠ .unused →
      (t'.proc p).kstack.isSome ∧ (t'.proc p).pgdir.isSome ∧ (t'.proc p).sz < KERNBASE)
    (hk : Acct T (procRegion (t'.proc p) + (others t p + R)) k) : Keeps T R t' k := by
  refine ⟨ht.set hother hok, ?_⟩
  rw [procs_split t' p, others_congr hother, add_assoc]
  exact hk

/-- An operation that changes neither the pages of a slot nor whether it is in use. -/
theorem Keeps.same (ht : TableOk t) {t' : Table} {k : Kmem} (h : ∀ p, SameSpace (t'.proc p) (t.proc p))
    (hk : Acct T (procs t + R) k) : Keeps T R t' k := by
  constructor
  · intro p hp
    obtain ⟨hs, h1, h2, h3⟩ := h p
    rw [h1, h2, h3]
    exact ht p fun hun => hp (hs.mpr hun)
  · have hregion : procs t' = procs t := by
      refine Finset.sum_congr rfl fun p _ => ?_
      obtain ⟨hs, h1, h2, -⟩ := h p
      simp only [procRegion, hs, h1, h2]
    rw [hregion]
    exact hk

theorem pgdirOf_spec {E : String → Prop} {q : Ptable.Proc} {d : Nat} (hd : q.pgdir = some d) {P : Kmem → Prop} :
    Triple E P (pgdirOf q) fun r k => r = d ∧ P k := by
  rw [pgdirOf, hd]
  exact Triple.ret fun k hk => ⟨rfl, hk⟩

include hT hF

theorem fork_spec (ht : TableOk t) (hcur : Live t cur) :
    Triple Stops (Acct T (procs t + R)) (fork L t cur) (Keeps T R) := by
  unfold fork
  cases halloc : Ptable.allocproc t with
  | none => exact Triple.ret fun k hk => ⟨ht, hk⟩
  | some npt =>
    obtain ⟨np, t₁⟩ := npt
    obtain ⟨hun, hother⟩ := allocproc_some halloc
    have hne : cur ≠ np := fun h => hcur.used (h ▸ hun)
    have hset : ∀ f q, q ≠ np → (t₁.setProc np f).proc q = t.proc q :=
      fun f q hq => (setProc_of_ne t₁ f hq).trans (hother q hq)
    have hprocs : procs t + R = others t np + R := by
      rw [procs_split t np, procRegion_unused hun, zero_add]
    have hfailed : ∀ k f, (f (t₁.proc np)).state = .unused → Acct T (others t np + R) k →
        Keeps T R (t₁.setProc np f) k := by
      intro k f hf hk
      refine Keeps.replace ht (hset f) (fun h => absurd (setProc_self t₁ np f ▸ hf) h) ?_
      rw [setProc_self, procRegion_unused hf, zero_add]
      exact hk
    obtain ⟨-, hd, hsz⟩ := ht cur hcur.used
    obtain ⟨d₀, hd₀⟩ := Option.isSome_iff_exists.mp hd
    rw [hprocs]
    refine kalloc_granted.bind fun r => ?_
    cases r with
    | none => exact Triple.ret fun k hk => hfailed k _ rfl hk
    | some stack =>
      rw [hother cur hne]
      refine (pgdirOf_spec hd₀).bind fun pgdir => Triple.assume fun _ => ?_
      refine (copyuvm_spec hT hF (le_of_lt hsz)).bind fun r => ?_
      cases r with
      | none => exact (kfree_spec hT hF).bind fun _ => Triple.ret fun k hk => hfailed k _ rfl hk
      | some d =>
        refine Triple.ret fun k hk => Keeps.replace ht (hset _) (fun _ => ?_) ?_
        · rw [setProc_self]
          exact ⟨rfl, rfl, hsz⟩
        · rw [setProc_self, procRegion_used (by simp) (rfl : _ = some stack) (rfl : _ = some d),
            add_comm (single stack), add_assoc]
          exact hk

omit hT hF in
/-- The pages of a live process, apart from those of the others. -/
theorem procs_live (ht : TableOk t) (hcur : Live t cur) : ∃ stack d,
    (t.proc cur).kstack = some stack ∧ (t.proc cur).pgdir = some d ∧
      procs t + R = space d + (single stack + (others t cur + R)) := by
  obtain ⟨hs, hd, -⟩ := ht cur hcur.used
  obtain ⟨stack, hs⟩ := Option.isSome_iff_exists.mp hs
  obtain ⟨d, hd⟩ := Option.isSome_iff_exists.mp hd
  refine ⟨stack, d, hs, hd, ?_⟩
  rw [procs_split t cur, procRegion_used hcur.used hs hd]
  abel

omit hT hF in
/-- A live process gets the address space `d`, or keeps its own, with a new size. -/
theorem Keeps.resize (ht : TableOk t) (hcur : Live t cur) {stack d : Nat}
    (hs : (t.proc cur).kstack = some stack) {f : Ptable.Proc → Ptable.Proc}
    (hstate : ∀ q, (f q).state = q.state) (hstack : ∀ q, (f q).kstack = q.kstack)
    (hd : (f (t.proc cur)).pgdir = some d) (hsz : (f (t.proc cur)).sz < KERNBASE) {k : Kmem}
    (hk : Acct T (space d + (single stack + (others t cur + R))) k) : Keeps T R (t.setProc cur f) k := by
  refine Keeps.replace ht (fun q hq => setProc_of_ne t f hq) (fun _ => ?_) ?_
  · rw [setProc_self, hd, hstack, hs]
    exact ⟨rfl, rfl, hsz⟩
  · have hused : (f (t.proc cur)).state ≠ .unused := by
      rw [hstate]
      exact hcur.used
    rw [setProc_self, procRegion_used hused ((hstack _).trans hs) hd, add_comm (single stack), add_assoc]
    exact hk

theorem growproc_spec (n : Int) (ht : TableOk t) (hcur : Live t cur) :
    Triple Stops (Acct T (procs t + R)) (growproc L n t cur) fun r => Keeps T R r.2 := by
  obtain ⟨stack, d, hs, hd, hsplit⟩ := procs_live (R := R) ht hcur
  have hsz := (ht cur hcur.used).2.2
  have hsame : ∀ k, Acct T (space d + (single stack + (others t cur + R))) k → Keeps T R t k :=
    fun k hk => ⟨ht, hsplit ▸ hk⟩
  unfold growproc
  rw [hsplit]
  refine (pgdirOf_spec hd).bind fun pgdir => Triple.assume ?_
  rintro rfl
  refine Triple.ite (fun _ => ?_) fun _ => Triple.ite (fun _ => ?_) fun _ => ?_
  · refine (allocuvm_spec hT hF fun _ => hsz).bind fun r => ?_
    refine Triple.ite (fun _ => Triple.ret fun k hk => hsame k hk.2) fun _ => Triple.ret fun k hk => ?_
    exact Keeps.resize (f := fun q => { q with sz := r }) ht hcur hs (fun _ => rfl) (fun _ => rfl) hd hk.1 hk.2
  · refine (deallocuvm_spec hT hF (le_of_lt hsz)).bind fun r => ?_
    refine Triple.ite (fun _ => Triple.ret fun k hk => hsame k hk.2) fun _ => Triple.ret fun k hk => ?_
    exact Keeps.resize (f := fun q => { q with sz := r }) ht hcur hs (fun _ => rfl) (fun _ => rfl) hd
      (lt_of_le_of_lt hk.1 hsz) hk.2
  · refine Triple.ret fun k hk => ?_
    exact Keeps.resize (f := fun q => { q with sz := (t.proc cur).sz }) ht hcur hs (fun _ => rfl) (fun _ => rfl)
      hd hsz hk

omit hT hF in
theorem wakeup1_same (t : Table) (c : Ptable.Chan) (p : Slot) :
    SameSpace ((Ptable.wakeup1 t c).proc p) (t.proc p) := by
  unfold Ptable.wakeup1
  dsimp only
  split
  case isTrue h => simp [SameSpace, h.1]
  case isFalse => exact .refl _

omit hT hF in
theorem wakeParent_same (t : Table) (cur p : Slot) :
    SameSpace ((Ptable.wakeParent t cur).proc p) (t.proc p) := by
  unfold Ptable.wakeParent
  split
  · exact wakeup1_same t _ p
  · exact .refl _

omit hT hF in
theorem reparent_same (t : Table) (cur p : Slot) :
    SameSpace ((Ptable.reparent t cur).proc p) (t.proc p) := by
  have hpassed : ∀ q : Ptable.Proc,
      SameSpace (if q.parent = some cur then { q with parent := some t.initproc } else q) q := by
    intro q
    split
    · exact ⟨Iff.rfl, rfl, rfl, rfl⟩
    · exact .refl q
  unfold Ptable.reparent
  dsimp only
  split
  · exact (wakeup1_same _ _ p).trans (hpassed _)
  · exact hpassed _

omit hT hF in
theorem exit_spec (ht : TableOk t) (hcur : Live t cur) :
    Triple Stops (Acct T (procs t + R)) (exit t cur) (Keeps T R) := by
  refine Triple.ite (fun _ => Triple.fail (by decide)) fun _ => Triple.ret fun k hk => ?_
  refine Keeps.same ht (fun p => ?_) hk
  have hsame := (reparent_same (Ptable.wakeParent t cur) cur p).trans (wakeParent_same t cur p)
  by_cases hp : p = cur
  · subst hp
    rw [setProc_self]
    exact ⟨⟨fun h => by simp at h, fun h => absurd h hcur.used⟩, hsame.2⟩
  · rw [setProc_of_ne _ _ hp]
    exact hsame

theorem wait_spec (ht : TableOk t) : Triple Stops (Acct T (procs t + R)) (wait L t cur) (Keeps T R) := by
  unfold wait
  cases hscan : t.scan fun q => q.parent == some cur && q.state == .zombie with
  | none => exact Triple.ret fun k hk => ⟨ht, hk⟩
  | some p =>
    have hzombie : (t.proc p).state = .zombie := by
      have := scan_some hscan
      simp only [Bool.and_eq_true, beq_iff_eq] at this
      exact this.2
    have hused : (t.proc p).state ≠ .unused := by rw [hzombie]; decide
    obtain ⟨hs, hd, -⟩ := ht p hused
    obtain ⟨stack, hs⟩ := Option.isSome_iff_exists.mp hs
    obtain ⟨d, hd⟩ := Option.isSome_iff_exists.mp hd
    have hsplit : procs t + R = single stack + (space d + (others t p + R)) := by
      rw [procs_split t p, procRegion_used hused hs hd]
      abel
    simp only [hs]
    rw [hsplit]
    refine (kfree_spec hT hF).bind fun _ => (pgdirOf_spec hd).bind fun pgdir => Triple.assume ?_
    rintro rfl
    refine (freevm_spec hT hF).bind fun _ => Triple.ret fun k hk => ?_
    have hreap : (Ptable.reap (t.proc p)).state = .unused := rfl
    refine Keeps.replace ht (fun q hq => setProc_of_ne t _ hq) (fun h => ?_) ?_
    · rw [setProc_self] at h
      exact absurd hreap h
    · rw [setProc_self, procRegion_unused hreap, zero_add]
      exact hk

theorem exec_spec (path : List UInt8) (file : Option (List UInt8)) (argv : List (List UInt8)) (ht : TableOk t)
    (hcur : Live t cur) : Triple Stops (Acct T (procs t + R)) (exec L path file argv t cur) (Keeps T R) := by
  obtain ⟨stack, d, hs, hd, hsplit⟩ := procs_live (R := R) ht hcur
  rw [hsplit]
  refine (pgdirOf_spec hd).bind fun pgdir => Triple.assume ?_
  rintro rfl
  refine Triple.read fun k hk => ?_
  obtain ⟨r, s, hrun, -, -, hacct, hcase⟩ := execFile_ends hT hF path file argv
    (called k ⟨pgdir, (t.proc cur).sz, 0, 0, []⟩) hk rfl
  have hsz : s.user.sz < KERNBASE := by
    rcases hcase with ⟨-, hkept, -⟩ | ⟨-, hnew, -⟩
    · rw [hkept.user]
      exact (ht cur hcur.used).2.2
    · exact hnew.size
  rw [hrun]
  rintro _ -
  exact Keeps.resize (f := fun q => { q with pgdir := some s.user.pgdir, sz := s.user.sz }) ht hcur hs (fun _ => rfl)
    (fun _ => rfl) rfl hsz hacct

/-! ### Pipes -/

omit hT hF in
def pipePages (pipes : List Pipe) : Multiset Nat := pipes.map (·.page)

omit hT hF in
theorem pipealloc_spec (f0 f1 : Bool) (pipes : List Pipe) :
    Triple Stops (Acct T (fixed (pipePages pipes) + R)) (pipealloc f0 f1 pipes)
      fun pipes' => Acct T (fixed (pipePages pipes') + R) := by
  refine Triple.ite (fun _ => Triple.ret fun _ h => h) fun _ => ?_
  refine kalloc_granted.bind fun r => ?_
  cases r with
  | none => exact Triple.ret fun _ h => h
  | some p =>
    refine Triple.ret fun k hk => ?_
    have hcons : pipePages (⟨p, true, true⟩ :: pipes) = {p} + pipePages pipes := by
      rw [Multiset.singleton_add]
      rfl
    rw [hcons, fixed_add, add_assoc]
    exact hk

theorem pipeclose_spec (i : Nat) (writable : Bool) (pipes : List Pipe) :
    Triple Stops (Acct T (fixed (pipePages pipes) + R)) (pipeclose L i writable pipes)
      fun pipes' => Acct T (fixed (pipePages pipes') + R) := by
  unfold pipeclose
  cases hget : pipes[i]? with
  | none => exact Triple.fail (by decide)
  | some p =>
    refine Triple.ite (fun _ => ?_) fun _ => Triple.fail (by decide)
    obtain ⟨hlt, hp⟩ := List.getElem?_eq_some_iff.mp hget
    refine Triple.ite (fun _ => Triple.ret fun k hk => ?_) fun _ => ?_
    · have hsame : pipePages (pipes.set i (closeEnd writable p)) = pipePages pipes := by
        have hpage : (closeEnd writable p).page = p.page := by
          unfold closeEnd
          split <;> rfl
        have hset := (List.set_perm_cons_eraseIdx hlt (closeEnd writable p)).map (·.page)
        have hself := (List.getElem_cons_eraseIdx_perm hlt).map (·.page)
        refine Multiset.coe_eq_coe.mpr (hset.trans (List.Perm.trans ?_ hself))
        rw [List.map_cons, List.map_cons, hpage, hp]
      rw [hsame]
      exact hk
    · have hsplit : pipePages pipes = {p.page} + pipePages (pipes.eraseIdx i) := by
        have hself := (List.getElem_cons_eraseIdx_perm hlt).map (·.page)
        rw [hp] at hself
        exact (Multiset.coe_eq_coe.mpr hself).symm
      rw [hsplit, fixed_add, add_assoc]
      exact (kfree_spec hT hF).bind fun _ => Triple.ret fun _ h => h

/-! ### The whole system -/

/-- Everything that owns pages, beside the free list. -/
def regions (y : Records) : Region Nat (Nat → Nat) :=
  procs y.table + (fixed (pipePages y.pipes) + (space y.kpgdir + fixed y.cpuStacks))

/-- The frames of the total `T` are accounted for. -/
def Balance (T : Multiset Nat) (y : Records) (k : Kmem) : Prop := TableOk y.table ∧ Acct T (regions y) k

omit hT hF in
theorem onTable_spec {y : Records} {p : Slot} {f : Table → Slot → Kern Table}
    (hf : ∀ R, Live y.table p → Triple Stops (Acct T (procs y.table + R)) (f y.table p) (Keeps T R)) :
    Triple Stops (Acct T (regions y)) (onTable y p f) (Balance T) := by
  refine Triple.ite (fun hlive => ?_) fun _ => Triple.fail (by decide)
  exact (hf _ hlive).bind fun t => Triple.ret fun k hk => hk

theorem runOp_spec {y : Records} (hy : TableOk y.table) (op : Op) :
    Triple Stops (Acct T (regions y)) (runOp L y op) (Balance T) := by
  cases op with
  | fork p => exact onTable_spec fun R hp => fork_spec hT hF hy hp
  | exec p path file argv => exact onTable_spec fun R hp => exec_spec hT hF path file argv hy hp
  | growproc p n =>
    unfold runOp
    refine onTable_spec fun R hp => ?_
    exact (growproc_spec hT hF n hy hp).bind fun _ => Triple.ret fun _ h => h
  | exit p => exact onTable_spec fun R hp => exit_spec hy hp
  | wait p => exact onTable_spec fun R _ => wait_spec hT hF hy
  | pipealloc f0 f1 =>
    have hspec := pipealloc_spec (T := T) (R := procs y.table + (space y.kpgdir + fixed y.cpuStacks)) f0 f1 y.pipes
    refine (hspec.pre fun k hk => ?_).bind fun pipes => Triple.ret fun k hk => ⟨hy, ?_⟩
    · rwa [add_left_comm]
    · rwa [add_left_comm] at hk
  | pipeclose i writable =>
    have hspec := pipeclose_spec hT hF (R := procs y.table + (space y.kpgdir + fixed y.cpuStacks)) i writable
      y.pipes
    refine (hspec.pre fun k hk => ?_).bind fun pipes => Triple.ret fun k hk => ⟨hy, ?_⟩
    · rwa [add_left_comm]
    · rwa [add_left_comm] at hk

theorem step_balance {s s' : Records × Kmem} {e : Op × List Bool} (h : Balance T s.1 s.2)
    (hs : step L s e = some s') : Balance T s'.1 s'.2 := by
  have hrun := runOp_spec hT hF h.1 e.1 { s.2 with deny := e.2 } h.2
  unfold step at hs
  cases hr : (runOp L s.1 e.1).run { s.2 with deny := e.2 } with
  | error msg =>
    rw [hr] at hs
    cases hs
  | ok r =>
    rw [hr] at hs hrun
    obtain rfl : r = s' := Option.some.inj hs
    exact hrun

end
end Chameleon.Vm
