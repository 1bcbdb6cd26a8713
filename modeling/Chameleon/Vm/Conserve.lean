import Chameleon.Vm.Contents

/-! What the functions of `vm.c` do to the owners of page frames: every frame they take from
the free list is in the address space they build when they succeed, and back on the free list
when they fail. `R` is everything else in the system, which they leave alone. Each of these
follows from what the function does to the view of the address space, which is forgotten here. -/

namespace Chameleon.Vm
open Region Hoare

section
variable {L : Layout} {T : Multiset Nat} {R : Region Nat (Nat → Nat)} {d : Nat} {E : String → Prop}

/-- Whatever the address space shows. -/
theorem Triple.unseen {α : Type} {x : Kern α} {Q : α → Kmem → Prop}
    (h : ∀ S, Triple E (Owns T (view d S + lift R)) x Q) : Triple E (Acct T (space d + R)) x Q :=
  fun k hk => h (viewOf k.mem d) k hk.owns

/-- What is owned after `kalloc` has returned `r`. -/
def Granted (T : Multiset Nat) (A : Region Nat (Nat → Nat)) : Option Nat → Kmem → Prop
  | none => Acct T A
  | some f => Acct T (single f + A)

theorem kalloc_granted {A : Region Nat (Nat → Nat)} : Triple E (Acct T A) kalloc (Granted T A) := by
  refine (kalloc_took (A := lift A)).conseq (fun _ h => ⟨h.total, h.sound⟩) fun r k h => ?_
  cases r with
  | none => exact ⟨h.total, h.sound⟩
  | some f => exact ⟨h.total, h.sound⟩

variable (hT : T.Nodup) (hF : ∀ f ∈ T, IsFrame L f)

include hF in
theorem isFrame_of_single {v : Nat} {k : Kmem} (hk : Acct T (single v + R) k) : IsFrame L v :=
  hF v (hk.mem_total (Multiset.mem_add.mpr (.inl (Multiset.mem_singleton_self v))))

include hT hF

theorem kfree_spec {v : Nat} : Triple E (Acct T (single v + R)) (kfree L v) fun _ => Acct T R :=
  (kfree_owns hT hF (R := lift R)).conseq (fun _ h => ⟨h.total, h.sound⟩) fun _ _ h => ⟨h.total, h.sound⟩

theorem walkpgdirAlloc_spec (va : Nat) : Triple E (Acct T (space d + R)) (walkpgdirAlloc d va)
    fun r k => Acct T (space d + R) k ∧ ∀ t i, r = some (t, i) → walkpgdir k.mem d va = some (t, i) :=
  Triple.unseen fun _ => (walkpgdirAlloc_view hT hF va).post fun _ _ h => ⟨h.1.acct, h.2⟩

theorem mappage_kernel {pa va perm : Nat} (hva : KERNBASE ≤ va) (hw : va < WORD)
    (hpa : pa % PGSIZE = 0) (hperm : perm < PGSIZE) (hu : ¬ user (perm ||| PTE_P)) :
    Triple Stops (Acct T (space d + R)) (mappage d perm va pa) fun _ => Acct T (space d + R) :=
  Triple.unseen fun _ => (mappage_kernel_view hT hF hva hw hpa hperm hu fun _ => by decide).post fun _ _ h => h.acct

/-- Mapping one user page: the page joins the address space, or stays with the caller. -/
theorem mappages_user {a : Nat} (pg perm : Nat) (ha : a % PGSIZE = 0) (hlt : a < KERNBASE)
    (hperm : perm < PGSIZE) :
    Triple Stops (Acct T (single pg + (space d + R))) (mappages d a PGSIZE pg perm)
      fun r => Acct T (if r < 0 then single pg + (space d + R) else space d + R) := by
  intro k hk
  have hshown : Owns T (view d (viewOf k.mem d) + lift (single pg + R)) k :=
    Acct.owns (by rw [add_left_comm]; exact hk)
  have hown : Owns T (holding pg (pages k.mem pg).2 + (view d (viewOf k.mem d) + lift R)) k :=
    ⟨hk.total, fun _ _ => rfl, hshown.sound.1, hk.sound.2.2⟩
  refine (mappages_view (E := Stops) hT hF ha hlt hperm fun _ => by decide).post (fun r k' h => ?_) k hown
  by_cases hr : r < 0
  · rw [if_pos hr] at h ⊢
    exact ⟨h.total, trivial, h.sound.2.1.kernel, h.sound.2.2⟩
  · rw [if_neg hr] at h ⊢
    exact h.acct

theorem deallocuvm_spec {oldsz newsz : Nat} (hsz : oldsz ≤ KERNBASE) :
    Triple E (Acct T (space d + R)) (deallocuvm L d oldsz newsz)
      fun r k => r ≤ oldsz ∧ Acct T (space d + R) k := by
  by_cases hlt : newsz < oldsz
  · refine Triple.unseen fun _ => (deallocuvm_view hT hF hlt hsz).post ?_
    rintro _ k ⟨rfl, _, -, hk⟩
    exact ⟨hlt.le, hk.acct⟩
  · exact Triple.ite (fun _ => Triple.ret fun k hk => ⟨le_rfl, hk⟩) fun h => absurd (Nat.not_le.mp h) hlt

theorem freevm_spec : Triple E (Acct T (space d + R)) (freevm L d) fun _ => Acct T R :=
  Triple.unseen fun _ => (freevm_owns hT hF).post fun _ _ h => ⟨h.total, h.sound⟩

theorem setupkvm_spec : Triple E (Acct T R) (setupkvm L) fun r =>
    Acct T (r.elim R fun d => space d + R) := by
  refine (setupkvm_view hT hF (R := lift R)).conseq (fun _ h => ⟨h.total, h.sound⟩) fun r k h => ?_
  cases r with
  | none => exact ⟨h.total, h.sound⟩
  | some d =>
    obtain ⟨S, h, -⟩ := h
    exact h.acct

theorem allocuvm_spec {oldsz newsz : Nat} (hsz : newsz < oldsz → oldsz < KERNBASE) :
    Triple Stops (Acct T (space d + R)) (allocuvm L d oldsz newsz)
      fun r k => r < KERNBASE ∧ Acct T (space d + R) k := by
  by_cases hle : oldsz ≤ newsz ∧ newsz < KERNBASE
  · refine Triple.unseen fun _ => (allocuvm_view hT hF hle.1 hle.2 fun _ _ _ _ => by decide).post ?_
    rintro r k ⟨S, hk, ⟨rfl, -⟩ | ⟨rfl, -⟩⟩
    · exact ⟨hle.2, hk.acct⟩
    · exact ⟨by decide, hk.acct⟩
  · refine Triple.ite (fun _ => Triple.ret fun k hk => ⟨by decide, hk⟩) fun hnew => ?_
    refine Triple.ite (fun hlt => Triple.ret fun k hk => ⟨hsz hlt, hk⟩) fun hlt => ?_
    exact absurd ⟨Nat.not_lt.mp hlt, Nat.not_le.mp hnew⟩ hle

theorem copyLoop_spec {pgdir : Nat} (n : Nat) {i : Nat} (hi : i % PGSIZE = 0)
    (hn : ∀ b < n, i + b * PGSIZE < KERNBASE) :
    Triple Stops (Acct T (space d + R)) (copyLoop L pgdir d n i) fun _ => Acct T (space d + R) := by
  induction n generalizing i with
  | zero => exact Triple.ret fun _ h => h
  | succ n ih =>
    have hlt : i < KERNBASE := by simpa using hn 0 (Nat.succ_pos n)
    refine Triple.read fun k hk => ?_
    cases walkpgdir k.mem pgdir i with
    | none => exact Triple.fail (by decide)
    | some ti =>
      refine Triple.ite (fun _ => Triple.fail (by decide)) fun _ => ?_
      refine (kalloc_granted.pre (by rintro _ rfl; exact hk)).bind fun r => ?_
      cases r with
      | none => exact Triple.ret fun _ h => h
      | some mem =>
        refine Triple.upd (Acct T (single mem + (space d + R))) (fun _ hk' => hk') ?_
        refine (mappages_user hT hF mem _ hi hlt (Nat.mod_lt _ (by decide))).bind fun r => ?_
        refine Triple.ite (fun hr => ?_) fun hr => ?_
        · rw [if_pos hr]
          exact (kfree_spec hT hF).bind fun _ => Triple.ret fun _ h => h
        · rw [if_neg hr]
          refine ih (by unfold PGSIZE at *; omega) fun b hb => ?_
          have := hn (b + 1) (Nat.succ_lt_succ hb)
          rw [Nat.succ_mul] at this
          omega

theorem copyuvm_spec {pgdir sz : Nat} (hsz : sz ≤ KERNBASE) :
    Triple Stops (Acct T R) (copyuvm L pgdir sz) fun r => Acct T (r.elim R fun d => space d + R) := by
  refine (setupkvm_spec hT hF).bind fun r => ?_
  cases r with
  | none => exact Triple.ret fun _ h => h
  | some d =>
    refine (copyLoop_spec hT hF _ (by decide) fun b hb => ?_).bind fun ok => ?_
    · exact lt_of_lt_of_le (lt_of_pagesIn hb) hsz
    · refine Triple.ite (fun _ => Triple.ret fun _ h => h) fun _ => ?_
      exact (freevm_spec hT hF).bind fun _ => Triple.ret fun _ h => h

end
end Chameleon.Vm
