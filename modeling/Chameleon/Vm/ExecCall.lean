import Chameleon.Vm.ExecImage

/-! The whole call of `exec`: it changes nothing or everything, for every program file. -/

namespace Chameleon.Vm
open Region Hoare

/-- A watch that stops the program if a page below `PGROUNDUP(sz)` is not mapped. -/
def mappedBelow (d sz : Nat) : Kern Unit := fun k =>
  if ∀ va < PGROUNDUP sz, mapped k.mem.entry d va = true then .ok ((), k)
  else .error "a page below sz is not mapped"

theorem mappedBelow_watches (d sz : Nat) : Watches (mappedBelow d sz) := by
  intro k r h
  by_cases hc : ∀ va < PGROUNDUP sz, mapped k.mem.entry d va = true
  · rw [show (mappedBelow d sz).run k = .ok ((), k) from if_pos hc] at h
    exact (Except.ok.inj h).symm
  · rw [show (mappedBelow d sz).run k = .error _ from if_neg hc] at h
    cases h

theorem mappedBelow_watch (T : Multiset Nat) (d : Nat) : Watch T d (mappedBelow d) where
  watches := mappedBelow_watches d
  passes sz S R k hS hk := by
    refine if_pos fun va hva => ?_
    rw [hk.mapped_eq]
    exact hS va hva

section
variable {L : Layout} {u : UserImage} {fs : FsUse} {P : Kmem → Prop} {E : String → Prop}

theorem onKmem_spec {α : Type} {x : Kern α} {P : Kmem → Prop} {Q : α → Kmem → Prop} {u : UserImage} {fs : FsUse}
    (h : Triple E P x Q) : Triple E (fun s => P s.kmem ∧ s.user = u ∧ s.fs = fs) (onKmem x)
      fun a s => Q a s.kmem ∧ s.user = u ∧ s.fs = fs := by
  intro s hs
  have hrun := h s.kmem hs.1
  cases hr : x.run s.kmem with
  | error e =>
    rw [hr] at hrun
    rw [show (onKmem x).run s = .error e by simp only [onKmem, StateT.run] at hr ⊢; rw [hr]]
    exact hrun
  | ok p =>
    rw [hr] at hrun
    rw [show (onKmem x).run s = .ok (p.1, { s with kmem := p.2 }) by
      simp only [onKmem, StateT.run] at hr ⊢; rw [hr]]
    exact ⟨hrun, hs.2⟩

/-- The file system after a call has released what it took: one transaction more. -/
def FsUse.done (fs : FsUse) : FsUse := { fs with begun := fs.begun + 1, ended := fs.ended + 1 }

/-- The file system while `exec` holds the inode of the program. -/
def FsUse.holding (fs : FsUse) : FsUse := { fs with begun := fs.begun + 1, refs := fs.refs + 1, locked := true }

/-- The memory satisfies `P`; the process and the file system are given. -/
def With (P : Kmem → Prop) (u : UserImage) (fs : FsUse) (s : ExecState) : Prop :=
  P s.kmem ∧ s.user = u ∧ s.fs = fs

/-- `new` is the image of a program file at `path`. -/
def IsImage (path : List UInt8) (file : Option (List UInt8)) (new : UserImage) : Prop :=
  ∃ content, file = some content ∧ new.eip = (elfhdr (readi content 0 ELFHDRSIZE)).entry ∧
    new.name = progName path


/-- Unlocking and releasing the inode, and ending the transaction. -/
theorem release_spec {β : Type} {y : ExecM β} {Q : β → ExecState → Prop} (hfs : fs.locked = false)
    (hy : Triple E (With P u fs.done) y Q) :
    Triple E (With P u fs.holding) (do iunlockput; end_op; y) Q := by
  rintro ⟨k, u', fs'⟩ ⟨hk, rfl, rfl⟩
  have hdone : { fs.holding with locked := false, refs := fs.refs, ended := fs.ended + 1 } = fs.done := by
    simp only [FsUse.holding, FsUse.done, hfs]
  exact hy ⟨k, _, _⟩ ⟨hk, rfl, hdone⟩

/-- `goto bad` while the inode is held, with or without a page directory. -/
theorem bad_holding (d? : Option Nat) {Q : Kmem → Prop} (hnone : d? = none → ∀ k, P k → Q k)
    (hfree : ∀ d, d? = some d → Triple E P (freevm L d) fun _ => Q) (hfs : fs.locked = false) :
    Triple E (With P u fs.holding) (bad L d? true) fun r s => r = none ∧ With Q u fs.done s := by
  have hend : Triple E (With Q u fs.holding) (do iunlockput; end_op; pure none : ExecM (Option UserImage))
      fun r s => r = none ∧ With Q u fs.done s :=
    release_spec hfs (Triple.ret fun s hs => ⟨rfl, hs⟩)
  cases d? with
  | none => exact hend.pre fun s hs => ⟨hnone rfl _ hs.1, hs.2⟩
  | some d => exact (onKmem_spec (hfree d rfl)).bind fun _ => hend

/-- `goto bad` after the inode has been released. -/
theorem bad_released {d : Nat} {Q : Kmem → Prop} (hfree : Triple E P (freevm L d) fun _ => Q) :
    Triple E (With P u fs) (bad L (some d) false) fun r s => r = none ∧ With Q u fs s :=
  (onKmem_spec hfree).bind fun _ => Triple.ret fun _ hs => ⟨rfl, hs⟩

/-- The part of `exec` up to the commit, for what is known about the memory at each stage: `A`
before the call and `F` after a failure, `I` after `setupkvm`, `M` when the segments are loaded,
`N` when the stack is built, `B` where the image is given up. -/
theorem prepare_rule {w : Nat → Nat → Kern Unit} {c : Copyout} {A F : Kmem → Prop} {I B : Nat → Kmem → Prop}
    {M : Nat → Nat → Kmem → Prop} {N : Nat → Nat × Nat → Kmem → Prop} (path : List UInt8)
    (file : Option (List UInt8)) (argv : List (List UInt8)) (hfs : fs.locked = false)
    (hno : (∀ content, file = some content → ¬ HasHeader content) → ∀ k, A k → F k)
    (hsetup : Triple E A (setupkvm L) fun r => r.elim F I)
    (hload : ∀ content d, file = some content → Triple E (I d) (Watched.loadSegments (w d) L content d
      (elfhdr (readi content 0 ELFHDRSIZE)).phnum (elfhdr (readi content 0 ELFHDRSIZE)).phoff 0)
      fun r => r.elim (B d) (M d))
    (hbuild : ∀ d sz, Triple E (M d sz) (Watched.buildStack (w d) c L argv d sz) fun r => r.elim (B d) (N d))
    (hfree : ∀ d, Triple E (B d) (freevm L d) fun _ => F) :
    Triple E (With A u fs) (prepare w c L path file argv) fun new s => match new with
      | none => With F u fs.done s
      | some new => IsImage path file new ∧ With (N new.pgdir (new.sz, new.esp)) u fs.done s := by
  cases file with
  | none =>
    rintro ⟨k, u', fs'⟩ ⟨hk, rfl, rfl⟩
    exact ⟨hno (fun _ h => nomatch h) k hk, rfl, rfl⟩
  | some content =>
    have hgiveUp : ∀ {Q : ExecState → Prop} {x : ExecM (Option UserImage)},
        Triple E Q x (fun r s => r = none ∧ With F u fs.done s) → Triple E Q x fun new s => match new with
          | none => With F u fs.done s
          | some new => IsImage path (some content) new ∧ With (N new.pgdir (new.sz, new.esp)) u fs.done s := by
      intro Q x hx
      refine hx.post ?_
      rintro _ s ⟨rfl, hs⟩
      exact hs
    have hearly : Triple E (With F u fs.holding) (bad L none true) fun r s => r = none ∧ With F u fs.done s :=
      bad_holding none (fun _ _ h => h) (fun d h => nomatch h) hfs
    have hfile : ¬ HasHeader content → Triple E (With A u fs.holding) (bad L none true)
        fun r s => r = none ∧ With F u fs.done s := fun h =>
      hearly.pre fun s hs => ⟨hno (fun _ heq => Option.some.inj heq ▸ h) _ hs.1, hs.2⟩
    have hopen : Triple E (With A u fs.holding)
        (if (readi content 0 ELFHDRSIZE).length ≠ ELFHDRSIZE then bad L none true
          else if (elfhdr (readi content 0 ELFHDRSIZE)).magic ≠ ELF_MAGIC then bad L none true
          else loadImage w c L path content argv (elfhdr (readi content 0 ELFHDRSIZE)))
        fun new s => match new with
          | none => With F u fs.done s
          | some new => IsImage path (some content) new ∧ With (N new.pgdir (new.sz, new.esp)) u fs.done s := by
      refine Triple.ite (fun h => hgiveUp (hfile fun h' => h h'.1)) fun _ =>
        Triple.ite (fun h => hgiveUp (hfile fun h' => h h'.2)) fun _ => ?_
      refine (onKmem_spec hsetup).bind fun r => ?_
      cases r with
      | none => exact hgiveUp hearly
      | some d =>
        refine (onKmem_spec (hload content d rfl)).bind fun r => ?_
        cases r with
        | none => exact hgiveUp (bad_holding (some d) (fun h => nomatch h) (fun d' h => Option.some.inj h ▸ hfree d) hfs)
        | some sz =>
          refine release_spec hfs ((onKmem_spec (hbuild d sz)).bind fun r => ?_)
          cases r with
          | none => exact hgiveUp (bad_released (hfree d))
          | some p => exact Triple.ret fun s hs => ⟨⟨content, rfl, rfl, rfl⟩, hs⟩
    rintro ⟨k, u', fs'⟩ ⟨hk, rfl, rfl⟩
    exact hopen ⟨k, u', fs'.holding⟩ ⟨hk, rfl, rfl⟩

end

section
variable {L : Layout} {T : Multiset Nat} {R : Region Nat Page} {d : Nat} {E : String → Prop}
variable (hT : T.Nodup) (hF : ∀ f ∈ T, IsFrame L f)
include hT hF

-- elaboration would compute with the size of the stack
attribute [local irreducible] Watched.buildStack

/-- The memory of the new image, when there is one. -/
def ImageIn (T : Multiset Nat) (R : Region Nat Page) (content : List UInt8) (argv : List (List UInt8)) (d sz esp : Nat)
    (k : Kmem) : Prop :=
  ∃ S, Owns T (view d S + R) k ∧ ExecView content argv sz esp S

/-- The part of `exec` up to the commit; `φ` says that everything is there that it needs. -/
theorem prepare_view {φ : Prop} {u : UserImage} {fs : FsUse} {w : Nat → Nat → Kern Unit} (hw : ∀ d, Watch T d (w d))
    {m : Nat} (path content : List UInt8) (argv : List (List UInt8)) (hfs : fs.locked = false)
    (hφ : φ → Loadable content m ∧ stackNeed argv ≤ PGSIZE ∧ argv.length ≤ MAXARG) :
    Triple E (With (fun k => Plenty φ (513 + ((elfhdr (readi content 0 ELFHDRSIZE)).phnum * (2 * m) + 4)) k ∧ Owns T R k)
        u fs) (prepare w copyoutChecked L path (some content) argv)
      fun new s => match new with
        | none => With (fun k => Owns T R k ∧ ¬ φ) u fs.done s
        | some new => IsImage path (some content) new ∧
          With (ImageIn T R content argv new.pgdir new.sz new.esp) u fs.done s := by
  have hempty : ∀ {S : View}, (∀ va < WORD, S.pte va = kvmPte L va) → ImageTo content [] 0 S := by
    intro S hpte
    have hzero : PGROUNDUP 0 = 0 := by decide
    refine ⟨by decide, fun va h => absurd h (hzero ▸ Nat.not_lt_zero va), fun va hva _ => ?_, by simp, by simp, .inl rfl,
      by simp⟩
    rw [hpte va (lt_trans hva (by decide)), kvmPte, rowsPte_below (kmap_rising L) hva]
    exact not_present_zero
  generalize hphnum : (elfhdr (readi content 0 ELFHDRSIZE)).phnum = phnum at *
  have hload : ∀ d, Triple E (fun k => Plenty φ (phnum * (2 * m) + 4) k ∧ ∃ S, Owns T (view d S + R) k ∧ ImageTo content [] 0 S)
      (Watched.loadSegments (w d) L content d phnum (elfhdr (readi content 0 ELFHDRSIZE)).phoff 0)
      fun r k => Succeeds φ (· ≠ none) 4 r k ∧ SegmentsLoaded T R d content (segmentsOf content) r k := by
    intro d
    have hplenty : Triple Ever (Plenty φ (phnum * (2 * m) + 4)) (Watched.loadSegments (fun _ => pure ()) L content d phnum
        (elfhdr (readi content 0 ELFHDRSIZE)).phoff 0) (Succeeds φ (· ≠ none) 4) := by
      by_cases hp : φ
      · have h := (hφ hp).1
        have hm : m * PGSIZE < KERNBASE := lt_of_le_of_lt (Nat.mul_le_mul_right _ (Nat.le_add_right m 2)) h.room
        subst hphnum
        exact loadSegments_plenty L d _ h.length h.phdrs hm h.segments
      · exact failed fun _ _ => hp
    refine ((Watched.loadSegments_erases (hw d).watches _).triple (fun _ => trivial) hplenty).and (Triple.exists_given fun S hS => ?_)
    subst hphnum
    exact loadSegments_view hT hF (hw d) content _ hS
  have hbuild : ∀ d sz, Triple E (fun k => ∃ S, (Plenty φ 4 k ∧ Owns T (view d S + R) k) ∧
        ImageTo content (segmentsOf content) sz S)
      (Watched.buildStack (w d) copyoutChecked L argv d sz) fun r k => ∃ S, Owns T (view d S + R) k ∧
        (φ → r ≠ none) ∧ ∀ top esp, r = some (top, esp) → ExecView content argv top esp S := by
    refine fun d sz => Triple.exists_given fun S hS => buildStack_view hT hF (hw d) hS fun hp => ⟨(hφ hp).2, ?_⟩
    have h := (hφ hp).1
    have hroom := h.room
    have hsz : sz ≤ m * PGSIZE := by
      rcases hS.top with rfl | ⟨ph, hph, rfl⟩
      · exact Nat.zero_le _
      · exact (h.segments ph hph).pages.2
    unfold PGROUNDUP PGSIZE WORD KERNBASE at *
    omega
  refine prepare_rule (A := fun k => Plenty φ (513 + (phnum * (2 * m) + 4)) k ∧ Owns T R k) (F := fun k => Owns T R k ∧ ¬ φ)
    (I := fun d k => Plenty φ (phnum * (2 * m) + 4) k ∧ ∃ S, Owns T (view d S + R) k ∧ ImageTo content [] 0 S)
    (B := fun d k => (∃ S, Owns T (view d S + R) k) ∧ ¬ φ)
    (M := fun d sz k => ∃ S, (Plenty φ 4 k ∧ Owns T (view d S + R) k) ∧ ImageTo content (segmentsOf content) sz S)
    (N := fun d p => ImageIn T R content argv d p.1 p.2) path (some content) argv hfs
    (fun h k hk => ⟨hk.2, fun hp => h content rfl (hφ hp).1.header⟩)
    (((setupkvm_plenty hT hF).and (setupkvm_view hT hF)).conseq (fun k hk => ⟨⟨hk.2.free_le, hk.1⟩, hk.2⟩) fun r k hk => by
      cases r with
      | none => exact ⟨hk.2, fun hp => hk.1.1 hp rfl⟩
      | some d => exact ⟨hk.1.2, hk.2.imp fun S h => ⟨h.1, hempty h.2⟩⟩)
    (fun content' d heq => by
      obtain rfl := Option.some.inj heq
      rw [hphnum]
      refine (hload d).post fun r k hk => ?_
      obtain ⟨hsome, S', hk, himg⟩ := hk
      cases r with
      | none => exact ⟨⟨S', hk⟩, fun hp => hsome.1 hp rfl⟩
      | some sz => exact ⟨S', ⟨hsome.2, hk⟩, himg sz rfl⟩)
    (fun d sz => (hbuild d sz).post fun r k hk => by
      obtain ⟨S', hk, hsome, himg⟩ := hk
      cases r with
      | none => exact ⟨⟨S', hk⟩, fun hp => hsome hp rfl⟩
      | some p => exact ⟨S', hk, himg p.1 p.2 rfl⟩)
    fun d => Triple.given (fun k hk => hk.2) fun hp => Triple.pre
      (Triple.exists_pre fun S => (freevm_owns hT hF).post fun _ k hk => ⟨hk, hp⟩) fun k hk => hk.1

end

/-! ### All or nothing -/

/-- What `exec` needs to return 0: a file that can be loaded into some `m` pages, arguments for which
there is room, no refused call of `kalloc`, and free pages for the page directory, the segments and
the stack. -/
def Suits (content : List UInt8) (argv : List (List UInt8)) (k : Kmem) : Prop :=
  (stackNeed argv ≤ PGSIZE ∧ argv.length ≤ MAXARG) ∧ k.deny = [] ∧ ∃ m, Loadable content m ∧
    517 + (elfhdr (readi content 0 ELFHDRSIZE)).phnum * (2 * m) ≤ k.freelist.length

/-- Nothing has changed: the process, the pages on the free list, and the contents of all others. -/
structure Kept (T : Multiset Nat) (s₀ s : ExecState) : Prop where
  user : s.user = s₀.user
  free : s.kmem.freelist.Perm s₀.kmem.freelist
  pages : ∀ f ∈ T, f ∉ s₀.kmem.freelist → pages s.kmem.mem f = pages s₀.kmem.mem f

/-- The process runs a new image, made of pages that were free, and the old one is free. -/
structure Replaced (path : List UInt8) (file : Option (List UInt8)) (s₀ s : ExecState) : Prop where
  image : IsImage path file s.user
  size : s.user.sz < KERNBASE
  mapped : ∀ va < PGROUNDUP s.user.sz, mapped s.kmem.mem.entry s.user.pgdir va = true
  fresh : ∀ f ∈ spaceCells s.kmem.mem.entry s.user.pgdir, f ∈ s₀.kmem.freelist ∧ f ∉ s.kmem.freelist
  freed : ∀ f ∈ spaceCells s₀.kmem.mem.entry s₀.user.pgdir, f ∈ s.kmem.freelist

section
variable {L : Layout} {T : Multiset Nat} {A B : Region Nat (Nat → Nat)} {d : Nat} {k k' : Kmem}

theorem commit_run (new : UserImage) {s : ExecState} {k' : Kmem} (h : (freevm L s.user.pgdir).run s.kmem = .ok ((), k')) :
    (commit L new).run s = .ok (0, { s with user := new, kmem := k' }) := by
  have hk : (onKmem (freevm L s.user.pgdir)).run { s with user := new } =
      .ok ((), { s with user := new, kmem := k' }) := by
    simp only [onKmem, StateT.run] at h ⊢
    rw [h]
  show ((onKmem (freevm L s.user.pgdir)).run { s with user := new } >>= fun p => (pure 0 : ExecM Int).run p.2) = _
  rw [hk]
  rfl

/-- A page on no free list belongs to somebody. -/
theorem mem_cells_of_not_free (h : Acct T A k) {f : Nat} (hf : f ∈ T) (hfree : f ∉ k.freelist) :
    f ∈ A.cells k.mem.entry := by
  rw [← h.total] at hf
  exact (Multiset.mem_add.mp hf).resolve_right hfree

variable (hT : T.Nodup)
include hT

theorem not_free_of_mem_cells (h : Acct T A k) {f : Nat} (hf : f ∈ A.cells k.mem.entry) : f ∉ k.freelist := by
  have hn := h.total ▸ hT
  exact fun hfree => Multiset.disjoint_left.mp (Multiset.nodup_add.mp hn).2.2 hf hfree

omit hT in
/-- Pages that were not touched are still accounted for. -/
theorem Owns.unfreeze {k₀ : Kmem} (h : A.sound k₀.mem.entry)
    (h' : Owns T (frozen (A.cells k₀.mem.entry) (Vm.pages k₀.mem)) k) : Acct T A k := by
  have hfix : Acct T (0 + frozen (A.cells k₀.mem.entry) k₀.mem.entry) k := by
    rw [zero_add]
    exact ⟨h'.total, fun f hf => congrArg Prod.fst (h'.sound f hf)⟩
  have := hfix.thaw h
  rwa [zero_add] at this

/-- The commit: the pages of the old image go to the free list, all others stay. -/
theorem freevm_old (hF : ∀ f ∈ T, IsFrame L f) (h : Acct T (space d + B) k) : ∃ k',
    (freevm L d).run k = .ok ((), k') ∧ Acct T B k' ∧
      (∀ f ∈ B.cells k.mem.entry, pages k'.mem f = pages k.mem f) ∧
      (k'.freelist : Multiset Nat) = spaceCells k.mem.entry d + k.freelist := by
  obtain ⟨⟨⟩, k', hrun, hk'⟩ := (freevm_owns hT hF).ends h.owns.freeze
  refine ⟨k', hrun, hk'.unfreeze h.sound.2, hk'.sound, ?_⟩
  have htotal : B.cells k.mem.entry + (k'.freelist : Multiset Nat) =
      B.cells k.mem.entry + (spaceCells k.mem.entry d + k.freelist) := by
    refine hk'.total.trans (h.total.symm.trans ?_)
    rw [cells_add, cells_space]
    abel
  exact add_left_cancel htotal

/-- `exec` of a file returns, and it changes nothing or everything. -/
theorem execFile_some (hF : ∀ f ∈ T, IsFrame L f) (path content : List UInt8) (argv : List (List UInt8)) (s₀ : ExecState)
    (hcall : Acct T (space s₀.user.pgdir + B) s₀.kmem) (hfs : s₀.fs.locked = false) :
    ∃ r s', (execFile copyoutChecked L path (some content) argv).run s₀ = .ok (r, s') ∧
      (execWatched mappedBelow copyoutChecked L path (some content) argv).run s₀ = .ok (r, s') ∧ s'.fs = s₀.fs.done ∧
      Acct T (space s'.user.pgdir + B) s'.kmem ∧
      (r = -1 ∧ Kept T s₀ s' ∧ ¬ Suits content argv s₀.kmem ∨ r = 0 ∧ Replaced path (some content) s₀ s' ∧
        ExecView content argv s'.user.sz s'.user.esp (viewOf s'.kmem.mem s'.user.pgdir)) := by
  -- all pages in use are frozen while the new image is built
  have hfreeze : Owns T (frozen ((space s₀.user.pgdir + B).cells s₀.kmem.mem.entry) (pages s₀.kmem.mem)) s₀.kmem :=
    ⟨hcall.total, fun _ _ => rfl⟩
  obtain ⟨m, hm⟩ : ∃ m, Suits content argv s₀.kmem → Loadable content m ∧
      517 + (elfhdr (readi content 0 ELFHDRSIZE)).phnum * (2 * m) ≤ s₀.kmem.freelist.length := by
    by_cases h : Suits content argv s₀.kmem
    · exact h.2.2.imp fun m hm _ => hm
    · exact ⟨0, fun h' => absurd h' h⟩
  obtain ⟨new, s₁, hr, hprep⟩ := (prepare_view (φ := Suits content argv s₀.kmem) (E := Never) (u := s₀.user) hT hF
    (mappedBelow_watch T) path content argv hfs fun h => ⟨(hm h).1, h.1⟩).ends
    ⟨⟨fun h => ⟨h.2.1, by have := (hm h).2; omega⟩, hfreeze⟩, rfl, rfl⟩
  have herase := execWatched_erases mappedBelow_watches copyoutChecked L path (some content) argv
  have hrun : (execWatched mappedBelow copyoutChecked L path (some content) argv).run s₀ =
      (match new with
        | none => (pure (-1) : ExecM Int)
        | some new => commit L new).run s₁ := run_bind_of_ok hr
  cases new with
  | none =>
    obtain ⟨⟨hk, hno⟩, hu, hfs'⟩ := hprep
    refine ⟨-1, s₁, herase s₀ _ hrun, hrun, hfs', hu ▸ hk.unfreeze hcall.sound, .inl ⟨rfl, ⟨hu, ?_, fun f hf hfree => ?_⟩, hno⟩⟩
    · exact Multiset.coe_eq_coe.mp (add_left_cancel (hk.total.trans hcall.total.symm))
    · exact hk.sound f (mem_cells_of_not_free hcall hf hfree)
  | some new =>
    obtain ⟨himage, ⟨S, hk, hview⟩, hu, hfs'⟩ := hprep
    have hacct : Acct T (space new.pgdir + frozen ((space s₀.user.pgdir + B).cells s₀.kmem.mem.entry) s₀.kmem.mem.entry)
        s₁.kmem := ⟨hk.total, hk.sound.1.kernel, fun f hf => congrArg Prod.fst (hk.sound.2 f hf)⟩
    have hthaw : Acct T (space new.pgdir + (space s₀.user.pgdir + B)) s₁.kmem := hacct.thaw hcall.sound
    have hold : spaceCells s₁.kmem.mem.entry s₀.user.pgdir = spaceCells s₀.kmem.mem.entry s₀.user.pgdir :=
      spaceCells_frame _ _ _ fun f hf => hacct.sound.2 f (Multiset.mem_add.mpr (.inl hf))
    rw [add_left_comm] at hthaw
    obtain ⟨k', hfree, hk', hsame, hlist⟩ := freevm_old hT hF hthaw
    have hcommit := commit_run new (s := s₁) (by rw [hu]; exact hfree)
    rw [hcommit] at hrun
    have hnew : ∀ f ∈ spaceCells s₁.kmem.mem.entry new.pgdir, pages k'.mem f = pages s₁.kmem.mem f :=
      fun f hf => hsame f (Multiset.mem_add.mpr (.inl hf))
    have hshown : Shown new.pgdir S (pages k'.mem) := hk.sound.1.frame hnew
    have hpte : pteAt k'.mem.entry new.pgdir = S.pte := hshown.pte
    have hcells : spaceCells k'.mem.entry new.pgdir = spaceCells s₁.kmem.mem.entry new.pgdir :=
      spaceCells_frame _ _ _ fun f hf => congrArg Prod.fst (hnew f hf)
    refine ⟨0, _, herase s₀ _ hrun, hrun, hfs', hk', .inr ⟨rfl, ⟨himage, hview.size.2, fun va hva => ?_, fun f hf => ?_,
      fun f hf => ?_⟩, hview.congr hpte fun va hva hp => hshown.viewOf_byte hva hp⟩⟩
    · show mapped k'.mem.entry new.pgdir va = true
      rw [mapped_eq, hpte]
      exact hview.mapped va hva
    · have hf' : f ∈ spaceCells s₁.kmem.mem.entry new.pgdir := hcells ▸ hf
      refine ⟨?_, not_free_of_mem_cells hT hk' (Multiset.mem_add.mpr (.inl hf))⟩
      -- a page of the new image was not in use before, so it was free
      have hmem : f ∈ T := hk'.mem_total (Multiset.mem_add.mpr (.inl hf))
      by_contra hnot
      have hcell := mem_cells_of_not_free hcall hmem hnot
      have hn := Multiset.nodup_add.mp (hacct.nodup_cells hT)
      exact Multiset.disjoint_left.mp hn.2.2 hf' hcell
    · rw [← hold] at hf
      have hin : f ∈ (k'.freelist : Multiset Nat) := by
        rw [hlist]
        exact Multiset.mem_add.mpr (.inl hf)
      exact hin

theorem execFile_ends (hF : ∀ f ∈ T, IsFrame L f) (path : List UInt8) (file : Option (List UInt8))
    (argv : List (List UInt8)) (s₀ : ExecState) (hcall : Acct T (space s₀.user.pgdir + B) s₀.kmem)
    (hfs : s₀.fs.locked = false) :
    ∃ r s', (execFile copyoutChecked L path file argv).run s₀ = .ok (r, s') ∧
      (execWatched mappedBelow copyoutChecked L path file argv).run s₀ = .ok (r, s') ∧ s'.fs = s₀.fs.done ∧
      Acct T (space s'.user.pgdir + B) s'.kmem ∧
      (r = -1 ∧ Kept T s₀ s' ∧ (∀ content, file = some content → ¬ Suits content argv s₀.kmem) ∨
        r = 0 ∧ Replaced path file s₀ s' ∧ ∃ content, file = some content ∧
          ExecView content argv s'.user.sz s'.user.esp (viewOf s'.kmem.mem s'.user.pgdir)) := by
  cases file with
  | none =>
    exact ⟨-1, { s₀ with fs := s₀.fs.done }, rfl, rfl, rfl, hcall,
      .inl ⟨rfl, ⟨rfl, .refl _, fun _ _ _ => rfl⟩, fun _ h => nomatch h⟩⟩
  | some content =>
    obtain ⟨r, s', hrun, hwatch, hfs', hacct, hcase⟩ := execFile_some hT hF path content argv s₀ hcall hfs
    refine ⟨r, s', hrun, hwatch, hfs', hacct, hcase.imp ?_ ?_⟩
    · exact fun h => ⟨h.1, h.2.1, fun _ heq => Option.some.inj heq ▸ h.2.2⟩
    · exact fun h => ⟨h.1, h.2.1, content, rfl, h.2.2⟩

end

end Chameleon.Vm
