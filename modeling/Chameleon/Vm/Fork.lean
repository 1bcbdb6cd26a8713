import Chameleon.Vm.Boot

/-! `copyuvm` copies an address space: page by page the same flags and the same bytes, in page
frames that were free. -/

namespace Chameleon.Vm
open Region Hoare

/-- `S'` is `S` with the pages of `P` below `b` added. -/
structure CopiedTo (P : View) (b : Nat) (S S' : View) : Prop where
  copy : ∀ va < b, present (S'.pte va) ∧ PTE_FLAGS (S'.pte va) = PTE_FLAGS (P.pte va) ∧ S'.byte va = P.byte va
  off : ∀ va < WORD, b ≤ va → S'.pte va = S.pte va

/-- The flags of a present entry contain `PTE_P`. -/
theorem flags_or_P {pte : Nat} (h : present pte) : PTE_FLAGS pte ||| PTE_P = PTE_FLAGS pte := by
  refine Nat.eq_of_testBit_eq fun i => ?_
  rw [Nat.testBit_or]
  by_cases hi : i = 0
  · have hzero : (PTE_FLAGS pte).testBit 0 = true := by
      rw [Nat.testBit_zero, decide_eq_true_iff]
      have := (present_iff pte).mp h
      unfold PTE_FLAGS PGSIZE
      omega
    rw [hi, hzero, Bool.true_or]
  · have hone : (1 : Nat).testBit i = false :=
      Bool.eq_false_iff.mpr (mt Nat.testBit_one_eq_true_iff_self_eq_zero.mp hi)
    rw [show PTE_P = 1 from rfl, hone, Bool.or_false]

theorem CopiedTo.map {P S S' : View} {b pg : Nat} (h : CopiedTo P b S S') (hal : b % PGSIZE = 0) (hb : b < KERNBASE)
    (hpg : pg % PGSIZE = 0) (hpage : ∀ va, SamePage va b → P.pte va = P.pte b) (hpres : present (P.pte b)) :
    CopiedTo P (b + PGSIZE) S (S'.map b (pg ||| PTE_FLAGS (P.pte b) ||| PTE_P) fun o => P.byte (b + o)) := by
  have hflags : PTE_FLAGS (P.pte b) < PGSIZE := Nat.mod_lt _ (by decide)
  refine ⟨fun va hva => ?_, fun va hva hge => ?_⟩
  · have hw : va < WORD := by unfold KERNBASE PGSIZE WORD at *; omega
    show present (if _ then _ else _) ∧ PTE_FLAGS (if _ then _ else _) = _ ∧ (if _ then _ else _) = _
    by_cases hsame : SamePage va b
    · have hin := (samePage_page hal hb hw).mp hsame
      have hoff : b + va % PGSIZE = va := by unfold PGSIZE at *; omega
      rw [if_pos hsame, if_pos hsame, hpage va hsame]
      refine ⟨present_or_P _, ?_, congrArg P.byte hoff⟩
      rw [PTE_FLAGS_entry hpg hflags, flags_or_P hpres]
    · rw [if_neg hsame, if_neg hsame]
      rw [samePage_page hal hb hw] at hsame
      exact h.copy va (by omega)
  · have hne : ¬ SamePage va b := by
      rw [samePage_page hal hb hva]
      omega
    show (if _ then _ else _) = _
    rw [if_neg hne]
    exact h.off va hva (by omega)

section
variable {L : Layout} {T : Multiset Nat} {R : Region Nat Page} {P S : View} {pgdir d : Nat} {E : String → Prop}
variable (hT : T.Nodup) (hF : ∀ f ∈ T, IsFrame L f) (hpar : ∀ s, R.sound s → Shown pgdir P s)

theorem Shown.pte_of_samePage {s : Nat → Page} (h : Shown pgdir P s) {va a : Nat} (hsame : SamePage va a) :
    P.pte va = P.pte a := by
  rw [← h.pte]
  exact pteAt_of_samePage hsame

include hT hF hpar

theorem copyPage_owns {mem i : Nat} {A : Region Nat Page} {k : Kmem} (hal : i % PGSIZE = 0) (hi : i < KERNBASE)
    (hpres : present (P.pte i)) (hA : A = view d S + R) (hk : Owns T (single mem + A) k) :
    Owns T (holding mem (fun o => P.byte (i + o)) + A) (k.setMem (·.copyPage mem (PTE_ADDR (P.pte i)))) := by
  subst hA
  have hmem := (isFrame_of_owned hF hk (Multiset.mem_add.mpr (.inl (Multiset.mem_singleton_self mem)))).1
  have hshown := hpar _ hk.sound.2.2
  refine holding_write hT hk (fun q hq => ?_) fun o ho => ?_
  · exact pages_congr rfl fun o ho hqal => if_neg (outside_page hmem hqal hq ho)
  · have hw : i + o < WORD := by unfold KERNBASE PGSIZE WORD at *; omega
    have hsame : SamePage (i + o) i := (samePage_page hal hi hw).mpr ⟨Nat.le_add_right i o, Nat.add_lt_add_left ho i⟩
    have hmod : (i + o) % PGSIZE = o := by unfold PGSIZE at *; omega
    have hbyte := hshown.byte (i + o) (by unfold KERNBASE PGSIZE at *; omega)
      (hshown.pte_of_samePage hsame ▸ hpres)
    rw [hshown.pte_of_samePage hsame, hmod, pages_byte k.mem (PTE_ADDR_mod _) ho] at hbyte
    rw [pages_byte _ hmem ho]
    show (if mem ≤ mem + o ∧ mem + o < mem + PGSIZE then k.mem.byte (_ + (mem + o - mem)) else _) = _
    rw [if_pos ⟨Nat.le_add_right mem o, Nat.add_lt_add_left ho mem⟩, Nat.add_sub_cancel_left]
    exact hbyte

theorem copyLoop_view {hi : Nat} (hhi : hi ≤ KERNBASE) (hmapped : ∀ va < hi, present (P.pte va))
    (habs : ∀ va < KERNBASE, ¬ present (S.pte va)) (n : Nat) {i : Nat} (hal : i % PGSIZE = 0)
    (hn : i + n * PGSIZE = hi) {S' : View} (hS' : CopiedTo P i S S') :
    Triple E (Owns T (view d S' + R)) (copyLoop L pgdir d n i) fun ok k => ∃ S', Owns T (view d S' + R) k ∧
      (ok → CopiedTo P hi S S') := by
  induction n generalizing i S' with
  | zero =>
    rw [Nat.zero_mul, Nat.add_zero] at hn
    subst hn
    exact Triple.ret fun k hk => ⟨S', hk, fun _ => hS'⟩
  | succ n ih =>
    rw [Nat.succ_mul] at hn
    have hlt : i < hi := by unfold PGSIZE at *; omega
    have hik : i < KERNBASE := lt_of_lt_of_le hlt hhi
    have hpres := hmapped i hlt
    refine Triple.read fun k hk => ?_
    have hshown : Shown pgdir P (pages k.mem) := hpar _ hk.sound.2
    have hpte : pteAt k.mem.entry pgdir i = P.pte i := congrFun hshown.pte i
    have htab : present (k.mem.entry pgdir (PDX i)) := table_of_pteAt (hpte ▸ hpres)
    have hwalk : walkpgdir k.mem pgdir i = some (PTE_ADDR (k.mem.entry pgdir (PDX i)), PTX i) := if_pos htab
    rw [pteAt_table htab] at hpte
    have hpage : ∀ va, SamePage va i → P.pte va = P.pte i := fun va => hshown.pte_of_samePage
    rw [hwalk]
    dsimp only
    rw [hpte]
    refine Triple.ite (fun hno => ?_) fun _ => ?_
    · rw [hpres] at hno
      cases hno
    refine (kalloc_took.pre (by rintro _ rfl; exact hk)).bind fun r => ?_
    cases r with
    | none => exact Triple.ret fun k hk => ⟨S', hk, fun h => nomatch h⟩
    | some mem =>
      refine Triple.given (fun k hk => (isFrame_of_owned hF hk
        (Multiset.mem_add.mpr (.inl (Multiset.mem_singleton_self mem)))).1) fun hmem => ?_
      refine Triple.upd _ (fun k hk => copyPage_owns hT hF hpar hal hik hpres rfl hk) ?_
      have hfree : ¬ present (S'.pte i) := by
        rw [hS'.off i (by unfold KERNBASE WORD at *; omega) le_rfl]
        exact habs i hik
      refine (mappages_view hT hF hal hik (Nat.mod_lt _ (by decide)) fun h => absurd h hfree).bind fun r => ?_
      refine Triple.ite (fun hr => ?_) fun hr => ?_
      · rw [if_pos hr]
        refine ((kfree_owns hT hF).pre fun k hk => hk.forget hT).bind fun _ => Triple.ret fun k hk => ?_
        exact ⟨S', hk, fun h => nomatch h⟩
      · rw [if_neg hr]
        exact ih (by unfold PGSIZE at *; omega) (by omega) (hS'.map hal hik hmem hpage hpres)

theorem copyuvm_view {sz : Nat} (hsz : sz < KERNBASE) (hmapped : ∀ va < PGROUNDUP sz, present (P.pte va)) :
    Triple E (Owns T R) (copyuvm L pgdir sz) fun r k => match r with
      | none => Owns T R k
      | some d => ∃ S, Owns T (view d S + R) k ∧ (∀ va < PGROUNDUP sz, present (S.pte va) ∧
          PTE_FLAGS (S.pte va) = PTE_FLAGS (P.pte va) ∧ S.byte va = P.byte va) ∧
          ∀ va < WORD, PGROUNDUP sz ≤ va → S.pte va = kvmPte L va := by
  refine (setupkvm_view hT hF).bind fun r => ?_
  cases r with
  | none => exact Triple.ret fun _ h => h
  | some d =>
    refine Triple.exists_pre fun S => Triple.given (fun k hk => hk.2) fun hpte => ?_
    have habs : ∀ va < KERNBASE, ¬ present (S.pte va) := by
      intro va hva
      rw [hpte va (lt_trans hva (by decide)), kvmPte, rowsPte_below (kmap_rising L) hva]
      exact not_present_zero
    have hpages : 0 + pagesIn 0 sz * PGSIZE = PGROUNDUP sz := @PGROUNDUP_grow 0 sz (Nat.zero_le sz) hsz
    refine ((copyLoop_view hT hF hpar (PGROUNDUP_le hsz.le).1 hmapped habs _ (by decide) hpages
      ⟨fun va h => absurd h (Nat.not_lt_zero va), fun _ _ _ => rfl⟩).pre fun k hk => hk.1).bind fun ok => ?_
    refine Triple.exists_pre fun S' => Triple.ite (fun hok => ?_) fun hok => ?_
    · refine Triple.ret fun k hk => ⟨S', hk.1, (hk.2 hok).copy, fun va hva hge => ?_⟩
      rw [(hk.2 hok).off va hva hge, hpte va hva]
    · exact ((freevm_owns hT hF).pre fun k hk => hk.1).bind fun _ => Triple.ret fun _ h => h

end

/-- With an unused slot and enough pages, `fork` makes a child. -/
theorem fork_makes {L : Layout} {T : Multiset Nat} {R : Region Nat (Nat → Nat)} (hT : T.Nodup) (hF : ∀ f ∈ T, IsFrame L f)
    {t t₁ : Table} (cur : Ptable.Slot) {np : Ptable.Slot} {d sz n : Nat} (halloc : Ptable.allocproc t = some (np, t₁))
    (hd : (t₁.proc cur).pgdir = some d) (hs : (t₁.proc cur).sz = sz) (hsz : sz < KERNBASE) (hn : pagesIn 0 sz ≤ n) :
    Triple Never (fun k => Acct T (space d + R) k ∧ Plenty True (514 + 2 * n) k ∧
        ∀ va < PGROUNDUP sz, mapped k.mem.entry d va = true) (fork L t cur)
      fun t' _ => (t'.proc np).state = .runnable ∧ (t'.proc np).parent = some cur := by
  unfold fork
  rw [halloc]
  subst hs
  refine Triple.each fun k hk => ?_
  obtain ⟨hk, hplenty, hmapped⟩ := hk
  have hkalloc : Triple Never _ kalloc _ := (kalloc_plenty (φ := True) (x := 513 + (2 * n + 0))).and
    (kalloc_took (T := T) (A := view d (viewOf k.mem d) + lift R))
  refine (hkalloc.pre ?_).bind fun r => ?_
  · rintro _ rfl
    exact ⟨hplenty.mono (by omega), hk.owns⟩
  cases r with
  | none => exact fun k hk => absurd rfl (hk.1.1 trivial)
  | some stack =>
    refine (pgdirOf_spec hd).bind fun pgdir => Triple.assume ?_
    rintro rfl
    have hpar : ∀ s, (single stack + (view pgdir (viewOf k.mem pgdir) + lift R)).sound s →
        Shown pgdir (viewOf k.mem pgdir) s := fun s hs => And.left (And.right hs)
    have hcopy : Triple Never _ (copyuvm L pgdir (t₁.proc cur).sz) _ :=
      (copyuvm_plenty hT hF (φ := True) (x := 0) pgdir hsz hn).and
      (copyuvm_view hT hF hpar hsz fun va hva => (mapped_eq k.mem.entry pgdir va).symm.trans (hmapped va hva))
    refine (hcopy.pre fun k' hk' => ⟨⟨hk'.2.free_le, hk'.1.2⟩, hk'.2⟩).bind fun r => ?_
    cases r with
    | none => exact fun k hk => absurd rfl (hk.1.1 trivial)
    | some d' =>
      refine Triple.ret fun _ _ => ?_
      rw [setProc_self]
      exact ⟨rfl, rfl⟩

/-- The address space `d` that `copyuvm` made from `pgdir`, and what it left alone. -/
structure Forked (L : Layout) (pgdir sz d : Nat) (k k' : Kmem) : Prop where
  copy : ∀ va < PGROUNDUP sz, mapped k'.mem.entry d va = true ∧
    PTE_FLAGS (pteAt k'.mem.entry d va) = PTE_FLAGS (pteAt k.mem.entry pgdir va) ∧
    (viewOf k'.mem d).byte va = (viewOf k.mem pgdir).byte va
  above : ∀ va < KERNBASE, PGROUNDUP sz ≤ va → mapped k'.mem.entry d va = false
  distinct : ∀ va < PGROUNDUP sz, ∀ va' < PGROUNDUP sz,
    PTE_ADDR (pteAt k'.mem.entry d va) = PTE_ADDR (pteAt k'.mem.entry d va') → va / PGSIZE = va' / PGSIZE
  fresh : ∀ va < PGROUNDUP sz, PTE_ADDR (pteAt k'.mem.entry d va) ∈ k.freelist
  kernel : ∀ va, KERNBASE ≤ va → va < WORD → pteAt k'.mem.entry d va = kvmPte L va
  parent : ∀ va, pteAt k'.mem.entry pgdir va = pteAt k.mem.entry pgdir va
  parentBytes : ∀ va < PGROUNDUP sz, (viewOf k'.mem pgdir).byte va = (viewOf k.mem pgdir).byte va
  others : ∀ f ∈ handed L, f ∉ k.freelist → k'.mem.entry f = k.mem.entry f ∧
    ∀ o < PGSIZE, k'.mem.byte (f + o) = k.mem.byte (f + o)

section
variable {L : Layout} {A : Region Nat (Nat → Nat)} {k k' : Kmem}

/-- Pages that keep their contents, one by one. -/
theorem frozen_pages {M : Multiset Nat} {m m' : Mem} (h : (frozen M (pages m)).sound (pages m')) {f : Nat} (hf : f ∈ M)
    (hal : f % PGSIZE = 0) : m'.entry f = m.entry f ∧ ∀ o < PGSIZE, m'.byte (f + o) = m.byte (f + o) := by
  have hpage := h f hf
  refine ⟨congrArg Prod.fst hpage, fun o ho => ?_⟩
  rw [← pages_byte m' hal ho, ← pages_byte m hal ho, hpage]

/-- Everything in use may be taken to be frozen. -/
theorem Acct.frozen_owns {T : Multiset Nat} (h : Acct T A k) :
    Owns T (frozen (A.cells k.mem.entry) (pages k.mem)) k := ⟨h.total, fun _ _ => rfl⟩

end

/-- `copyuvm` returns, and it returns an exact copy or leaves the free list with its old pages,
whichever calls of `kalloc` are refused. `R` is everything in use besides the parent. -/
theorem copyuvm_copies (L : Layout) {R : Region Nat (Nat → Nat)} {pgdir sz : Nat} {k : Kmem}
    (hk : Acct (handed L) (space pgdir + R) k) (hsz : sz < KERNBASE)
    (hmapped : ∀ va < PGROUNDUP sz, mapped k.mem.entry pgdir va = true) :
    ∃ r k', (copyuvm L pgdir sz).run k = .ok (r, k') ∧
      (r = none ∧ k'.freelist.Perm k.freelist ∨ ∃ d, r = some d ∧ Forked L pgdir sz d k k') := by
  have hT := nodup_handed L
  have hF := isFrame_handed L
  have hup := PGROUNDUP_le hsz.le
  generalize hM : (space pgdir + R).cells k.mem.entry = M
  -- While the child is built, everything that was in use is frozen, the parent's pages included.
  have hfrozen : Owns (handed L) (frozen M (pages k.mem)) k := hM ▸ hk.frozen_owns
  have hpar : ∀ s, (frozen M (pages k.mem)).sound s → Shown pgdir (viewOf k.mem pgdir) s := by
    intro s hs
    have hshown : Shown pgdir (viewOf k.mem pgdir) (pages k.mem) := hk.owns.sound.1
    exact hshown.frame fun f hf => hs f (hM ▸ Multiset.mem_add.mpr (.inl hf))
  have hpres : ∀ va < PGROUNDUP sz, present ((viewOf k.mem pgdir).pte va) := by
    intro va hva
    have hm := hmapped va hva
    rw [mapped_eq] at hm
    exact hm
  obtain ⟨r, k', hrun, hpost⟩ := (copyuvm_view hT hF hpar hsz hpres).ends hfrozen
  refine ⟨r, k', hrun, ?_⟩
  cases r with
  | none =>
    refine .inl ⟨rfl, Multiset.coe_eq_coe.mp ?_⟩
    -- The frames in use are the same ones, and so are the free ones.
    exact add_left_cancel (hpost.total.trans hfrozen.total.symm)
  | some d =>
    obtain ⟨S, hk', hcopy, hpte⟩ := hpost
    have hn := hk'.nodup_cells hT
    have hnd : (spaceCells k'.mem.entry d).Nodup := (Multiset.nodup_add.mp hn).1
    have hp : ∀ va < PGROUNDUP sz, present (pteAt k'.mem.entry d va) := by
      intro va hva
      rw [hk'.pte]
      exact (hcopy va hva).1
    have hlt : ∀ va < PGROUNDUP sz, va < KERNBASE := fun va hva => lt_of_lt_of_le hva hup.1
    refine .inr ⟨d, rfl, fun va hva => ⟨?_, ?_, ?_⟩, fun va hva hge => ?_, fun va hva va' hva' heq => ?_, fun va hva => ?_,
      fun va hge hva => ?_, fun va => ?_, fun va hva => ?_, fun f hf hfree => ?_⟩
    · rw [hk'.mapped_eq]
      exact (hcopy va hva).1
    · rw [hk'.pte]
      exact (hcopy va hva).2.1
    · rw [hk'.byte (hlt va hva) (hcopy va hva).1]
      exact (hcopy va hva).2.2
    · rw [hk'.mapped_eq, hpte va (lt_trans hva (by decide)) hge, kvmPte, rowsPte_below (kmap_rising L) hva]
      rfl
    · by_contra hne
      refine page_ne_page hnd (hlt va' hva') (hlt va hva) (hp va' hva') (hp va hva) (fun hsame => hne ?_) heq
      exact (samePage_iff (lt_trans (hlt va hva) (by decide)) (lt_trans (hlt va' hva') (by decide))).mp hsame
    · -- the frame was not in use before, so it was free
      have hcell := mem_spaceCells_page (hlt va hva) (hp va hva)
      have hmem : PTE_ADDR (pteAt k'.mem.entry d va) ∈ (handed L : Multiset Nat) :=
        hk'.mem_total (Multiset.mem_add.mpr (.inl hcell))
      rw [← hfrozen.total] at hmem
      refine (Multiset.mem_add.mp hmem).resolve_left fun hold => ?_
      exact Multiset.disjoint_left.mp (Multiset.nodup_add.mp hn).2.2 hcell hold
    · rw [hk'.pte]
      exact hpte va hva (le_trans hup.1 hge)
    · exact congrFun (hpar _ hk'.sound.2).pte va
    · exact (hpar _ hk'.sound.2).viewOf_byte (hlt va hva) (hpres va hva)
    · have hmem : f ∈ (handed L : Multiset Nat) := hf
      rw [← hfrozen.total] at hmem
      exact frozen_pages hk'.sound.2 ((Multiset.mem_add.mp hmem).resolve_right hfree) (hF f hf).1

/-- The one page of the first process is copied, when no call of `kalloc` is refused. -/
theorem copyuvm_copies_first : ∃ s d d' k', Booted sampleLayout s ∧ (s.1.table.proc 0).pgdir = some d ∧
    (copyuvm sampleLayout d 4096).run { s.2 with deny := [] } = .ok (some d', k') ∧
    Forked sampleLayout d 4096 d' { s.2 with deny := [] } k' ∧ mapped k'.mem.entry d' 0 = true := by
  obtain ⟨s, d, hs, hlive, hd, -, hmapped, hfree⟩ := exists_first sampleLayout
  obtain ⟨B, hacct⟩ := caller_of_reach (.start hs) hlive hd
  obtain ⟨r, k', hrun, hpost⟩ := copyuvm_copies sampleLayout (hacct []) (show 4096 < KERNBASE by decide) fun va hva =>
    (hmapped va (lt_trans hva (by decide))).trans (decide_eq_true hva)
  have hsome := copyuvm_plenty (nodup_handed sampleLayout) (isFrame_handed sampleLayout) (φ := True) (x := 0) (n := 1) d
    (show 4096 < KERNBASE by decide) (by decide)
  have hr := (hsome.result (s := { s.2 with deny := [] }) ⟨(hacct []).free_le, fun _ => ⟨rfl, le_trans (by decide) hfree⟩⟩
    hrun).1 trivial
  obtain ⟨d', rfl, hforked⟩ := hpost.resolve_left fun h => hr h.1
  exact ⟨s, d, d', k', hs, hd, hrun, hforked, (hforked.copy 0 (by decide)).1⟩

end Chameleon.Vm
