import Chameleon.Lib.Dll
import Chameleon.Log.Crash

/-! The buffer cache is transparent. An observer keeps the pointers of the buffer list as `binit`
and `brelse` assign them, the contents last logged or written for each block, the blocks that are
logged and not installed, and what each call of `bread` returns. -/

namespace Chameleon.Log
open Conc Machine Bio
variable {La : Area} {d₀ disk : Nat → Block} {s s' : State} {g g' : Ghost} {p : Pid}

/-- A call of `bread` after `bget`: the block, its buffer, and whether its lock is acquired. -/
structure Reading where
  blockno : Nat
  buf : Fin NBUF
  locked : Bool

/-- What a call of `bread` returned for a block, and what was last logged or written for it. -/
structure Returned where
  blockno : Nat
  buf : Buf
  latest : Block

structure Watch where
  links : Dll.Links (Fin NBUF)
  latest : Nat → Block
  logged : Nat → Bool
  reading : Pid → Option Reading
  returned : List Returned

/-- The loop of `binit`. -/
def binitLinks : Dll.Links (Fin NBUF) := (List.finRange NBUF).foldl Dll.Links.pushFront .empty

def Watch.boot (disk : Nat → Block) : Watch where
  links := binitLinks
  latest := disk
  logged := fun _ => false
  reading := fun _ => none
  returned := []

/-- The buffer whose contents `log_write` logs or `bwrite` writes to disk. -/
def written : {β : Type} → Act β → State → Option (Fin NBUF)
  | _, .append i, _ => some i
  | _, .transfer i, s => if (s.buf i).dirty then some i else none
  | _, _, _ => none

/-- The call of `bread` a process is in returns the buffer. -/
def Watch.finish (o : Watch) (p : Pid) (i : Fin NBUF) (x : Buf) : Watch :=
  { o with
    reading := Function.update o.reading p none
    returned :=
      match o.reading p with
      | some ⟨b, j, true⟩ => if j = i then ⟨b, x, o.latest b⟩ :: o.returned else o.returned
      | _ => o.returned }

/-- The contents last logged or written. -/
def Watch.note (o : Watch) (s : State) {β : Type} (a : Act β) : Watch :=
  match written a s with
  | some i => { o with latest := Function.update o.latest (s.buf i).blockno (s.buf i).data }
  | none => o

/-- The block is logged and waits for its commit. -/
def waits (La : Area) (s : State) (b : Nat) : Bool := decide (header (s.disk La.start) = [] ∧ b ∈ s.lh)

/-- A block that is written to disk is installed, unless it waits for its commit. -/
def Watch.install (La : Area) (o : Watch) (s : State) (i : Fin NBUF) : Watch :=
  { o with
    logged :=
      if (s.buf i).dirty && !waits La s (s.buf i).blockno then Function.update o.logged (s.buf i).blockno false
      else o.logged }

def Watch.act (La : Area) (p : Pid) : {β : Type} → Act β → State → Watch → Watch
  | _, .bget b, s, o =>
    let x := (Bio.bget s.cache b).map fun r => ⟨b, r.1, false⟩
    { o with reading := Function.update o.reading p x }
  | _, .acquiresleep i, _, o =>
    let x := (o.reading p).bind fun x => if x.buf = i then some { x with locked := true } else none
    { o with reading := Function.update o.reading p x }
  | _, .holdingsleep _, _, o => o
  -- `bread` returns at once when the buffer is valid, and otherwise after `iderw` has read it
  | _, .flags i, s, o => if (s.buf i).valid then o.finish p i (s.buf i) else o
  | _, .transfer i, s, o =>
    ((o.note s (.transfer i)).install La s i).finish p i ((transfer La s i).buf i)
  | _, .append i, s, o =>
    { o.note s (.append i) with
      logged := Function.update o.logged (s.buf i).blockno true
      reading := Function.update o.reading p none }
  -- the last section of `brelse` moves a buffer without references behind the head
  | _, .put i, s, o =>
    { o with
      links := if (s.buf i).dropRef.refcnt = 0 then (o.links.unlink i).pushFront i else o.links
      reading := Function.update o.reading p none }
  | _, _, _, o => { o with reading := Function.update o.reading p none }

/-- A crash leaves what is on disk, and the boot starts with `binit`. -/
def watch (La : Area) : Observer State Pid Unit Watch Act where
  act := fun p {_} => Watch.act La p
  env := fun _ s o => { Watch.boot s.disk with returned := o.returned }

def watchStep (La : Area) : World × Watch → Event → Option (World × Watch) :=
  (system La).watched (watch La)

/-- What is known of a process in a call of `bread`. -/
structure Reading.Ok (La : Area) (d₀ : Nat → Block) (p : Pid) (x : Reading) (s : State)
    (g : Ghost) : Prop where
  ref : 0 < g.ref p x.buf
  caches : (s.buf x.buf).caches x.blockno
  holder : x.locked = true → (s.buf x.buf).holder = some p
  data : x.locked = true → (s.buf x.buf).valid = true →
    (s.buf x.buf).data = (com s g).look La d₀ x.blockno

/-- How the observer and the state of the log belong together. -/
structure Tie (La : Area) (d₀ : Nat → Block) (o : Watch) (s : State) (g : Ghost) : Prop where
  links : Dll.Rep o.links s.cache.list
  latest : ∀ b, o.latest b = (com s g).look La d₀ b
  logged : ∀ b, o.logged b = true → ∃ i, (s.buf i).caches b ∧ (s.buf i).dirty = true
  reading : ∀ p x, o.reading p = some x → x.Ok La d₀ p s g
  returned : ∀ r ∈ o.returned, r.buf.caches r.blockno ∧ r.buf.data = r.latest

section Look

/-- Logged blocks are home blocks, and are logged while the system is up. -/
theorem Inv.home_of_append {i : Fin NBUF} (h : Inv La d₀ (Log.append p s i) g) :
    La.Home (s.buf i).blockno ∧ s.up = true := by
  have hcur : (Log.append p s i).hist.cur ≠ [] := List.append_ne_nil_of_right_ne_nil _ (by simp)
  have hhead : (com (Log.append p s i) g).head La = [] := by
    by_contra hh
    exact hcur (h.durable.sealed hh).cur
  have ho := h.durable.open hhead
  refine ⟨ho.home _ ((ho.mem _).mpr ⟨_, List.mem_append_right _ List.mem_cons_self, rfl⟩), ?_⟩
  by_contra hu
  have hdown : (Log.append p s i).up = false := Bool.eq_false_iff.mpr hu
  exact hcur (h.down hdown).2.2

/-- A block whose buffer is not pinned is on disk as it was last logged. -/
theorem Inv.look_eq_disk (h : Inv La d₀ s g) {i : Fin NBUF} {b : Nat} (hc : (s.buf i).caches b)
    (hd : (s.buf i).dirty = false) : (com s g).look La d₀ b = s.disk b := by
  refine Com.look_eq_disk h.durable fun hu hp => ?_
  obtain ⟨j, hcj, hdj⟩ := h.pins hu b hp
  rw [h.cache.uniq hcj hc] at hdj
  exact absurd (hd.symm.trans hdj) (by simp)

theorem look_congr (hd : s'.disk = s.disk) (hu : s'.up = s.up)
    (hg : s'.hist.groups = s.hist.groups) (hc : s'.hist.cur = s.hist.cur) :
    (com s' g').look La d₀ = (com s g).look La d₀ := by
  funext b
  simp only [Com.look, Com.view, Com.committed, com, hd, hu, hg, hc]
  congr

theorem look_append {i : Fin NBUF} (h : Inv La d₀ (append p s i) g') :
    (com (append p s i) g').look La d₀ =
      Function.update ((com s g).look La d₀) (s.buf i).blockno (s.buf i).data := by
  obtain ⟨hhome, hup⟩ := h.home_of_append
  have hview : (com (append p s i) g').view d₀ =
      Function.update ((com s g).view d₀) (s.buf i).blockno (s.buf i).data := apply_concat ..
  funext b
  by_cases hb : b = (s.buf i).blockno
  · subst hb
    rw [Function.update_self, Com.look_of_home hhome hup, hview, Function.update_self]
  · rw [Function.update_of_ne hb, Com.look, hview, Function.update_of_ne hb]
    rfl

theorem transfer_self (i : Fin NBUF) : (transfer La s i).buf i = transferred s i := by
  rw [State.buf, transfer_cache, Bcache.setBuf_self]

theorem transfer_of_ne {i j : Fin NBUF} (h : j ≠ i) : (transfer La s i).buf j = s.buf j := by
  rw [State.buf, transfer_cache, Bcache.setBuf_of_ne _ h]

theorem look_transfer {i : Fin NBUF} (h : Inv La d₀ (transfer La s i) g')
    (hd : (s.buf i).dirty = true) : (com (transfer La s i) g').look La d₀ =
      Function.update ((com s g).look La d₀) (s.buf i).blockno (s.buf i).data := by
  have hself : (transfer La s i).buf i = transferred s i := transfer_self i
  have hdisk : (transfer La s i).disk = Function.update s.disk (s.buf i).blockno (s.buf i).data := by
    rw [transfer_dirty hd]
  -- the write may commit a group, which leaves the view as it is
  have hview : (com (transfer La s i) g').view d₀ = (com s g).view d₀ := by
    rw [com_transfer (g := g) hd rfl rfl rfl]
    by_cases hcommit : (s.buf i).blockno = La.start ∧ (s.buf i).data 0 ≠ 0
    · simp only [Com.view, Com.committed, Com.write, if_pos hcommit, List.flatten_append,
        List.flatten_singleton, apply_append]
      rfl
    · simp only [Com.view, Com.committed, Com.write, if_neg hcommit]
  have hup : (transfer La s i).up = s.up := by rw [transfer_dirty hd]
  funext b
  by_cases hb : b = (s.buf i).blockno
  · subst hb
    have hc : ((transfer La s i).buf i).caches (s.buf i).blockno :=
      ⟨h.dev (by rw [hself]; rfl), by rw [hself]; rfl⟩
    rw [h.look_eq_disk hc (by rw [hself]; rfl), hdisk, Function.update_self, Function.update_self]
  · rw [Function.update_of_ne hb]
    have hcond : (com (transfer La s i) g').up = (com s g).up := hup
    have hrest : (com (transfer La s i) g').disk b = (com s g).disk b := by
      simp only [com, hdisk, Function.update_of_ne hb]
    rw [Com.look, hview, hcond, hrest, Com.look]

theorem look_ready (h : Inv La d₀ s g) (h' : Inv La d₀ { s with up := true } g') :
    (com { s with up := true } g').look La d₀ = (com s g).look La d₀ := by
  cases hu : s.up with
  | true => exact look_congr rfl hu.symm rfl rfl
  | false =>
    obtain ⟨hcommitting, -, -⟩ := h.down hu
    have hwho : g'.who = none := h'.who_of_up rfl hcommitting
    have hhead := h'.quiet hwho
    have hcur : (com { s with up := true } g').cur = [] := (h.down hu).2.2
    have ho := h'.durable.open hhead
    funext b
    have hold : (com s g).look La d₀ b = s.disk b := Com.look_of_down hu
    rw [hold]
    refine Com.look_eq_disk h'.durable fun _ hb => ?_
    rw [Com.pend_of_head hhead] at hb
    obtain ⟨u, hmem, -⟩ := (ho.mem b).mp hb
    rw [hcur] at hmem
    simp at hmem

end Look

/-- What an action can do to the cache and to the contents of the blocks. -/
inductive Move (La : Area) (p : Pid) (s : State) : {β : Type} → Act β → State → Prop
  | found {b : Nat} {i : Fin NBUF} {c : Bcache} (h : Bio.bget s.cache b = some (i, c)) :
      Move La p s (.bget b) { s with cache := c }
  | full {b : Nat} (h : Bio.bget s.cache b = none) : Move La p s (.bget b) s
  | lock {i : Fin NBUF} (h : (s.buf i).holder = none) :
      Move La p s (.acquiresleep i) (s.setBuf i { s.buf i with holder := some p })
  | unlock {i : Fin NBUF} :
      Move La p s (.releasesleep i) (s.setBuf i { s.buf i with holder := none })
  | put {i : Fin NBUF} : Move La p s (.put i) { s with cache := Bio.put s.cache i }
  | mark {i : Fin NBUF} : Move La p s (.setDirty i) (s.setBuf i { s.buf i with dirty := true })
  | fill {i : Fin NBUF} {d : Block} :
      Move La p s (.setData i d) (s.setBuf i { s.buf i with data := d })
  | transfer {i : Fin NBUF} : Move La p s (.transfer i) (transfer La s i)
  | append {i : Fin NBUF} : Move La p s (.append i) (append p s i)
  | flags {i : Fin NBUF} : Move La p s (.flags i) s
  | holding {i : Fin NBUF} : Move La p s (.holdingsleep i) s
  | ready : Move La p s .ready { s with up := true }
  | still {β : Type} {a : Act β} {s' : State} (hc : s'.cache = s.cache) (hd : s'.disk = s.disk)
      (hu : s'.up = s.up) (hg : s'.hist.groups = s.hist.groups) (hcur : s'.hist.cur = s.hist.cur)
      (hw : written a s = none)
      (ho : ∀ o : Watch, o.act La p a s = { o with reading := Function.update o.reading p none }) :
      Move La p s a s'

theorem Move.of_sem {β : Type} {a : Act β} {r : Option β} (h : sem La p a s = some (r, s')) :
    Move La p s a s' := by
  have hanswer : ∀ {b : β} {t : State}, answer b t = some (r, s') → s' = t := by
    intro b t ht
    exact (Prod.mk.inj (Option.some.inj ht)).2.symm
  cases a with
  | bget b =>
    simp only [sem] at h
    split at h
    · obtain rfl := hanswer h
      exact .found (by assumption)
    · obtain rfl := hanswer h
      exact .full (by assumption)
  | acquiresleep i =>
    simp only [sem] at h
    split at h
    · obtain rfl := hanswer h
      exact .lock (by assumption)
    · simp at h
  | holdingsleep i => obtain rfl := hanswer h; exact .holding
  | releasesleep i => obtain rfl := hanswer h; exact .unlock
  | put i => obtain rfl := hanswer h; exact .put
  | flags i => obtain rfl := hanswer h; exact .flags
  | setDirty i => obtain rfl := hanswer h; exact .mark
  | transfer i => obtain rfl := hanswer h; exact .transfer
  | setData i d => obtain rfl := hanswer h; exact .fill
  | append i => obtain rfl := hanswer h; exact .append
  | ready => obtain rfl := hanswer h; exact .ready
  | beginOp =>
    simp only [sem] at h
    split at h
    · simp at h
    · split at h
      · obtain rfl := (Prod.mk.inj (Option.some.inj h)).2
        exact .still rfl rfl rfl rfl rfl rfl fun _ => rfl
      · obtain rfl := hanswer h
        exact .still rfl rfl rfl rfl rfl rfl fun _ => rfl
  | endOp =>
    simp only [sem] at h
    split at h <;>
    · obtain rfl := hanswer h
      exact .still rfl rfl rfl rfl rfl rfl fun _ => rfl
  | _ =>
    obtain rfl := hanswer h
    exact .still rfl rfl rfl rfl rfl rfl fun _ => rfl

section Step
variable {β : Type} {a : Act β}

theorem Move.dev (h : Move La p s a s') (hi : Inv La d₀ s' g') {i : Fin NBUF}
    (hw : written a s = some i) : (s.buf i).dev = ROOTDEV ∧ (s'.buf i).data = (s.buf i).data := by
  cases h with
  | transfer =>
    rename_i j
    cases hd : (s.buf j).dirty with
    | false => simp [written, hd] at hw
    | true =>
      obtain rfl : j = i := by simpa [written, hd] using hw
      have hself : (Log.transfer La s j).buf j = transferred s j := transfer_self j
      have hdev := hi.dev (i := j) (by rw [hself]; rfl)
      rw [hself] at hdev ⊢
      exact ⟨hdev, by simp [transferred, hd]⟩
  | append =>
    rename_i j
    obtain rfl : j = i := by simpa [written] using hw
    have hself : (Log.append p s j).buf j = { s.buf j with dirty := true } :=
      Bcache.setBuf_self ..
    have hdev := hi.dev (hi.dirtyValid (i := j) (by rw [hself]))
    rw [hself] at hdev ⊢
    exact ⟨hdev, rfl⟩
  | still _ _ _ _ _ hnone _ => simp [hnone] at hw
  | _ => simp [written] at hw

/-- Only the block that is logged or written changes its contents. -/
theorem Move.look (h : Move La p s a s') (hi : Inv La d₀ s g) (hi' : Inv La d₀ s' g') :
    (com s' g').look La d₀ = match written a s with
      | some i => Function.update ((com s g).look La d₀) (s.buf i).blockno (s.buf i).data
      | none => (com s g).look La d₀ := by
  cases h with
  | transfer =>
    rename_i i
    cases hd : (s.buf i).dirty with
    | true =>
      simp only [written, hd, if_true]
      exact look_transfer hi' hd
    | false =>
      simp only [written, hd, Bool.false_eq_true, if_false]
      refine look_congr ?_ ?_ ?_ ?_ <;> rw [Log.transfer, if_neg (by simp [hd])] <;> rfl
  | append => exact look_append hi'
  | ready => exact look_ready hi hi'
  | still _ hd hu hg hcur hw _ =>
    simp only [hw]
    exact look_congr hd hu hg hcur
  | _ => exact look_congr rfl rfl rfl rfl

/-- The references of the acting process follow from the count and from those of the others. -/
theorem ref_own (hi : Inv La d₀ s g) (hi' : Inv La d₀ s' g')
    (hrest : ∀ q, q ≠ p → Rely q s g s' g') (i : Fin NBUF) :
    g'.ref p i + (s.buf i).refcnt = g.ref p i + (s'.buf i).refcnt := by
  have hsame : ∑ q ∈ Finset.univ.erase p, g'.ref q i = ∑ q ∈ Finset.univ.erase p, g.ref q i :=
    Finset.sum_congr rfl fun q hq => (hrest q (Finset.ne_of_mem_erase hq)).ref i
  rw [hi.refs i, hi'.refs i, ← Finset.add_sum_erase _ _ (Finset.mem_univ p),
    ← Finset.add_sum_erase _ _ (Finset.mem_univ p), hsame]
  omega

/-- A process in `bread` does not notice what the others do. -/
theorem Reading.Ok.rely {q : Pid} {x : Reading} (h : x.Ok La d₀ q s g) (hr : Rely q s g s' g')
    (hi : Inv La d₀ s g) (hi' : Inv La d₀ s' g') (hm : Move La p s a s') : x.Ok La d₀ q s' g' := by
  refine ⟨hr.ref x.buf ▸ h.ref, hr.caches h.ref h.caches,
    fun hl => (hr.lock x.buf).mpr (h.holder hl), fun hl hv => ?_⟩
  obtain ⟨hvalid, -, hdata, -⟩ := hr.locked x.buf (h.holder hl)
  rw [hdata, hm.look hi hi']
  have hold := h.data hl (hvalid ▸ hv)
  cases hw : written a s with
  | none => exact hold
  | some i =>
    by_cases hb : x.blockno = (s.buf i).blockno
    · have hix : x.buf = i := hi.cache.uniq h.caches ⟨(hm.dev hi' hw).1, hb.symm⟩
      simp only [hb, Function.update_self, hix]
    · simp only [Function.update_of_ne hb, hold]

variable {o : Watch}

theorem Watch.act_latest : (o.act La p a s).latest = match written a s with
    | some i => Function.update o.latest (s.buf i).blockno (s.buf i).data
    | none => o.latest := by
  cases a with
  | transfer i => cases hd : (s.buf i).dirty <;> simp [Watch.act, Watch.note, Watch.install, Watch.finish, written, hd]
  | flags i => cases hv : (s.buf i).valid <;> simp [Watch.act, Watch.finish, written, hv]
  | _ => rfl

theorem Watch.act_reading_of_ne {q : Pid} (hq : q ≠ p) :
    (o.act La p a s).reading q = o.reading q := by
  cases a with
  | transfer i =>
    cases hd : (s.buf i).dirty <;>
      simp [Watch.act, Watch.note, Watch.install, Watch.finish, written, hd, Function.update_of_ne hq]
  | flags i =>
    cases hv : (s.buf i).valid <;> simp [Watch.act, Watch.finish, hv, Function.update_of_ne hq]
  | holdingsleep i => rfl
  | _ => exact Function.update_of_ne hq ..

theorem Watch.act_links : (o.act La p a s).links = match a with
    | .put i => if (s.buf i).dropRef.refcnt = 0 then (o.links.unlink i).pushFront i else o.links
    | _ => o.links := by
  cases a with
  | transfer i => cases hd : (s.buf i).dirty <;> simp [Watch.act, Watch.note, Watch.install, Watch.finish, written, hd]
  | flags i => cases hv : (s.buf i).valid <;> simp [Watch.act, Watch.finish, hv]
  | _ => rfl

/-- The pointers follow the model's list. -/
theorem Tie.act_links (h : Tie La d₀ o s g) (hi : Inv La d₀ s g) (hm : Move La p s a s') :
    Dll.Rep (o.act La p a s).links s'.cache.list := by
  rw [Watch.act_links]
  cases hm with
  | found hb =>
    rcases bget_cases hi.cache hb with ⟨-, rfl⟩ | ⟨-, -, rfl⟩
    · exact h.links
    · exact h.links
  | put =>
    rename_i i
    by_cases h0 : (s.buf i).dropRef.refcnt = 0
    · have hlist : (Bio.put s.cache i).list = i :: s.cache.list.erase i := by
        rw [Bio.put, if_pos h0]
        rfl
      simp only [h0, if_true, hlist]
      exact h.links.toFront hi.cache.nodup (hi.cache.all i)
    · have hlist : (Bio.put s.cache i).list = s.cache.list := by
        rw [Bio.put, if_neg h0]
        rfl
      simp only [h0, if_false, hlist]
      exact h.links
  | transfer =>
    rw [transfer_cache]
    exact h.links
  | still hc _ _ _ _ _ ho =>
    have hsame := congrArg Watch.links (ho o)
    rw [Watch.act_links] at hsame
    rw [hsame, hc]
    exact h.links
  | _ => exact h.links

/-- No block is written home while it waits for its commit: its buffer would not be pinned any more. -/
theorem not_waits (hi : Inv La d₀ s g) {i : Fin NBUF} (hi' : Inv La d₀ (transfer La s i) g')
    (hd : (s.buf i).dirty = true) : waits La s (s.buf i).blockno = false := by
  refine decide_eq_false fun ⟨hhead, hmem⟩ => ?_
  have ho := hi.durable.open hhead
  have hup : s.up = true := by
    by_contra hdown
    obtain ⟨u, hu, -⟩ := (ho.mem _).mp hmem
    have hcur : s.hist.cur = [] := (hi.down (Bool.eq_false_iff.mpr hdown)).2.2
    rw [show (com s g).cur = [] from hcur] at hu
    cases hu
  have hself : (transfer La s i).buf i = transferred s i := transfer_self i
  have hne : La.start ≠ (s.buf i).blockno := fun he => Com.not_home_start La (he ▸ ho.home _ hmem)
  have hhead' : (com (transfer La s i) g').head La = [] := by
    rw [transfer_dirty hd]
    show header (Function.update s.disk _ _ La.start) = []
    rw [Function.update_of_ne hne]
    exact hhead
  have hup' : (transfer La s i).up = true := by rw [transfer_dirty hd]; exact hup
  have hmem' : (s.buf i).blockno ∈ (transfer La s i).lh := by rw [transfer_dirty hd]; exact hmem
  obtain ⟨j, hc, hdirty⟩ := hi'.pins hup' _ (by rw [Com.pend_of_head hhead']; exact hmem')
  have hci : ((transfer La s i).buf i).caches (s.buf i).blockno :=
    ⟨hi'.dev (by rw [hself]; rfl), by rw [hself]; rfl⟩
  rw [hi'.cache.uniq hc hci, hself] at hdirty
  cases hdirty

/-- A logged block keeps its pinned buffer. -/
theorem Tie.act_logged (h : Tie La d₀ o s g) (hi : Inv La d₀ s g) (hi' : Inv La d₀ s' g')
    (hm : Move La p s a s') (b : Nat) (hb : (o.act La p a s).logged b = true) :
    ∃ i, (s'.buf i).caches b ∧ (s'.buf i).dirty = true := by
  have hkeep : ∀ {j x}, (∀ b, (s.buf j).caches b → x.caches b) →
      ((s.buf j).dirty = true → x.dirty = true) → o.logged b = true →
      ∃ i, ((s.setBuf j x).buf i).caches b ∧ ((s.setBuf j x).buf i).dirty = true := by
    intro j x hid hdirty hlog
    obtain ⟨i, hc, hd⟩ := h.logged b hlog
    refine ⟨i, ?_⟩
    by_cases hij : i = j
    · subst hij
      rw [State.setBuf_self]
      exact ⟨hid b hc, hdirty hd⟩
    · rw [s.setBuf_of_ne hij]
      exact ⟨hc, hd⟩
  cases hm with
  | found hbget =>
    obtain ⟨i, hc, hd⟩ := h.logged b hb
    rcases bget_cases hi.cache hbget with ⟨-, rfl⟩ | ⟨-, hun, rfl⟩
    · exact hkeep (fun _ => id) id hb
    -- `bget` recycles a clean buffer, so it is not the pinned one.
    · have hne : i ≠ _ := fun he => absurd (hun.2.symm.trans (he ▸ hd)) (by simp)
      refine ⟨i, ?_⟩
      simp only [State.buf, Bcache.setBuf_of_ne _ hne]
      exact ⟨hc, hd⟩
  | put =>
    obtain ⟨i, hc, hd⟩ := h.logged b hb
    rename_i j
    have hbuf : ∀ k, (Bio.put s.cache j).buf k = ((s.setBuf j (s.buf j).dropRef).buf k) := by
      intro k
      rw [put_buf]
      rfl
    simp only [State.buf, hbuf]
    exact hkeep (fun _ => id) id hb
  | transfer =>
    rename_i j
    -- A dirty buffer is written, after which its block no longer counts as logged; a clean one is read.
    cases hd : (s.buf j).dirty with
    | true =>
      simp only [Watch.act, Watch.install, hd, not_waits hi hi' hd, Bool.not_false, Bool.and_true, if_true,
        Watch.finish] at hb
      have hbj : b ≠ (s.buf j).blockno := by
        rintro rfl
        simp at hb
      have hold : o.logged b = true := by
        rw [Function.update_of_ne hbj] at hb
        simpa [Watch.note, written, hd] using hb
      obtain ⟨i, hc, hdi⟩ := h.logged b hold
      have hij : i ≠ j := by
        rintro rfl
        exact hbj hc.2.symm
      exact ⟨i, by rw [transfer_of_ne hij]; exact ⟨hc, hdi⟩⟩
    | false =>
      have hold : o.logged b = true := by
        simpa [Watch.act, Watch.note, Watch.install, Watch.finish, written, hd] using hb
      obtain ⟨i, hc, hdi⟩ := h.logged b hold
      have hij : i ≠ j := fun he => absurd (hd.symm.trans (he ▸ hdi)) (by simp)
      exact ⟨i, by rw [transfer_of_ne hij]; exact ⟨hc, hdi⟩⟩
  | append =>
    rename_i j
    have hself : (Log.append p s j).buf j = { s.buf j with dirty := true } := Bcache.setBuf_self ..
    by_cases hbj : b = (s.buf j).blockno
    · have hdev := hi'.dev (hi'.dirtyValid (i := j) (by rw [hself]))
      refine ⟨j, ?_⟩
      rw [hself] at hdev ⊢
      exact ⟨⟨hdev, hbj.symm⟩, rfl⟩
    · refine hkeep (x := { s.buf j with dirty := true }) (fun _ => id) (fun _ => rfl) ?_
      simpa [Watch.act, Function.update_of_ne hbj] using hb
  | still hc _ _ _ _ _ ho =>
    rw [ho] at hb
    simp only [State.buf, hc]
    exact h.logged b hb
  | flags =>
    rename_i i
    refine h.logged b ?_
    cases hv : (s.buf i).valid <;> simpa [Watch.act, Watch.finish, hv] using hb
  | mark => exact hkeep (fun _ => id) (fun _ => rfl) hb
  | lock => exact hkeep (fun _ => id) id hb
  | unlock => exact hkeep (fun _ => id) id hb
  | fill => exact hkeep (fun _ => id) id hb
  | _ => exact h.logged b hb

/-- The process's own way through `bread`. -/
theorem Tie.act_reading_self (h : Tie La d₀ o s g) (hi : Inv La d₀ s g) (hi' : Inv La d₀ s' g')
    (hrest : ∀ q, q ≠ p → Rely q s g s' g') (hm : Move La p s a s') {x : Reading}
    (hx : (o.act La p a s).reading p = some x) : x.Ok La d₀ p s' g' := by
  have hown := ref_own hi hi' hrest
  have hnone : Function.update o.reading p none p = none := Function.update_self ..
  -- an action that leaves the state alone leaves the process's references alone
  have hsame : s' = s → o.reading p = some x → x.Ok La d₀ p s' g' := by
    rintro rfl hx
    have hok := h.reading p x hx
    have hpos := hown x.buf
    exact ⟨by have := hok.ref; omega, hok.caches, hok.holder, hok.data⟩
  cases hm with
  | found hb =>
    rename_i b i c
    have hx' : Function.update o.reading p ((Bio.bget s.cache b).map fun r => ⟨b, r.1, false⟩) p =
        some x := hx
    rw [hb, Function.update_self] at hx'
    obtain rfl : (⟨b, i, false⟩ : Reading) = x := Option.some.inj hx'
    have hpos := hown i
    rcases bget_cases hi.cache hb with ⟨hc, rfl⟩ | ⟨-, hun, rfl⟩
    · simp only [State.buf, Bcache.setBuf_self, Buf.getRef] at hpos
      refine ⟨by dsimp only; omega, ?_, by simp, by simp⟩
      simp only [State.buf, Bcache.setBuf_self]
      exact hc
    · have hzero : (s.cache.buf i).refcnt = 0 := hun.1
      simp only [State.buf, Bcache.setBuf_self, Buf.recycle, hzero] at hpos
      refine ⟨by dsimp only; omega, ?_, by simp, by simp⟩
      simp only [State.buf, Bcache.setBuf_self]
      exact ⟨rfl, rfl⟩
  | full hb =>
    have hx' : Function.update o.reading p ((Bio.bget s.cache _).map fun r => ⟨_, r.1, false⟩) p =
        some x := hx
    rw [hb, Function.update_self] at hx'
    cases hx'
  | lock hfree =>
    rename_i i
    simp only [Watch.act, Function.update_self] at hx
    obtain ⟨y, hy, hyx⟩ := Option.bind_eq_some_iff.mp hx
    split at hyx
    · rename_i hyi
      obtain rfl := Option.some.inj hyx
      subst hyi
      have hok := h.reading p y hy
      have hpos := hown y.buf
      have hmod : g.mod y.buf = false := by
        by_contra hmod
        exact hi.modHeld (Bool.eq_true_of_not_eq_false hmod) hfree
      rw [State.setBuf_self] at hpos
      refine ⟨?_, ?_, fun _ => ?_, fun _ hv => ?_⟩
      · have := hok.ref
        dsimp only at hpos ⊢
        omega
      · rw [State.setBuf_self]
        exact hok.caches
      · rw [State.setBuf_self]
      · rw [State.setBuf_self] at hv ⊢
        exact hi.clean hv hok.caches hmod
    · cases hyx
  | flags =>
    rename_i i
    cases hv : (s.buf i).valid with
    | true =>
      simp only [Watch.act, hv, if_true, Watch.finish, hnone] at hx
      cases hx
    | false =>
      refine hsame rfl ?_
      simpa [Watch.act, hv] using hx
  | holding => exact hsame rfl hx
  | transfer =>
    simp only [Watch.act, Watch.finish, Function.update_self] at hx
    cases hx
  | still _ _ _ _ _ _ ho =>
    rw [ho] at hx
    exact absurd (hnone.symm.trans hx) (by simp)
  | _ => exact absurd (hnone.symm.trans hx) (by simp)

/-- What `bread` returns is what was last logged or written. -/
theorem Tie.act_returned (h : Tie La d₀ o s g) (hi : Inv La d₀ s g) (hi' : Inv La d₀ s' g')
    (hm : Move La p s a s') (r : Returned) (hr : r ∈ (o.act La p a s).returned) :
    r.buf.caches r.blockno ∧ r.buf.data = r.latest := by
  have hfinish : ∀ (o₁ : Watch) (i : Fin NBUF) (x : Buf), o₁.returned = o.returned →
      o₁.reading = o.reading →
      (∀ b, o.reading p = some ⟨b, i, true⟩ → x.caches b ∧ x.data = o₁.latest b) →
      r ∈ (o₁.finish p i x).returned → r.buf.caches r.blockno ∧ r.buf.data = r.latest := by
    intro o₁ i x hret hread hx hr
    simp only [Watch.finish, hread] at hr
    split at hr
    · rename_i b j hj
      split at hr
      · rename_i hji
        subst hji
        rcases List.mem_cons.mp hr with rfl | hr
        · exact hx b hj
        · exact h.returned r (hret ▸ hr)
      · exact h.returned r (hret ▸ hr)
    · exact h.returned r (hret ▸ hr)
  cases hm with
  | flags =>
    rename_i i
    cases hv : (s.buf i).valid with
    | true =>
      simp only [Watch.act, hv, if_true] at hr
      refine hfinish o i (s.buf i) rfl rfl (fun b hb => ?_) hr
      have hok := h.reading p _ hb
      exact ⟨hok.caches, (hok.data rfl hv).trans (h.latest b).symm⟩
    | false =>
      simp only [Watch.act, hv, Bool.false_eq_true, if_false] at hr
      exact h.returned r hr
  | transfer =>
    rename_i i
    have hself : (Log.transfer La s i).buf i = transferred s i := transfer_self i
    refine hfinish _ i ((Log.transfer La s i).buf i) ?_ ?_ (fun b hb => ?_) hr
    · cases hd : (s.buf i).dirty <;> simp [Watch.note, Watch.install, written, hd]
    · cases hd : (s.buf i).dirty <;> simp [Watch.note, Watch.install, written, hd]
    · have hok := h.reading p _ hb
      have hc : (s.buf i).caches b := hok.caches
      rw [hself]
      refine ⟨hc, ?_⟩
      cases hd : (s.buf i).dirty with
      | true => simp [transferred, Watch.note, Watch.install, written, hd, ← hc.2]
      | false =>
        have hlook := hi.look_eq_disk hc hd
        simp [transferred, Watch.note, Watch.install, written, hd, h.latest b, hlook, hc.2]
  | still _ _ _ _ _ _ ho =>
    rw [ho] at hr
    exact h.returned r hr
  | _ => exact h.returned r hr

theorem Tie.act (h : Tie La d₀ o s g) (hi : Inv La d₀ s g) (hi' : Inv La d₀ s' g')
    (hrest : ∀ q, q ≠ p → Rely q s g s' g') (hm : Move La p s a s') :
    Tie La d₀ (o.act La p a s) s' g' where
  links := h.act_links hi hm
  latest b := by
    rw [Watch.act_latest, hm.look hi hi']
    cases hw : written a s with
    | none => exact h.latest b
    | some i =>
      have hall : o.latest = (com s g).look La d₀ := funext h.latest
      simp only [hall]
  logged := h.act_logged hi hi' hm
  reading q x hx := by
    by_cases hq : q = p
    · subst hq
      exact h.act_reading_self hi hi' hrest hm hx
    · rw [Watch.act_reading_of_ne hq] at hx
      exact (h.reading q x hx).rely (hrest q hq) hi hi' hm
  returned := h.act_returned hi hi' hm

end Step

theorem rep_binit : Dll.Rep binitLinks binit.list := by
  have hfold : ∀ (xs ys : List (Fin NBUF)) (l : Dll.Links (Fin NBUF)), Dll.Rep l ys →
      (xs.reverse ++ ys).Nodup → Dll.Rep (xs.foldl Dll.Links.pushFront l) (xs.reverse ++ ys) := by
    intro xs
    induction xs with
    | nil => exact fun ys l h _ => h
    | cons x xs ih =>
      intro ys l h hn
      rw [List.reverse_cons, List.append_assoc] at hn ⊢
      exact ih (x :: ys) (l.pushFront x) (h.pushFront (List.nodup_append.mp hn).2.1) hn
  have hempty := hfold (List.finRange NBUF) [] .empty Dll.rep_empty ?_
  · rw [List.append_nil] at hempty
    exact hempty
  · rw [List.append_nil]
    exact List.nodup_reverse.mpr (List.nodup_finRange NBUF)

theorem tie_boot (o : Watch) (h : ∀ r ∈ o.returned, r.buf.caches r.blockno ∧ r.buf.data = r.latest) :
    Tie La d₀ { Watch.boot s.disk with returned := o.returned } s.reboot Ghost.boot where
  links := rep_binit
  latest b := by
    have hdown : (com s.reboot Ghost.boot).up = false := rfl
    exact (Com.look_of_down hdown).symm
  logged b hb := absurd hb (by simp [Watch.boot])
  reading p x hx := absurd hx (by simp [Watch.boot])
  returned := h

/-- A machine that is switched on with a disk whose log is empty. -/
def WatchInit (La : Area) (disk : Nat → Block) (c : World × Watch) : Prop :=
  Init La disk c.1 ∧ c.2 = Watch.boot disk

theorem tie_of_reach {c : World × Watch} (h : Reach (watchStep La) (WatchInit La disk) (fun c => Fits La c.1) c) :
    GoodWith (logic La disk False) Idle (Tie La disk c.2) c.1 := by
  have hfits : Reach ((system La).watched (watch La)) (WatchInit La disk)
      (fun c e => Acts (logic La disk False).ok c.1 e) c :=
    h.mono fun _ _ => Acts.mono fun _ _ _ _ hr => ⟨hr, False.elim⟩
  refine GoodWith.of_reach rfl (fun p => at_stable _ _ _)
    (fun p j s g hi hj hP => body_spec j hj hi hP) ?_ ?_ ?_ hfits
  · intro p β a s g r s' g' o hi hs hi' hrest hT
    exact hT.act hi hi' hrest (Move.of_sem hs)
  · rintro e w w' o ⟨g, hi, -, hT⟩ he
    obtain rfl := Option.some.inj he
    obtain ⟨hi', hsafe⟩ := crash_safe (V := False) hi.durable hi.hist
    exact ⟨Ghost.boot, hi', hsafe, tie_boot o hT.returned⟩
  · rintro ⟨w, o⟩ ⟨⟨hempty, rfl⟩, rfl⟩
    obtain ⟨hi, hsafe⟩ := powerOn_safe (V := False) hempty
    exact ⟨Ghost.boot, hi, hsafe, tie_boot (s := diskState disk) (Watch.boot disk) (by simp [Watch.boot])⟩

/-- What it means that the buffer cache is transparent. -/
structure Transparent (La : Area) (c : World × Watch) : Prop where
  /-- No block has two buffers. -/
  uniq : ∀ i j b, (c.1.st.buf i).caches b → (c.1.st.buf j).caches b → i = j
  /-- Every buffer is on the list once. -/
  nodup : c.1.st.cache.list.Nodup
  all : ∀ i, i ∈ c.1.st.cache.list
  /-- The pointers lead through the list and end at the head, in both directions. -/
  forward : ∀ fuel, NBUF ≤ fuel → c.2.links.forward fuel = c.1.st.cache.list
  backward : ∀ fuel, NBUF ≤ fuel → c.2.links.backward fuel = c.1.st.cache.list.reverse
  /-- A block that is logged and not installed keeps its buffer, whatever a process does next. -/
  kept : ∀ b, c.2.logged b = true → ∃ i, (c.1.st.buf i).caches b ∧
    ∀ q w', step La c.1 (.run q) = some w' → (w'.st.buf i).caches b
  /-- `bread` has always returned the block's buffer with what was last logged or written. -/
  returned : ∀ r ∈ c.2.returned, r.buf.caches r.blockno ∧ r.buf.data = r.latest

/-- A buffer that is marked dirty keeps its block. -/
theorem Move.caches_of_dirty {β : Type} {a : Act β} (h : Move La p s a s') (hwf : Bio.Wf s.cache)
    {i : Fin NBUF} {b : Nat} (hc : (s.buf i).caches b) (hd : (s.buf i).dirty = true) :
    (s'.buf i).caches b := by
  have hset : ∀ {j x}, (∀ b, (s.buf j).caches b → x.caches b) →
      ((s.setBuf j x).buf i).caches b := by
    intro j x hid
    by_cases hij : i = j
    · subst hij
      rw [State.setBuf_self]
      exact hid b hc
    · rw [s.setBuf_of_ne hij]
      exact hc
  cases h with
  | found hb =>
    rcases bget_cases hwf hb with ⟨-, rfl⟩ | ⟨-, hun, rfl⟩
    · exact hset fun _ => id
    · have hne : i ≠ _ := fun he => absurd (hun.2.symm.trans (he ▸ hd)) (by simp)
      simp only [State.buf, Bcache.setBuf_of_ne _ hne]
      exact hc
  | put =>
    simp only [State.buf, put_buf]
    exact hset fun _ => id
  | transfer =>
    simp only [State.buf, transfer_cache]
    exact hset (x := transferred s _) fun _ => id
  | append => exact hset (x := { s.buf _ with dirty := true }) fun _ => id
  | lock => exact hset fun _ => id
  | unlock => exact hset fun _ => id
  | mark => exact hset fun _ => id
  | fill => exact hset fun _ => id
  | still hcache _ _ _ _ _ _ =>
    simp only [State.buf, hcache]
    exact hc
  | _ => exact hc

/-- Whatever the processes do and wherever the machine crashes, while the logged blocks fit into the log area. -/
theorem bcache_transparent {c : World × Watch}
    (h : Reach (watchStep La) (WatchInit La disk) (fun c => Fits La c.1) c) : Transparent La c := by
  obtain ⟨g, hi, -, hT⟩ := tie_of_reach h
  have hcache : Bio.Wf c.1.st.cache := hi.cache
  have hlength : c.1.st.cache.list.length ≤ NBUF := by
    have hcard := List.Nodup.length_le_card hcache.nodup
    rwa [Fintype.card_fin] at hcard
  refine ⟨fun i j b => hcache.uniq, hcache.nodup, hcache.all,
    fun fuel hf => hT.links.forward_eq (hlength.trans hf),
    fun fuel hf => hT.links.backward_eq (hlength.trans hf), fun b hb => ?_, hT.returned⟩
  obtain ⟨i, hc, hd⟩ := hT.logged b hb
  refine ⟨i, hc, fun q w' hs => ?_⟩
  obtain ⟨β, a, r, hsem⟩ := runStep_sem hs
  exact (Move.of_sem hsem).caches_of_dirty hcache hc hd

/-- One process logs a block of its operation, and another one reads the block before the
operation ends. -/
def readBeforeCommit : List Event :=
  acts boot 28 ++ [.start 1 (fill [100, 101] 7)] ++ acts 1 16 ++ [.start 2 (.read 100)] ++ acts 2 3

theorem bcache_transparent_readBeforeCommit : ∃ c : World × Watch,
    exec (watchStep mkfsLog) (powerOn mkfsLog blank, Watch.boot blank) readBeforeCommit = some c ∧
      Transparent mkfsLog c ∧ c.2.logged 100 = true ∧ c.1.st.disk 100 0 = 0 ∧
      ∃ r ∈ c.2.returned, r.blockno = 100 ∧ r.buf.data 0 = 7 := by
  have hrun : (exec (watchStep mkfsLog) (powerOn mkfsLog blank, Watch.boot blank)
      readBeforeCommit).any (fun c => c.2.logged 100 && c.1.st.disk 100 0 == 0 &&
        c.2.returned.any fun r => r.blockno == 100 && r.buf.data 0 == 7) = true := by
    decide +kernel
  obtain ⟨c, hc, hp⟩ := (Option.any_eq_true _ _).mp hrun
  simp only [Bool.and_eq_true, beq_iff_eq, List.any_eq_true] at hp
  have hreach : Reach (watchStep mkfsLog) (WatchInit mkfsLog blank) (fun c => Fits mkfsLog c.1) c :=
    ((Reach.start ⟨⟨rfl, rfl⟩, rfl⟩).exec readBeforeCommit (.any _ _) hc).mono fun c e _ =>
      fits_of_logsize (by decide) c.1 e
  exact ⟨c, hc, bcache_transparent hreach, hp.1.1, hp.1.2, hp.2⟩

end Chameleon.Log
