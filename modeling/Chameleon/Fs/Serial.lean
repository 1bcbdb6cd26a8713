import Chameleon.Lib.Section
import Chameleon.Fs.Shared

/-! Processes that write through one shared `struct file`, an atomic action at a time in any interleaving: while nobody
holds the inode, they are where turns of the loop of `filewrite` have brought them. -/

namespace Chameleon.Fs
open Conc Hoare
open Prog (lift All)

section Inner

variable {sb : Super} {p : Pid} {f : FileId} {e : Entry} {s : State}

/-- The lock of inode `e`, which `f` refers to. -/
def lockOf (sb : Super) (f : FileId) (e : Entry) : Lock State Pid Act where
  sem := sem sb
  holder s := (s.ino e).holder
  Inv s := (s.tab.file f).type = .inode e ∧ (s.tab.file f).writable = true ∧ 0 < (s.tab.icache e).ref

/-- The actions that leave the locks, the references and what the files refer to alone. -/
def Act.inner : {β : Type} → Act β → Bool
  | _, .iget _ => false
  | _, .idup _ => false
  | _, .decRef _ => false
  | _, .acquiresleep _ => false
  | _, .releasesleep _ => false
  | _, _ => true

theorem held_setIno {e' : Entry} {x : Inode} (hx : x.holder = (s.ino e').holder) (h : (s.ino e).holder = some p) :
    ((s.setIno e' x).ino e).holder = some p := by
  by_cases he : e = e'
  · subst he
    rw [setIno_ino, hx, h]
  · simpa [State.setIno, Function.update_of_ne he] using h

theorem inner_keeps {β : Type} {a : Act β} (ha : a.inner = true) : (lockOf sb f e).Keeps p a := by
  intro s r t hinv hheld hsem
  change sem sb p a s = some (r, t) at hsem
  cases a with
  | iget _ | idup _ | decRef _ | acquiresleep _ | releasesleep _ => cases ha
  | ifill _ | setInvalid _ | store _ _ =>
    cases hsem
    exact ⟨⟨_, rfl⟩, hinv, held_setIno (by rfl) hheld⟩
  | setOff f' off =>
    cases hsem
    refine ⟨⟨_, rfl⟩, ?_, hheld⟩
    by_cases hf : f = f'
    · subst hf
      simpa [lockOf, State.setFile] using hinv
    · simpa [lockOf, State.setFile, Function.update_of_ne hf] using hinv
  | ballocIn _ | bfree _ =>
    simp only [sem] at hsem
    split at hsem
    all_goals
      cases hsem
      exact ⟨⟨_, rfl⟩, hinv, hheld⟩
  | _ =>
    cases hsem
    exact ⟨⟨_, rfl⟩, hinv, hheld⟩

/-- The lock is kept throughout `x`. -/
def Inner (sb : Super) (f : FileId) (e : Entry) (p : Pid) {α : Type} (x : M α) : Prop :=
  x.All ((lockOf sb f e).Keeps p) fun _ => True

theorem inner_lift {α : Type} {a : Act α} (h : a.inner = true) : Inner sb f e p (lift a) := All.lift (inner_keeps h)

theorem inner_balloc (js : List Nat) : Inner sb f e p (ballocFrom js) := by
  induction js with
  | nil => trivial
  | cons j js ih =>
    apply All.bind (inner_lift rfl)
    intro found
    cases found with
    | none => exact ih
    | some b => exact All.bind (inner_lift rfl) fun _ => trivial

theorem inner_bmap (bn : Nat) : Inner sb f e p (bmap sb e bn) := by
  have haddr (k : Fin (NDIRECT + 1)) : Inner sb f e p (bmapAddr sb e k) := by
    apply All.bind (inner_lift rfl)
    intro d
    split
    · exact All.bind (inner_balloc _) fun _ => All.bind (inner_lift rfl) fun _ => trivial
    · trivial
  unfold bmap
  split
  · exact haddr _
  split
  · apply All.bind (haddr _)
    intro b
    apply All.bind (inner_lift rfl)
    intro a
    split
    · exact All.bind (inner_balloc _) fun _ => All.bind (inner_lift rfl) fun _ => trivial
    · trivial
  · trivial

theorem inner_writeLoop (fuel off : Nat) (src : List UInt8) : Inner sb f e p (writeLoop sb e fuel off src) := by
  induction fuel generalizing off src with
  | zero => trivial
  | succ fuel ih =>
    unfold writeLoop
    split
    · trivial
    · exact All.bind (inner_bmap _) fun b => All.bind (inner_lift rfl) fun _ => ih _ _

theorem inner_growTo (n off : Nat) : Inner sb f e p (growTo e n off) := by
  apply All.bind (inner_lift rfl)
  intro d
  split
  · exact All.bind (inner_lift rfl) fun _ => inner_lift rfl
  · trivial

end Inner

section Turn

variable {sb : Super} {p : Pid} {f : FileId} {e : Entry} {s t : State} {src : List UInt8} {file : Nat → Nat → UInt8}

/-- A turn of the loop of `filewrite` from `acquiresleep` on. -/
def underLock (sb : Super) (f : FileId) (e : Entry) (src : List UInt8) : M (Option Nat) := do
  fill e
  let x ← lift (.file f)
  let r ← writei sb e src x.off
  match r with
  | some m => do
    lift (.setOff f ((x.off + m) % 2 ^ 32))
    iunlock e
    pure r
  | none => do
    iunlock e
    pure r

theorem filewriteOnce_eq : filewriteOnce sb f e src = .act (.ref e) fun r =>
    if r < 1 then .panic "ilock" else .act (.acquiresleep e) fun _ => underLock sb f e src := by
  change Prog.act _ _ = _
  congr 1
  funext r
  change (if r < 1 then Prog.panic "ilock" else _) >>= _ = _
  split
  · rfl
  · rfl

theorem run_filewriteOnce (h : Lockable s e) : (solo (sem sb) p (filewriteOnce sb f e src)).run s =
    (solo (sem sb) p (underLock sb f e src)).run (taken s p e) := by
  rw [filewriteOnce_eq, solo, run_bind_of_ok (run_once rfl), if_neg (Nat.not_lt.mpr h.ref), solo,
    run_bind_of_ok (run_acquiresleep h.unlocked)]

theorem inner_fill : Inner sb f e p (fill e) := by
  apply All.bind (inner_lift rfl)
  intro valid
  split
  · trivial
  · apply All.bind (inner_lift rfl)
    intro d
    split
    · trivial
    · trivial

/-- `iunlock` gives the lock back with its last action. -/
theorem iunlock_section (r : Option Nat) (hinv : (lockOf sb f e).Inv s) (hheld : (s.ino e).holder = some p) :
    (lockOf sb f e).Section p (iunlock e >>= fun _ => pure r) s := by
  rw [iunlock, Prog.bind_assoc]
  apply Lock.Inside.lift rfl hinv hheld
  rw [Prog.bind_assoc]
  apply Lock.Inside.lift rfl hinv hheld
  have hcond : ¬(decide ((s.ino e).holder = some p) = false ∨ (s.tab.icache e).ref < 1) := by
    rintro (hfalse | hlt)
    · exact of_decide_eq_false hfalse hheld
    · exact absurd hinv.2.2 (Nat.not_lt.mpr (Nat.le_of_lt_succ hlt))
  rw [if_neg hcond]
  intro r' s' hsem
  cases hsem
  refine ⟨(), rfl, hinv, Or.inr ⟨?_, r, rfl⟩⟩
  simp [lockOf, setIno_ino]

/-- What a turn does under the lock is a section. -/
theorem underLock_section (h : Regular sb file f e s) : (lockOf sb f e).Section p (underLock sb f e src) (taken s p e) := by
  have hinv : (lockOf sb f e).Inv (taken s p e) := ⟨h.type, h.writable, h.ref⟩
  have hheld : ((taken s p e).ino e).holder = some p := by rw [taken_ino]
  -- `ilock` has taken the lock; up to `iunlock` every action keeps it.
  apply Lock.Inside.keeps inner_fill hinv hheld
  intro _ t hrun hinv hheld
  obtain rfl : locked s p e = t := congrArg Prod.snd (Except.ok.inj ((run_fill h.lockable).symm.trans hrun))
  apply Lock.Inside.lift rfl hinv hheld
  have htype : ¬((locked s p e).ino e).d.type = .dev := by
    rw [locked_ino, h.regular]
    exact nofun
  rw [writei, Prog.bind_assoc]
  apply Lock.Inside.lift rfl hinv hheld
  rw [if_neg htype]
  apply Lock.Inside.keeps _ hinv hheld
  · intro r t _ hinv hheld
    cases r with
    | none => exact iunlock_section none hinv hheld
    | some m =>
      apply Lock.Inside.keeps (inner_lift rfl) hinv hheld
      intro _ t _ hinv hheld
      exact iunlock_section (some m) hinv hheld
  · split
    · trivial
    split
    · trivial
    · exact All.bind (inner_writeLoop _ _ _) fun _ => All.bind (inner_growTo _ _) fun _ => trivial

end Turn

section Threads

variable {sb : Super} {p : Pid} {f : FileId} {e : Entry} {s t : State} {src : List UInt8} {calls : List (List UInt8)}
  {file : Nat → Nat → UInt8}

/-- The calls of a process, one after the other. -/
def writes (sb : Super) (f : FileId) : List (List UInt8) → M Unit
  | [] => pure ()
  | src :: calls => do
    let _ ← filewrite sb f src
    writes sb f calls

/-- Processes that take their actions in any interleaving. -/
def threads (sb : Super) : System State Pid Empty Empty Act where
  sem := sem sb
  may _ j := j.elim
  body _ j := j.elim
  env e := e.elim

/-- What follows a turn for which `writei` returned `r`. -/
def resume (sb : Super) (f : FileId) (e : Entry) (fuel : Nat) (src : List UInt8) (calls : List (List UInt8))
    (r : Option Nat) : M Unit :=
  (match r with
    | none => pure false
    | some m =>
      if m = (src.take filewriteMax).length then filewriteLoop sb f e fuel (src.drop filewriteMax)
      else .panic "short filewrite") >>= fun _ => writes sb f calls

/-- The calls that are left, without those that only have to return. -/
def unwritten (calls : List (List UInt8)) : List (List UInt8) := calls.dropWhile List.isEmpty

/-- Where a process can be that does not hold the lock. -/
inductive Stands (sb : Super) (f : FileId) (e : Entry) : M Unit → List (List UInt8) → Prop
  | call (calls : List (List UInt8)) : Stands sb f e (writes sb f calls) (unwritten calls)
  | turn {src : List UInt8} {calls : List (List UInt8)} {fuel : Nat} (hsrc : src ≠ []) (hfuel : src.length ≤ fuel + 1) :
    Stands sb f e (filewriteOnce sb f e (src.take filewriteMax) >>= resume sb f e fuel src calls) (src :: calls)
  | lock {src : List UInt8} {calls : List (List UInt8)} {fuel : Nat} (hsrc : src ≠ []) (hfuel : src.length ≤ fuel + 1) :
    Stands sb f e (.act (.acquiresleep e) fun _ =>
      underLock sb f e (src.take filewriteMax) >>= resume sb f e fuel src calls) (src :: calls)

theorem unwritten_of_ne (hsrc : src ≠ []) : unwritten (src :: calls) = src :: calls :=
  List.dropWhile_cons_of_neg (by simpa using hsrc)

theorem stands_loop {fuel : Nat} (hfuel : src.length ≤ fuel) :
    Stands sb f e (filewriteLoop sb f e fuel src >>= fun _ => writes sb f calls) (unwritten (src :: calls)) := by
  by_cases hsrc : src = []
  · subst hsrc
    have hdone : filewriteLoop sb f e fuel [] = pure true := by cases fuel <;> rfl
    rw [hdone]
    exact .call calls
  · obtain ⟨fuel, rfl⟩ : ∃ n, fuel = n + 1 :=
      Nat.exists_eq_succ_of_ne_zero (Nat.ne_of_gt (Nat.lt_of_lt_of_le (List.length_pos_of_ne_nil hsrc) hfuel))
    rw [filewriteLoop, if_neg hsrc, Prog.bind_assoc, unwritten_of_ne hsrc]
    exact .turn hsrc hfuel

/-- The calls that only have to return do so. -/
theorem settle {init : Writers → Prop} {w : Writers} (hw : Machine.Reach (turn sb f e) init Machine.Any w) (p : Pid) :
    ∃ w', Machine.Reach (turn sb f e) init Machine.Any w' ∧ w'.state = w.state ∧
      w'.left = Function.update w.left p (unwritten (w.left p)) := by
  -- By induction on the calls that are left, the first of which takes one turn to return if it has nothing to write.
  generalize hleft : w.left p = l
  induction l generalizing w with
  | nil => exact ⟨w, hw, rfl, by rw [unwritten, List.dropWhile_nil, ← hleft, Function.update_eq_self]⟩
  | cons src calls ih =>
    by_cases hsrc : src = []
    · subst hsrc
      have hturn : turn sb f e w p = some { w with left := Function.update w.left p calls } := by
        unfold turn
        simp only [hleft, if_true]
      obtain ⟨w', hw', hst, hleft'⟩ := ih (hw.next trivial hturn) (Function.update_self ..)
      refine ⟨w', hw', hst, ?_⟩
      rw [hleft', Function.update_idem]
      rfl
    · exact ⟨w, hw, rfl, by rw [unwritten_of_ne hsrc, ← hleft, Function.update_eq_self]⟩

/-- The machine of `Shared` is in `w`. -/
structure Reached (sb : Super) (f : FileId) (e : Entry) (init : Writers → Prop) (w : Writers) : Prop where
  reach : Machine.Reach (turn sb f e) init Machine.Any w
  regular : ∃ file, Regular sb file f e w.state

/-- What process `p` still has to run. -/
def Rep (sb : Super) (f : FileId) (e : Entry) (p : Pid) (x : M Unit) (w : Writers) : Prop :=
  Stands sb f e x (unwritten (w.left p))

variable {init : Writers → Prop} {w : Writers}

/-- The section of a chunk is a turn, before which the calls that are done return. -/
theorem taken_turn {r : Option Nat} {fuel : Nat} (hw : Machine.Reach (turn sb f e) init Machine.Any w)
    (h : Regular sb file f e w.state) (hleft : unwritten (w.left p) = src :: calls) (hsrc : src ≠ [])
    (hfuel : src.length ≤ fuel + 1)
    (hrun : (solo (sem sb) p (filewriteOnce sb f e (src.take filewriteMax))).run w.state = .ok (r, t)) :
    Taken (Reached sb f e init) Writers.state (Rep sb f e) p w (resume sb f e fuel src calls r) t := by
  obtain ⟨w', hw', hst, hleft'⟩ := settle hw p
  rw [← hst] at hrun
  rw [hleft] at hleft'
  have hp : w'.left p = src :: calls := by rw [hleft', Function.update_self]
  have hresult := filewriteOnce_result (hst ▸ h) (List.length_take_le ..) hrun
  have hregular : ∃ file, Regular sb file f e t := hresult.elim (fun hr => ⟨_, hr.2.regular⟩) fun hr => ⟨_, hr.2.regular⟩
  have hr := hresult.imp And.left And.left
  refine ⟨w'.after p src calls t r, ⟨hw'.next trivial (turn_of_once hp hsrc hrun hr), hregular⟩, rfl, ?_, fun q hq z hz => ?_⟩
  · change Stands sb f e _ (unwritten (Function.update w'.left p _ p))
    rw [Function.update_self]
    rcases hr with rfl | rfl
    · exact .call calls
    · simp only [resume, if_true]
      exact stands_loop (length_drop_lt (by decide) hsrc hfuel)
  · change Stands sb f e z (unwritten (Function.update w'.left p _ q))
    rw [Function.update_of_ne hq, hleft', Function.update_of_ne hq]
    exact hz

theorem Stands.outside {x : M Unit} {l : List (List UInt8)} (hw : Reached sb f e init w) (hx : Stands sb f e x l)
    (hl : unwritten (w.left p) = l) : (lockOf sb f e).Outside p (Rep sb f e p · w) w.state
      (Taken (Reached sb f e init) Writers.state (Rep sb f e) p w) x := by
  cases hx with
  | call calls =>
    cases calls with
    | nil => trivial
    | cons src calls =>
      -- `filewrite` reads the file's type and mode, which no process changes.
      refine Or.inl fun s r s' hinv hsem => ?_
      cases hsem
      refine ⟨rfl, _, rfl, ?_⟩
      change Stands sb f e ((if (s.tab.file f).writable = false then _ else _) >>= _) (unwritten (w.left p))
      rw [if_neg (by rw [hinv.2.1]; decide), hinv.1, hl]
      change Stands sb f e ((filewriteLoop sb f e src.length src >>= _) >>= _) _
      rw [Prog.bind_assoc]
      exact stands_loop (Nat.le_refl _)
  | turn hsrc hfuel =>
    rw [filewriteOnce_eq]
    refine Or.inl fun s r s' hinv hsem => ?_
    cases hsem
    refine ⟨rfl, _, rfl, ?_⟩
    change Stands sb f e ((if (s.tab.icache e).ref < 1 then _ else _) >>= _) (unwritten (w.left p))
    rw [if_neg (Nat.not_lt.mpr hinv.2.2), hl]
    exact .lock hsrc hfuel
  | lock hsrc hfuel =>
    refine Or.inr fun s r s' hsem => ?_
    -- `acquiresleep` waits while another process is in its section.
    change (if (s.ino e).holder = none then _ else _) = _ at hsem
    split at hsem
    case isFalse => cases hsem
    case isTrue hfree =>
      cases hsem
      refine ⟨hfree, ?_⟩
      rintro rfl
      obtain ⟨file, h⟩ := hw.regular
      refine ⟨(), rfl, ⟨h.type, h.writable, h.ref⟩, ?_, (underLock_section h).bind fun r t hrun => ?_⟩
      · simp [lockOf, setIno_ino]
      · exact taken_turn hw.reach h hl hsrc hfuel ((run_filewriteOnce h.lockable).trans hrun)

theorem serial (sb : Super) (f : FileId) (e : Entry) (init : Writers → Prop) :
    Serial (lockOf sb f e) (Reached sb f e init) Writers.state (Rep sb f e) where
  free := by
    rintro w ⟨-, file, h⟩
    exact ⟨⟨h.type, h.writable, h.ref⟩, h.unlocked⟩
  next := fun _ _ _ hw hx => hx.outside hw rfl

theorem Stands.done {x : M Unit} {l : List (List UInt8)} (h : Stands sb f e x l) (hx : x = .ret ()) : l = [] := by
  cases h with
  | call calls =>
    cases calls with
    | nil => rfl
    | cons src calls =>
      change Prog.act _ _ = _ at hx
      cases hx
  | turn hsrc hfuel =>
    rw [filewriteOnce_eq] at hx
    change Prog.act _ _ = _ at hx
    cases hx
  | lock hsrc hfuel => cases hx

theorem chunksOf_unwritten (calls : List (List UInt8)) : (unwritten calls).flatMap chunksOf = calls.flatMap chunksOf := by
  induction calls with
  | nil => rfl
  | cons src calls ih =>
    by_cases hsrc : src = []
    · subst hsrc
      exact ih
    · rw [unwritten_of_ne hsrc]

/-- While nobody holds the inode, the processes are where turns have brought them; one that has ended has no chunk left. -/
theorem turns_of_threads {calls : Pid → List (List UInt8)} {c : Pool State Pid Act} (h : Regular sb file f e s)
    (hc : Machine.Reach (threads sb).step (· = ⟨s, fun p => writes sb f (calls p)⟩) Machine.Any c)
    (hfree : (c.st.ino e).holder = none) :
    ∃ w, Machine.Reach (turn sb f e) (· = .start s calls) Machine.Any w ∧ w.state = c.st ∧
      ∀ p, c.thr p = .ret () → (w.left p).flatMap chunksOf = [] := by
  have hinit : ∀ c, c = (⟨s, fun p => writes sb f (calls p)⟩ : Pool State Pid Act) →
      Between (Reached sb f e (· = .start s calls)) Writers.state (Rep sb f e) c := by
    rintro _ rfl
    exact ⟨.start s calls, ⟨.start rfl, file, h⟩, rfl, fun p => .call (calls p)⟩
  obtain ⟨w, hw, hst, hrep⟩ := (serial sb f e _).between rfl hinit hc hfree
  refine ⟨w, hw.reach, hst, fun p hp => ?_⟩
  rw [← chunksOf_unwritten, (hrep p).done hp]
  rfl

/-- Between the sections, the processes are where turns have brought them. In every interleaving of turns, as long as no
call has returned -1, the file holds its old contents followed by all chunks written, those of one process in the order of
its calls, and the shared offset is its size. -/
theorem shared_writes_kept {calls : Pid → List (List UInt8)} (h : Regular sb file f e s)
    (hoff : (s.tab.file f).off = (dinodeOf s e).size) :
    (∀ c, Machine.Reach (threads sb).step (· = ⟨s, fun p => writes sb f (calls p)⟩) Machine.Any c →
      (c.st.ino e).holder = none → ∃ w, Machine.Reach (turn sb f e) (· = .start s calls) Machine.Any w ∧ w.state = c.st ∧
        ∀ p, c.thr p = .ret () → (w.left p).flatMap chunksOf = []) ∧
    ∀ w, Machine.Reach (turn sb f e) (· = .start s calls) Machine.Any w → w.failed = false →
      Bytes.slice (bytesOf w.state e) 0 (dinodeOf w.state e).size =
          Bytes.slice (bytesOf s e) 0 (dinodeOf s e).size ++ w.chunks.flatMap Prod.snd ∧
        (∀ p, chunksBy w.chunks p ++ (w.left p).flatMap chunksOf = (calls p).flatMap chunksOf) ∧
        (w.state.tab.file f).off = (dinodeOf w.state e).size ∧
        (dinodeOf w.state e).size = (dinodeOf s e).size + (w.chunks.map fun c => c.2.length).sum := by
  refine ⟨fun c hc hfree => turns_of_threads h hc hfree, fun w hw hok => ?_⟩
  obtain ⟨hadv, hordered⟩ := kept_of_reach h hw hok
  have hlen : (w.chunks.flatMap Prod.snd).length = (w.chunks.map fun c => c.2.length).sum := List.length_flatMap
  have hsize : (dinodeOf w.state e).size = (dinodeOf s e).size + (w.chunks.flatMap Prod.snd).length := by
    rw [(hadv.stored h).2.1, hoff]
    exact Nat.max_eq_right (Nat.le_add_right ..)
  refine ⟨?_, hordered, ?_, ?_⟩
  · have hold : Bytes.slice (Bytes.store (bytesOf s e) (dinodeOf s e).size (w.chunks.flatMap Prod.snd)) 0
        (dinodeOf s e).size = Bytes.slice (bytesOf s e) 0 (dinodeOf s e).size :=
      Bytes.slice_store_of_disjoint _ (by omega)
    rw [hsize, Bytes.slice_add, hadv.bytesOf_eq h, hoff, hold, Nat.zero_add, Bytes.slice_store]
  · rw [hadv.off, hsize, hoff]
  · rw [hsize, hlen]

/-- Processes 0 and 1 write one chunk each. -/
def twoCalls (p : Pid) : List (List UInt8) := if p = 0 then [[1, 2]] else if p = 1 then [[3]] else []

theorem shared_writes_kept_opened : ∃ w, Machine.Reach (turn smallSuper 0 0) (· = .start opened twoCalls) Machine.Any w ∧
    w.failed = false ∧ w.chunks = [(0, [1, 2]), (1, [3])] ∧
    Bytes.slice (bytesOf w.state 0) 0 (dinodeOf w.state 0).size = [1, 2, 3] := by
  have hleft : (Writers.start opened twoCalls).left 0 = [1, 2] :: [] := rfl
  obtain ⟨t, hturn, ht⟩ := turn_wrote (p := 0) opened_regular hleft (by decide) (by decide) (opened_enough _)
  have hstart : Machine.Reach (turn smallSuper 0 0) (· = .start opened twoCalls) Machine.Any (.start opened twoCalls) :=
    .start rfl
  have hreach := hstart.next (e := 0) trivial hturn
  have hroom : Enough smallSuper 0 0 [(3 : UInt8)].length t := ht.enough (opened_enough _) (by decide)
  have hend : (t.tab.file 0).off + [(3 : UInt8)].length ≤ MAXFILE * BSIZE := by
    rw [ht.off]
    decide
  have hleft' : Function.update twoCalls 0 [[]] 1 = [3] :: [] := rfl
  obtain ⟨u, hturn', hu⟩ := turn_wrote (w := ⟨t, Function.update twoCalls 0 [[]], [(0, [1, 2])], false⟩) (p := 1) ht.regular
    hleft' (by decide) hend hroom
  have hreach' := hreach.next (e := 1) trivial hturn'
  have hsize : (dinodeOf opened 0).size = 0 := rfl
  obtain ⟨hslice, -⟩ := (shared_writes_kept opened_regular rfl).2 _ hreach' rfl
  rw [hsize] at hslice
  exact ⟨_, hreach', rfl, rfl, hslice⟩

end Threads

end Chameleon.Fs
