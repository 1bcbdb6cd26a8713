import Chameleon.Fs.MkfsAppend

/-! A whole run of `mkfs`, for inputs whose inodes fit the inode blocks. -/

namespace Chameleon.Mkfs
open Fs Hoare

section Inodes

variable {s t : State} {i i' : Nat} {d : Dino} {kind : Nat → Nat} {bytes : Nat → List UInt8}

/-- After `winode`. -/
def put (i : Nat) (d : Dino) (s : State) : State :=
  wrote .inode (IBLOCK i) (Bytes.store (s.sect (IBLOCK i)) (64 * (i % IPB)) d.bytes) s

theorem IBLOCK_within (h : i < ninodeblocks * IPB) : inodestart ≤ IBLOCK i ∧ IBLOCK i < bmapstart := by
  have hlt : i / IPB < ninodeblocks := Nat.div_lt_of_lt_mul (Nat.mul_comm .. ▸ h)
  refine ⟨Nat.le_add_left .., ?_⟩
  rw [IBLOCK, Nat.add_comm]
  exact Nat.add_lt_add_left hlt inodestart

theorem run_winode (hs : Tidy s) (h : i < ninodeblocks * IPB) : (winode i d).run s = .ok ((), put i d s) := by
  have hlt : IBLOCK i < s.len := by
    rw [hs.len]
    exact Nat.lt_trans (IBLOCK_within h).2 (by decide)
  unfold winode
  rw [run_bind_of_ok (run_rsect hlt)]
  rfl

theorem run_rinode (hs : Tidy s) (h : i < ninodeblocks * IPB) : (rinode i).run s = .ok (onDisk s i, s) := by
  have hlt : IBLOCK i < s.len := by
    rw [hs.len]
    exact Nat.lt_trans (IBLOCK_within h).2 (by decide)
  unfold rinode
  rw [run_bind_of_ok (run_rsect hlt)]
  rfl

theorem Tidy.put (hs : Tidy s) (h : i < ninodeblocks * IPB) (d : Dino) : Tidy (put i d s) :=
  hs.wrote _ (Nat.lt_trans (IBLOCK_within h).2 (by decide)) (IBLOCK_within h)

theorem onDisk_put_self (hd : d.Fits) : onDisk (put i d s) i = d := by
  change Dino.ofBlock (Function.update s.sect (IBLOCK i) _ (IBLOCK i)) (i % IPB) = d
  rw [Function.update_self, ofBlock_store_self _ _ hd]

theorem onDisk_put_of_ne (h : i' ≠ i) : onDisk (put i d s) i' = onDisk s i' := by
  change Dino.ofBlock (Function.update s.sect (IBLOCK i) _ (IBLOCK i')) (i' % IPB) = _
  by_cases hblock : IBLOCK i' = IBLOCK i
  · have hmod : i' % IPB ≠ i % IPB := by
      intro hmod
      have hdiv : i' / IPB = i / IPB := Nat.add_right_cancel hblock
      apply h
      rw [← Nat.div_add_mod i' IPB, ← Nat.div_add_mod i IPB, hdiv, hmod]
    rw [hblock, Function.update_self, ofBlock_store_of_ne _ _ hmod, onDisk, hblock]
  · rw [Function.update_of_ne hblock, onDisk]

theorem put_sect (h : i < ninodeblocks * IPB) {b : Nat} (hb : nmeta ≤ b) : (put i d s).sect b = s.sect b := by
  apply Function.update_of_ne
  have hlt := (IBLOCK_within h).2
  have hle : bmapstart ≤ nmeta := by decide
  omega

/-- Between the appends: the image holds the files `bytes`, of types `kind`. -/
structure Rest (s : State) (kind : Nat → Nat) (bytes : Nat → List UInt8) : Prop where
  tidy : Tidy s
  top : s.freeblock ≤ FSSIZE
  laid : Laid s.sect s.freeblock (inodes s) bytes
  filled : ∀ i, Filled (slots s.sect (inodes s) i) (blocks (bytes i).length)
  heads : ∀ i, 0 < i → i < s.freeinode → SameHead ⟨kind i, 0, 0, 1, (bytes i).length, fun _ => 0⟩ (onDisk s i)
  dead : ∀ i, s.freeinode ≤ i → bytes i = []
  small : ∀ i, (bytes i).length ≤ MAXFILE * BSIZE

theorem inodes_put (hi : 0 < i) (hlt : i < s.freeinode) (hd : d.Fits) :
    inodes (put i d s) = Function.update (inodes s) i d.toDinode := by
  funext i'
  have hlive : (put i d s).freeinode = s.freeinode := rfl
  by_cases h : i' = i
  · subst h
    rw [Function.update_self, inodes, hlive, if_pos ⟨hi, hlt⟩, onDisk_put_self hd]
  · rw [Function.update_of_ne h, inodes, inodes, hlive, onDisk_put_of_ne h]

theorem refs_of_addrs {data : Nat → Block} {e e' : Dinode} (h : e.addrs = e'.addrs) : refs data e = refs data e' := by
  funext sl
  cases sl with
  | addr k => exact congrFun h k
  | entry j => simp only [refs, h]

/-- The write of an inode leaves the slots of all files as they are. -/
theorem slots_put {dino : Nat → Dinode} {bytes : Nat → List UInt8} {top : Nat} (h : Laid s.sect top dino bytes)
    (hi : i < ninodeblocks * IPB) : slots (put i d s).sect dino = slots s.sect dino := by
  funext i'
  apply refs_congr
  intro hne
  exact put_sect hi (h.used i' (.addr indirect) hne).1

end Inodes

section Append

variable {s t : State} {i : Nat} {kind : Nat → Nat} {bytes : Nat → List UInt8} {p : List UInt8}

/-- There is room for `n` more bytes in a file of `len` bytes. -/
def Room (top len n : Nat) : Prop :=
  len + n ≤ MAXFILE * BSIZE ∧ top + cost (blocks (len + n)) ≤ FSSIZE + cost (blocks len)

/-- The image after an append of `n` bytes to file `i`. -/
structure Grown (s : State) (kind : Nat → Nat) (bytes : Nat → List UInt8) (i : Nat) (p : List UInt8) (t : State) : Prop where
  rest : Rest t kind (Function.update bytes i (bytes i ++ p))
  top : t.freeblock + cost (blocks (bytes i).length) = s.freeblock + cost (blocks ((bytes i).length + p.length))
  freeinode : t.freeinode = s.freeinode
  inums : t.inums = s.inums

theorem Rest.appending (h : Rest s kind bytes) (hi : 0 < i) (hlt : i < s.freeinode) :
    Appending s i (onDisk s i) bytes (fun i' => blocks (bytes i').length) s := by
  have hself : Function.update (inodes s) i (onDisk s i).toDinode = inodes s := by
    have hino : inodes s i = (onDisk s i).toDinode := if_pos ⟨hi, hlt⟩
    rw [← hino, Function.update_eq_self]
  refine ⟨.refl s, h.tidy, ?_, ?_⟩
  · rw [hself]
    exact h.laid
  · rw [hself]
    exact h.filled

/-- The inode with another size. -/
def Dino.resize (d : Dino) (n : Nat) : Dino := { d with size := n }

theorem Appended.dino_fits {s₀ : State} {d : Dino} {nb : Nat → Nat} {top : Nat} {r : Dino × Nat} (hd : d.Fits)
    (h : Appended s₀ i d bytes nb top p r t) (hsmall : (bytes i).length ≤ MAXFILE * BSIZE) :
    (r.1.resize r.2).Fits := by
  have hhead := h.head
  have hmax : MAXFILE * BSIZE < 2 ^ 32 := by decide
  rw [hhead]
  refine ⟨hd.type, hd.major, hd.minor, hd.nlink, ?_, ?_⟩
  · rw [h.off]
    exact Nat.lt_of_le_of_lt (h.small hsmall) hmax
  · intro k
    change r.1.addrs k < 2 ^ 32
    by_cases hz : r.1.addrs k = 0
    · rw [hz]
      decide
    · have hrange := h.appending.laid.used i (.addr k)
      rw [slots, Function.update_self] at hrange
      have hlt : r.1.addrs k < t.freeblock := (hrange hz).2
      exact Nat.lt_trans (Nat.lt_of_lt_of_le hlt h.fits) (by decide)

theorem inodes_congr (hs : Tidy s) (hlive : t.freeinode = s.freeinode)
    (h : ∀ i < ninodeblocks * IPB, onDisk t i = onDisk s i) : inodes t = inodes s := by
  funext i
  unfold inodes
  rw [hlive]
  split_ifs with hi
  · rw [h i (Nat.lt_of_lt_of_le hi.2 hs.inodes)]
  · rfl

theorem onDisk_of_frame (h : Frame s t) (hi : i < ninodeblocks * IPB) : onDisk t i = onDisk s i := by
  have hle : bmapstart ≤ nmeta := by decide
  rw [onDisk, h.sect _ (Nat.lt_of_lt_of_le (IBLOCK_within hi).2 hle), onDisk]

theorem inodes_of_frame (h : Frame s t) (hs : Tidy s) : inodes t = inodes s :=
  inodes_congr hs h.freeinode fun _ => onDisk_of_frame h

/-- The write of inode `i` makes the append visible in the image. -/
theorem Appending.slots_put {d d' : Dino} {nb : Nat → Nat} (h : Appending s i d bytes nb t) (hs : Tidy s) (hi : 0 < i)
    (hlt : i < s.freeinode) (hd : d'.Fits) (haddrs : d'.addrs = d.addrs) :
    slots (put i d' t).sect (inodes (put i d' t)) = slots t.sect (Function.update (inodes s) i d.toDinode) := by
  have hlt' : i < t.freeinode := h.frame.freeinode.symm ▸ hlt
  rw [← Mkfs.slots_put h.laid (Nat.lt_of_lt_of_le hlt hs.inodes), inodes_put hi hlt' hd, inodes_of_frame h.frame hs]
  funext i'
  by_cases heq : i' = i
  · rw [heq, slots, slots, Function.update_self, Function.update_self]
    exact refs_of_addrs haddrs
  · rw [slots, slots, Function.update_of_ne heq, Function.update_of_ne heq]

/-- The inode is written back at the end of `iappend`. -/
theorem Appended.grown {r : Dino × Nat} (h : Rest s kind bytes) (hi : 0 < i) (hlt : i < s.freeinode)
    (h' : Appended s i (onDisk s i) bytes (fun i' => blocks (bytes i').length) s.freeblock p r t) :
    Grown s kind bytes i p (put i (r.1.resize r.2) t) := by
  have happ := h'.appending
  have hfits := h'.dino_fits (fits_ofBlock _ _) (h.small i)
  have hmax : i < ninodeblocks * IPB := Nat.lt_of_lt_of_le hlt h.tidy.inodes
  have hslots := happ.slots_put h.tidy hi hlt hfits rfl
  have hlive : (put i (r.1.resize r.2) t).freeinode = s.freeinode := happ.frame.freeinode
  refine ⟨?_, h'.top, hlive, happ.frame.inums⟩
  constructor
  · exact happ.tidy.put hmax _
  · exact h'.fits
  · exact happ.laid.congr (fun b hb => put_sect hmax hb) hslots
  · rw [hslots]
    intro i'
    have hfilled := happ.filled i'
    by_cases heq : i' = i
    · subst heq
      rw [Function.update_self] at hfilled ⊢
      rwa [List.length_append]
    · rwa [Function.update_of_ne heq] at hfilled ⊢
  · intro i' hi' hlt'
    rw [hlive] at hlt'
    have hhead := h.heads i' hi' hlt'
    by_cases heq : i' = i
    · subst heq
      rw [onDisk_put_self hfits, Function.update_self]
      have hhead' := h'.head
      rw [SameHead, h'.off, List.length_append, Dino.resize, hhead', hhead]
    · rw [onDisk_put_of_ne heq, Function.update_of_ne heq,
        onDisk_of_frame happ.frame (Nat.lt_of_lt_of_le hlt' h.tidy.inodes)]
      exact hhead
  · intro i' hdead
    rw [hlive] at hdead
    rw [Function.update_of_ne (Nat.ne_of_gt (Nat.lt_of_lt_of_le hlt hdead))]
    exact h.dead i' hdead
  · intro i'
    by_cases heq : i' = i
    · subst heq
      rw [Function.update_self, List.length_append]
      exact h'.small (h.small i')
    · rw [Function.update_of_ne heq]
      exact h.small i'

theorem iappend_spec {fits : Prop} (h : Rest s kind bytes) (hi : 0 < i) (hlt : i < s.freeinode)
    (hfits : fits → Room s.freeblock (bytes i).length p.length) :
    Triple (fun _ => ¬fits) (fun t => t = s) (iappend i p) fun _ => Grown s kind bytes i p := by
  have hmax : i < ninodeblocks * IPB := Nat.lt_of_lt_of_le hlt h.tidy.inodes
  have hsize : (onDisk s i).size = (bytes i).length := by rw [h.heads i hi hlt]
  unfold iappend
  apply Triple.runs (run_rinode h.tidy hmax)
  rw [hsize]
  refine (appendLoop_spec p.length (Nat.le_refl _) (h.appending hi hlt) h.top rfl rfl hfits).bind fun r => ?_
  apply Triple.each
  rintro t ht u rfl
  rw [run_winode ht.appending.tidy hmax]
  exact Appended.grown h hi hlt ht

end Append

section Alloc

variable {s : State} {kind : Nat → Nat} {bytes : Nat → List UInt8}

/-- After `ialloc`. -/
structure Allocated (s : State) (kind : Nat → Nat) (bytes : Nat → List UInt8) (i : Nat) (t : State) : Prop where
  inum : i = s.freeinode
  rest : Rest t kind bytes
  top : t.freeblock = s.freeblock
  freeinode : t.freeinode = s.freeinode + 1
  inums : t.inums = s.inums ++ [s.freeinode]

def counted (s : State) : State := { s with freeinode := s.freeinode + 1, inums := s.inums ++ [s.freeinode] }

theorem refs_zero (data : Nat → Block) {e : Dinode} (h : e.addrs = fun _ => 0) : refs data e = fun _ => 0 := by
  funext sl
  cases sl with
  | addr k => exact congrFun h k
  | entry j => exact if_pos (congrFun h indirect)

theorem inodes_counted {i : Nat} (h : i ≠ s.freeinode) : inodes (counted s) i = inodes s i := by
  have hiff : 0 < i ∧ i < (counted s).freeinode ↔ 0 < i ∧ i < s.freeinode := by
    change 0 < i ∧ i < s.freeinode + 1 ↔ _
    omega
  unfold inodes
  simp only [hiff]
  rfl

theorem slots_alloc {d : Dino} (hd : d.Fits) (haddrs : d.addrs = fun _ => 0) (hpos : 0 < s.freeinode) (data : Nat → Block) :
    slots data (inodes (put s.freeinode d (counted s))) = slots data (inodes s) := by
  rw [inodes_put hpos (Nat.lt_succ_self _) hd]
  funext i
  by_cases heq : i = s.freeinode
  · subst heq
    have hdead : inodes s s.freeinode = .zero := if_neg fun h => absurd h.2 (Nat.lt_irrefl _)
    rw [slots, slots, Function.update_self, hdead, refs_zero data haddrs, refs_zero data rfl]
  · rw [slots, slots, Function.update_of_ne heq, inodes_counted heq]

/-- The inode that `ialloc` writes. -/
def Dino.fresh (type : Nat) : Dino := ⟨type, 0, 0, 1, 0, fun _ => 0⟩

theorem fits_fresh {type : Nat} (h : type < 2 ^ 16) : (Dino.fresh type).Fits where
  type := h
  major := Nat.two_pow_pos 16
  minor := Nat.two_pow_pos 16
  nlink := Nat.one_lt_two_pow (by decide)
  size := Nat.two_pow_pos 32
  addrs _ := Nat.two_pow_pos 32

theorem ialloc_spec {stop : String → Prop} {type : Nat} (h : Rest s kind bytes) (hpos : 0 < s.freeinode)
    (hmax : s.freeinode < ninodeblocks * IPB) (hkind : kind s.freeinode = type) (htype : type < 2 ^ 16) :
    Triple stop (fun t => t = s) (ialloc type) (Allocated s kind bytes) := by
  have hfits := fits_fresh htype
  have htidy : Tidy (counted s) := ⟨h.tidy.len, hmax, h.tidy.writes, h.tidy.stored⟩
  rintro t rfl
  have hrun : (ialloc type).run t = .ok (t.freeinode, put t.freeinode (.fresh type) (counted t)) := by
    unfold ialloc
    rw [run_get_bind, run_modify_bind]
    exact run_bind_of_ok (run_winode htidy hmax)
  rw [hrun]
  have hsect : ∀ b, nmeta ≤ b → (put t.freeinode (.fresh type) (counted t)).sect b = t.sect b :=
    fun b hb => put_sect hmax hb
  have hslots : slots (put t.freeinode (.fresh type) (counted t)).sect
      (inodes (put t.freeinode (.fresh type) (counted t))) = slots t.sect (inodes t) := by
    rw [slots_alloc hfits rfl hpos]
    exact slots_put h.laid hmax
  refine ⟨rfl, ?_, rfl, rfl, rfl⟩
  constructor
  · exact htidy.put hmax _
  · exact h.top
  · exact h.laid.congr hsect hslots
  · rw [hslots]
    exact h.filled
  · intro i hi hlt
    by_cases heq : i = t.freeinode
    · subst heq
      rw [onDisk_put_self hfits, hkind, h.dead _ (Nat.le_refl _)]
      rfl
    · rw [onDisk_put_of_ne heq]
      exact h.heads i hi (Nat.lt_of_le_of_ne (Nat.le_of_lt_succ hlt) heq)
  · intro i hi
    exact h.dead i (Nat.le_of_succ_le hi)
  · exact h.small

end Alloc

section Zero

theorem run_zeroSectors (l : List Nat) (s : State) : (zeroSectors l).run s = .ok ((), { s with
    sect := fun b => if b ∈ l then fun _ => 0 else s.sect b
    len := l.foldl (fun n i => max n (i + 1)) s.len
    writes := s.writes ++ l.map (Prod.mk Part.zero) }) := by
  induction l generalizing s with
  | nil =>
    simp only [List.not_mem_nil, if_false, List.foldl_nil, List.map_nil, List.append_nil]
    rfl
  | cons i l ih =>
    rw [zeroSectors, run_bind_of_ok (run_wsect ..), ih]
    have hsect : (fun b => if b ∈ l then (fun _ => 0 : Block) else Function.update s.sect i (fun _ => 0) b) =
        fun b => if b ∈ i :: l then fun _ => 0 else s.sect b := by
      funext b
      by_cases hb : b = i
      · simp [hb]
      · simp [hb]
    simp only [wrote, hsect, List.foldl_cons, List.map_cons, List.append_assoc, List.singleton_append]

theorem foldl_max_range (n m : Nat) : (List.range n).foldl (fun k i => max k (i + 1)) m = max m n := by
  induction n with
  | zero => simp
  | succ n ih =>
    rw [List.range_succ, List.foldl_append, ih, List.foldl_cons, List.foldl_nil]
    omega

end Zero

section Files

/-- The bytes of an input file. -/
def Input.bytes (f : Input) : List UInt8 := f.chunks.flatMap Subtype.val

/-- A directory entry. -/
def entry (i : Nat) (name : List UInt8) : List UInt8 := Dirent.bytes ⟨i, strncpy DIRSIZ name⟩

/-- The entries of the root directory. -/
def rootBytes (files : List Input) : List UInt8 :=
  entry ROOTINO dot ++ entry ROOTINO dotdot ++ (files.zipIdx 2).flatMap fun f => entry f.2 f.1.target

/-- The files of the image. -/
def table (files : List Input) : Nat → List UInt8
  | 0 => []
  | 1 => rootBytes files
  | i + 2 => (files.map Input.bytes).getD i []

def kinds (i : Nat) : Nat := if i = ROOTINO then T_DIR else T_FILE

/-- The blocks that the files take. -/
def usage (files : List Input) : Nat :=
  cost (blocks (DESIZE * (files.length + 2))) + (files.map fun f => cost (blocks f.bytes.length)).sum

theorem length_strncpy (n : Nat) (t : List UInt8) : (strncpy n t).length = n := by
  induction n generalizing t with
  | zero => rfl
  | succ n ih =>
    unfold strncpy
    split_ifs
    · exact List.length_replicate
    · rw [List.length_cons, ih]

theorem length_entry (i : Nat) (name : List UInt8) : (entry i name).length = DESIZE := by
  rw [entry, Dirent.bytes, List.length_append, Bytes.length_le, length_strncpy]
  rfl

theorem rootBytes_concat (files : List Input) (f : Input) :
    rootBytes (files ++ [f]) = rootBytes files ++ entry (files.length + 2) f.target := by
  rw [rootBytes, rootBytes, List.zipIdx_append, List.flatMap_append, Nat.add_comm, List.zipIdx_singleton,
    List.flatMap_singleton, List.append_assoc, List.append_assoc, List.append_assoc]

theorem length_rootBytes (files : List Input) : (rootBytes files).length = DESIZE * (files.length + 2) := by
  induction files using List.reverseRecOn with
  | nil => rfl
  | append_singleton files f ih =>
    rw [rootBytes_concat, List.length_append, ih, length_entry, List.length_append, List.length_singleton]
    rfl

theorem table_concat (files : List Input) (f : Input) :
    table (files ++ [f]) = Function.update (Function.update (table files) ROOTINO
      (rootBytes files ++ entry (files.length + 2) f.target)) (files.length + 2) f.bytes := by
  funext i
  match i with
  | 0 => rfl
  | 1 =>
    rw [Function.update_of_ne (by omega), Function.update_self]
    exact rootBytes_concat files f
  | i + 2 =>
    have hroot : i + 2 ≠ ROOTINO := fun h => absurd (Nat.succ.inj h) (Nat.succ_ne_zero i)
    rw [table, List.map_append]
    rcases Nat.lt_trichotomy i files.length with hlt | rfl | hgt
    · rw [Function.update_of_ne (by omega), Function.update_of_ne hroot,
        List.getD_append _ _ _ _ (by rwa [List.length_map])]
      rfl
    · rw [Function.update_self, List.getD_append_right _ _ _ _ (by rw [List.length_map]), List.length_map, Nat.sub_self]
      rfl
    · rw [Function.update_of_ne (by omega), Function.update_of_ne hroot, table,
        List.getD_eq_default _ _ (by simp; omega), List.getD_eq_default _ _ (by simp; omega)]

theorem usage_concat (files : List Input) (f : Input) :
    usage (files ++ [f]) + cost (blocks (DESIZE * (files.length + 2))) =
      usage files + cost (blocks (DESIZE * (files.length + 2) + DESIZE)) + cost (blocks f.bytes.length) := by
  simp only [usage, List.length_append, List.length_singleton, List.map_append, List.map_cons, List.map_nil,
    List.sum_append, List.sum_singleton]
  rw [show DESIZE * (files.length + 1 + 2) = DESIZE * (files.length + 2) + DESIZE from rfl]
  omega

theorem usage_le_append (files rest : List Input) : usage files ≤ usage (files ++ rest) := by
  unfold usage
  rw [List.map_append, List.sum_append]
  have hle : files.length + 2 ≤ (files ++ rest).length + 2 := by simp
  have hcost := cost_le (blocks_mono (Nat.mul_le_mul_left DESIZE hle))
  omega

/-- The inputs that fit the image, as far as blocks are concerned. -/
structure Fits (files : List Input) : Prop where
  names : ∀ f ∈ files, slash ∉ f.name
  opens : ∀ f ∈ files, f.opens = true
  small : ∀ f ∈ files, f.bytes.length ≤ MAXFILE * BSIZE
  room : nmeta + usage files ≤ FSSIZE

/-- The image holds the files of `done`. -/
structure Built (done : List Input) (s : State) : Prop where
  rest : Rest s kinds (table done)
  freeinode : s.freeinode = done.length + 2
  top : s.freeblock = nmeta + usage done
  inums : s.inums = List.range' 1 (done.length + 1)

end Files

section Run

variable {s : State} {i : Nat} {kind : Nat → Nat} {bytes : Nat → List UInt8}

theorem Room.take {top len m n : Nat} (h : Room top len n) (hm : m ≤ n) : Room top len m := by
  have hcost := cost_le (blocks_mono (Nat.add_le_add_left hm len))
  exact ⟨Nat.le_trans (Nat.add_le_add_left hm len) h.1, Nat.le_trans (Nat.add_le_add_left hcost top) h.2⟩

theorem appendChunks_spec {fits : Prop} (cs : List { c : List UInt8 // 0 < c.length ∧ c.length ≤ BSIZE })
    (h : Rest s kind bytes) (hi : 0 < i) (hlt : i < s.freeinode)
    (hfits : fits → Room s.freeblock (bytes i).length (cs.flatMap Subtype.val).length) :
    Triple (fun _ => ¬fits) (fun t => t = s) (appendChunks i cs) fun _ => Grown s kind bytes i (cs.flatMap Subtype.val) := by
  induction cs generalizing s bytes with
  | nil =>
    apply Triple.ret
    rintro t rfl
    refine ⟨?_, rfl, rfl, rfl⟩
    rw [List.flatMap_nil, List.append_nil, Function.update_eq_self]
    exact h
  | cons c cs ih =>
    rw [List.flatMap_cons, List.length_append] at hfits
    unfold appendChunks
    refine (iappend_spec h hi hlt fun hfit => (hfits hfit).take (Nat.le_add_right ..)).bind fun _ => ?_
    apply Triple.each
    intro t ht
    have hlt' : i < t.freeinode := ht.freeinode.symm ▸ hlt
    refine (ih ht.rest hlt' ?_).post ?_
    · intro hfit
      have hroom := hfits hfit
      have htop := ht.top
      rw [Function.update_self, List.length_append]
      refine ⟨Nat.add_assoc .. ▸ hroom.1, ?_⟩
      have hle := hroom.2
      rw [← Nat.add_assoc] at hle
      omega
    · rintro _ u ⟨hrest, htop, hlive, hinums⟩
      have htop' := ht.top
      rw [Function.update_self, Function.update_idem, List.append_assoc] at hrest
      rw [Function.update_self, List.length_append] at htop
      refine ⟨hrest, ?_, hlive.trans ht.freeinode, hinums.trans ht.inums⟩
      rw [List.flatMap_cons, List.length_append, ← Nat.add_assoc]
      omega

theorem addFile_spec {files done rest : List Input} {f : Input} (hfiles : files = done ++ f :: rest)
    (hmax : files.length + 2 ≤ ninodeblocks * IPB) (h : Built done s) :
    Triple (fun _ => ¬Fits files) (fun t => t = s) (addFile ROOTINO f) fun _ t =>
      (slash ∉ f.name ∧ f.opens = true) ∧ Built (done ++ [f]) t := by
  have hmem : f ∈ files := by
    rw [hfiles]
    exact List.mem_append_right _ List.mem_cons_self
  have hlen : done.length + 2 < ninodeblocks * IPB := by
    have : files.length = done.length + (rest.length + 1) := by rw [hfiles, List.length_append, List.length_cons]
    omega
  have husage : usage (done ++ [f]) ≤ usage files := by
    rw [hfiles, show done ++ f :: rest = (done ++ [f]) ++ rest by simp]
    exact usage_le_append ..
  have hconcat := usage_concat done f
  have hroot : (table done ROOTINO).length = DESIZE * (done.length + 2) := length_rootBytes done
  have hlast : table done (done.length + 2) = [] := h.rest.dead _ (Nat.le_of_eq h.freeinode)
  unfold addFile
  apply Triple.ite
  · intro hslash
    exact Triple.fail fun hfit => hfit.names f hmem hslash
  intro hslash
  apply Triple.ite
  · intro hclosed
    exact Triple.fail fun hfit => absurd (hfit.opens f hmem) (by rw [hclosed]; decide)
  intro hopens
  have hlive : s.freeinode = done.length + 2 := h.freeinode
  refine (ialloc_spec h.rest (by omega) (by omega) (by rw [hlive]; rfl) (by decide)).bind fun n => Triple.each fun t ht => ?_
  obtain rfl : n = done.length + 2 := ht.inum.trans hlive
  have hlt : ROOTINO < t.freeinode := by
    rw [ht.freeinode, hlive]
    exact Nat.succ_lt_succ (Nat.zero_lt_succ _)
  have htop : t.freeblock = nmeta + usage done := ht.top.trans h.top
  -- First the entry in the root directory, then the bytes of the file.
  refine (iappend_spec (p := entry (done.length + 2) f.target) ht.rest (by decide) hlt ?_).bind fun _ => Triple.each fun u hu => ?_
  · intro hfit
    have hroom := hfit.room
    rw [hroot, length_entry, htop]
    refine ⟨?_, by omega⟩
    have hle : DESIZE * (done.length + 3) ≤ DESIZE * (ninodeblocks * IPB) := Nat.mul_le_mul_left _ hlen
    exact Nat.le_trans hle (by decide)
  have hutop := hu.top
  rw [hroot, length_entry, htop] at hutop
  have hlt' : done.length + 2 < u.freeinode := by
    rw [hu.freeinode, ht.freeinode, hlive]
    exact Nat.lt_succ_self _
  have hempty : Function.update (table done) ROOTINO (table done ROOTINO ++ entry (done.length + 2) f.target)
      (done.length + 2) = [] := by
    rw [Function.update_of_ne (fun heq => absurd (Nat.succ.inj heq) (Nat.succ_ne_zero _)), hlast]
  refine (appendChunks_spec f.chunks hu.rest (Nat.zero_lt_succ _) hlt' ?_).post fun _ v hv => ⟨⟨hslash, ?_⟩, ?_⟩
  · intro hfit
    have hroom := hfit.room
    rw [hempty]
    change Room u.freeblock 0 f.bytes.length
    refine ⟨(Nat.zero_add _).symm ▸ hfit.small f hmem, ?_⟩
    rw [Nat.zero_add, show cost (blocks 0) = 0 from rfl]
    omega
  · exact Bool.eq_true_of_not_eq_false hopens
  · have hrest := hv.rest
    have hvtop := hv.top
    rw [hempty, List.nil_append] at hrest
    rw [hempty, List.length_nil, Nat.zero_add, show cost (blocks 0) = 0 from rfl, Nat.add_zero] at hvtop
    have hbytes : cost (blocks f.bytes.length) = cost (blocks (f.chunks.flatMap Subtype.val).length) := rfl
    refine ⟨?_, ?_, by omega, ?_⟩
    · rw [table_concat]
      exact hrest
    · rw [hv.freeinode, hu.freeinode, ht.freeinode, hlive, List.length_append, List.length_singleton]
    · rw [hv.inums, hu.inums, ht.inums, h.inums, hlive, List.length_append, List.length_singleton,
        List.range'_concat (n := done.length + 1), show 1 + 1 * (done.length + 1) = done.length + 2 by omega]

theorem addFiles_spec {files : List Input} (hmax : files.length + 2 ≤ ninodeblocks * IPB) (rest : List Input)
    {done : List Input} (hfiles : files = done ++ rest) (h : Built done s) :
    Triple (fun _ => ¬Fits files) (fun t => t = s) (addFiles ROOTINO rest) fun _ t =>
      (∀ f ∈ rest, slash ∉ f.name ∧ f.opens = true) ∧ Built files t := by
  induction rest generalizing done s with
  | nil =>
    apply Triple.ret
    rintro t rfl
    rw [List.append_nil] at hfiles
    exact ⟨nofun, hfiles ▸ h⟩
  | cons f rest ih =>
    unfold addFiles
    refine (addFile_spec hfiles hmax h).bind fun _ => Triple.each fun t ht => ?_
    refine (ih (by rw [hfiles, List.append_assoc, List.singleton_append]) ht.2).post fun _ u hu => ⟨?_, hu.2⟩
    exact List.forall_mem_cons.mpr ⟨ht.1, hu.1⟩

theorem Built.fits {files : List Input} (h : Built files s) (hgood : ∀ f ∈ files, slash ∉ f.name ∧ f.opens = true) :
    Fits files where
  names f hf := (hgood f hf).1
  opens f hf := (hgood f hf).2
  small f hf := by
    obtain ⟨k, hk, rfl⟩ := List.getElem_of_mem hf
    have hsmall := h.rest.small (k + 2)
    rwa [table, List.getD_eq_getElem _ _ (by rwa [List.length_map]), List.getElem_map] at hsmall
  room := h.top ▸ h.rest.top

/-- After the loop that writes zeros. -/
def zeroed (n : Nat) : State := ⟨fun _ _ => 0, n, 1, nmeta, (List.range n).map (Prod.mk Part.zero), [], []⟩

theorem run_zeroSectors_range (n : Nat) :
    (zeroSectors (List.range n)).run { start with freeblock := nmeta } = .ok ((), zeroed n) := by
  rw [run_zeroSectors, foldl_max_range]
  simp only [start, ite_self, Nat.zero_max, List.nil_append, zeroed]

theorem mem_zeroed {n : Nat} {w : Part × Nat} (h : w ∈ (zeroed n).writes) : ∃ b < n, w = (.zero, b) := by
  obtain ⟨b, hb, rfl⟩ := List.mem_map.mp h
  exact ⟨b, List.mem_range.mp hb, rfl⟩

theorem run_zeroImage : zeroImage.run { start with freeblock := nmeta } = .ok ((), zeroed FSSIZE) := by
  unfold zeroImage
  exact run_zeroSectors_range FSSIZE

/-- The image with the super block, before the first inode. -/
def blank : State := wrote .super 1 superBlock (zeroed FSSIZE)

theorem run_main_blank (files : List Input) : (main files).run start = (do
    let rootino ← ialloc T_DIR
    if rootino ≠ ROOTINO then throw "assert"
    else do
      iappend rootino (Dirent.bytes ⟨rootino, strncpy DIRSIZ dot⟩)
      iappend rootino (Dirent.bytes ⟨rootino, strncpy DIRSIZ dotdot⟩)
      addFiles rootino files
      fixRoot rootino
      let s ← get
      balloc s.freeblock : M Unit).run blank := by
  unfold main
  rw [run_modify_bind, run_bind_of_ok run_zeroImage, run_bind_of_ok (run_wsect ..)]
  rfl

theorem blank_sect {b : Nat} (h : b ≠ 1) : blank.sect b = fun _ => 0 := by
  unfold blank wrote
  exact Function.update_of_ne h ..

theorem blank_inodes : inodes blank = fun _ => .zero := by
  funext i
  apply if_neg
  change ¬(0 < i ∧ i < 1)
  omega

theorem blank_slots : slots blank.sect (inodes blank) = fun _ _ => 0 := by
  funext i
  rw [slots, blank_inodes]
  exact refs_zero _ rfl

theorem blank_tidy : Tidy blank where
  len := Nat.max_eq_left (by decide)
  inodes := by decide
  writes w hw := by
    rcases List.mem_append.mp hw with hw | hw
    · obtain ⟨b, hb, rfl⟩ := mem_zeroed hw
      exact hb
    · obtain rfl := List.mem_singleton.mp hw
      rfl
  stored := nofun

theorem blank_rest : Rest blank kinds fun _ => [] where
  tidy := blank_tidy
  top := by decide
  laid := by
    refine ⟨⟨?_, ?_, ?_⟩, ?_, Nat.le_refl _⟩
    · rw [blank_slots]
      exact fun _ _ _ _ hne => absurd rfl hne
    · rw [blank_slots]
      exact fun _ _ hne => absurd rfl hne
    · intro i
      rw [blank_slots]
      funext k
      unfold content
      cases slotOf (k / BSIZE) <;> rfl
    · intro b hb
      exact blank_sect (Nat.ne_of_gt (Nat.lt_of_lt_of_le (by decide) hb))
  filled i := by
    rw [blank_slots]
    intro sl
    exact ⟨fun hne => absurd rfl hne, fun hlt => absurd hlt (Nat.not_lt_zero _)⟩
  heads i hi hlt := absurd hlt (Nat.not_lt.mpr hi)
  dead _ _ := rfl
  small _ := Nat.zero_le _

/-- The size of the root directory is taken up to the next block, past the end if it ends with a block. -/
def rounded (files : List Input) : Nat := ((rootBytes files).length / BSIZE + 1) * BSIZE

/-- The size of an inode of the finished image. -/
def sizes (files : List Input) (i : Nat) : Nat := if i = ROOTINO then rounded files else (table files i).length

/-- The image that `mkfs` leaves, but for the bitmap. -/
structure Rooted (files : List Input) (s : State) : Prop where
  tidy : Tidy s
  top : s.freeblock = nmeta + usage files
  fits : s.freeblock ≤ FSSIZE
  freeinode : s.freeinode = files.length + 2
  inums : s.inums = List.range' 1 (files.length + 1)
  laid : Laid s.sect s.freeblock (inodes s) (table files)
  filled : ∀ i, Filled (slots s.sect (inodes s) i) (blocks (table files i).length)
  heads : ∀ i, 0 < i → i < s.freeinode → SameHead ⟨kinds i, 0, 0, 1, sizes files i, fun _ => 0⟩ (onDisk s i)

structure Image (files : List Input) (s : State) : Prop extends Rooted files s where
  bitmap : s.sect bmapstart = bitmapBlock s.freeblock

theorem Built.freeinode_gt {files : List Input} (h : Built files s) : ROOTINO < s.freeinode := by
  rw [h.freeinode]
  exact Nat.succ_lt_succ (Nat.zero_lt_succ _)

theorem Built.resize_fits {files : List Input} (h : Built files s) : ((onDisk s ROOTINO).resize (rounded files)).Fits := by
  have hd : (onDisk s ROOTINO).Fits := fits_ofBlock ..
  refine ⟨hd.type, hd.major, hd.minor, hd.nlink, ?_, hd.addrs⟩
  change rounded files < 2 ^ 32
  have hsmall : (rootBytes files).length ≤ MAXFILE * BSIZE := h.rest.small ROOTINO
  have hdiv := Nat.div_le_div_right (c := BSIZE) hsmall
  exact Nat.lt_of_le_of_lt (Nat.mul_le_mul_right BSIZE (Nat.add_le_add_right hdiv 1)) (by decide)

theorem Built.rooted {files : List Input} (h : Built files s) :
    Rooted files (put ROOTINO ((onDisk s ROOTINO).resize (rounded files)) s) := by
  have hroot : ROOTINO < ninodeblocks * IPB := by decide
  have happ := h.rest.appending (by decide) h.freeinode_gt
  have hslots := happ.slots_put h.rest.tidy (by decide) h.freeinode_gt h.resize_fits rfl
  constructor
  · exact h.rest.tidy.put hroot _
  · exact h.top
  · exact h.rest.top
  · exact h.freeinode
  · exact h.inums
  · exact happ.laid.congr (fun b hb => put_sect hroot hb) hslots
  · rw [hslots]
    exact happ.filled
  · intro i hi hlt
    have hhead := h.rest.heads i hi hlt
    by_cases heq : i = ROOTINO
    · subst heq
      rw [onDisk_put_self h.resize_fits, sizes, if_pos rfl, Dino.resize, hhead]
      rfl
    · rw [onDisk_put_of_ne heq, sizes, if_neg heq]
      exact hhead

theorem fixRoot_spec {files : List Input} {stop : String → Prop} (h : Built files s) :
    Triple stop (fun t => t = s) (fixRoot ROOTINO) fun _ => Rooted files := by
  have hroot : ROOTINO < ninodeblocks * IPB := by decide
  have hsize : (onDisk s ROOTINO).size = (rootBytes files).length := by
    rw [h.rest.heads ROOTINO (by decide) h.freeinode_gt]
    rfl
  have hrun : (fixRoot ROOTINO).run s = .ok ((), put ROOTINO ((onDisk s ROOTINO).resize (rounded files)) s) := by
    unfold fixRoot
    rw [run_bind_of_ok (run_rinode h.rest.tidy hroot), hsize]
    exact run_winode h.rest.tidy hroot
  rintro t rfl
  rw [hrun]
  exact h.rooted

theorem onDisk_bitmap {a : Block} (hi : i < ninodeblocks * IPB) : onDisk (wrote .bitmap bmapstart a s) i = onDisk s i := by
  have hsect : (wrote .bitmap bmapstart a s).sect (IBLOCK i) = s.sect (IBLOCK i) :=
    Function.update_of_ne (Nat.ne_of_lt (IBLOCK_within hi).2) ..
  rw [onDisk, hsect, onDisk]

theorem balloc_spec {files : List Input} {stop : String → Prop} (h : Rooted files s) :
    Triple stop (fun t => t = s) (balloc s.freeblock) fun _ => Image files := by
  have hlt : ¬BSIZE * 8 ≤ s.freeblock := Nat.not_le.mpr (Nat.lt_of_le_of_lt h.fits (by decide))
  have hino : inodes (wrote .bitmap bmapstart (bitmapBlock s.freeblock) s) = inodes s :=
    inodes_congr h.tidy rfl fun _ => onDisk_bitmap
  have hsect : ∀ b, nmeta ≤ b → (wrote .bitmap bmapstart (bitmapBlock s.freeblock) s).sect b = s.sect b := fun b hb =>
    Function.update_of_ne (Nat.ne_of_gt (Nat.lt_of_lt_of_le (by decide) hb)) ..
  have hslots : slots (wrote .bitmap bmapstart (bitmapBlock s.freeblock) s).sect
      (inodes (wrote .bitmap bmapstart (bitmapBlock s.freeblock) s)) = slots s.sect (inodes s) := by
    rw [hino]
    funext i
    apply refs_congr
    intro hne
    exact hsect _ (h.laid.used i (.addr indirect) hne).1
  rintro t rfl
  rw [balloc, if_neg hlt, run_wsect]
  refine ⟨⟨?_, h.top, h.fits, h.freeinode, h.inums, h.laid.congr hsect hslots, ?_, ?_⟩, wrote_sect_self ..⟩
  · exact h.tidy.wrote _ (by decide) ⟨Nat.le_refl _, by decide⟩
  · rw [hslots]
    exact h.filled
  · intro i hi hlt
    rw [onDisk_bitmap (Nat.lt_of_lt_of_le hlt h.tidy.inodes)]
    exact h.heads i hi hlt

theorem table_nil (i : Nat) : table [] i = if i = ROOTINO then entry ROOTINO dot ++ entry ROOTINO dotdot else [] := by
  match i with
  | 0 => rfl
  | 1 => exact List.append_nil _
  | i + 2 =>
    rw [if_neg fun h => absurd (Nat.succ.inj h) (Nat.succ_ne_zero i)]
    rfl

/-- The root directory gets its first two entries. -/
theorem dots_spec {fits : Prop} {f : Nat → M Unit} {Q : Unit → State → Prop}
    (hf : ∀ t, Built [] t → Triple (fun _ => ¬fits) (fun u => u = t) (f ROOTINO) Q) :
    Triple (fun _ => ¬fits) (fun t => t = blank) (do
      let rootino ← ialloc T_DIR
      if rootino ≠ ROOTINO then throw "assert"
      else do
        iappend rootino (entry rootino dot)
        iappend rootino (entry rootino dotdot)
        f rootino) Q := by
  refine (ialloc_spec blank_rest (by decide) (by decide) rfl (by decide)).bind fun n => Triple.each fun t ht => ?_
  obtain rfl : n = ROOTINO := ht.inum
  have htop : t.freeblock = nmeta := ht.top
  have hlive : t.freeinode = 2 := ht.freeinode
  rw [if_neg (not_not_intro rfl)]
  have hroom : Room t.freeblock 0 (entry ROOTINO dot).length := by
    rw [htop]
    exact ⟨by decide, by decide⟩
  refine (iappend_spec ht.rest (by decide) (by rw [hlive]; decide) fun _ => hroom).bind fun _ => Triple.each fun u hu => ?_
  have hutop : u.freeblock = nmeta + 1 := by
    have htop' := hu.top
    rw [htop] at htop'
    exact htop'
  have hlive' : u.freeinode = 2 := hu.freeinode.trans hlive
  have hbytes : Function.update (fun _ => []) ROOTINO ([] ++ entry ROOTINO dot) ROOTINO = entry ROOTINO dot :=
    Function.update_self ..
  have hroom' : Room u.freeblock (Function.update (fun _ => []) ROOTINO ([] ++ entry ROOTINO dot) ROOTINO).length
      (entry ROOTINO dotdot).length := by
    rw [hutop, hbytes]
    exact ⟨by decide, by decide⟩
  refine (iappend_spec hu.rest (by decide) (by rw [hlive']; decide) fun _ => hroom').bind fun _ => Triple.each fun v hv => hf v ?_
  have hrest := hv.rest
  have hvtop := hv.top
  rw [hbytes, Function.update_idem] at hrest
  rw [hbytes, hutop] at hvtop
  refine ⟨?_, hv.freeinode.trans hlive', Nat.add_right_cancel (m := 1) hvtop, ?_⟩
  · have htable : table [] = Function.update (fun _ => []) ROOTINO (entry ROOTINO dot ++ entry ROOTINO dotdot) := by
      funext i
      rw [table_nil, Function.update_apply]
    rw [htable]
    exact hrest
  · rw [hv.inums, hu.inums, ht.inums]
    rfl

/-- `mkfs` ends exactly when the inputs fit, and leaves their image. -/
theorem main_spec {files : List Input} (hmax : files.length + 2 ≤ ninodeblocks * IPB) :
    Triple (fun _ => ¬Fits files) (fun t => t = start) (main files) fun _ t => Fits files ∧ Image files t := by
  rintro t rfl
  rw [run_main_blank]
  apply dots_spec _ blank rfl
  intro t ht
  refine (addFiles_spec hmax files (List.nil_append files).symm ht).bind fun _ => Triple.each fun u hu => ?_
  refine (fixRoot_spec hu.2).bind fun _ => Triple.read fun v hv => ?_
  exact (balloc_spec hv).post fun _ w hw => ⟨hu.2.fits hu.1, hw⟩

end Run

end Chameleon.Mkfs
