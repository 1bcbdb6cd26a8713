import Chameleon.Vm.Grow

/-! What `exec` does in every state that the system reaches. -/

namespace Chameleon.Vm
open Ptable (Slot)

/-- The state in which the process `p` calls `exec`. -/
def entry (s : Records × Kmem) (p : Slot) (d : Nat) (deny : List Bool) (eip esp : Nat) (name : List UInt8) : ExecState :=
  called { s.2 with deny := deny } ⟨d, (s.1.table.proc p).sz, eip, esp, name⟩

section
variable (L : Layout) {s : Records × Kmem} (h : Machine.Reach (step L) (Booted L) Machine.Any s) {p : Slot} {d : Nat}
variable (hp : Live s.1.table p) (hd : (s.1.table.proc p).pgdir = some d) (deny : List Bool) (eip esp : Nat)
variable (name path : List UInt8)
include h hp hd

/-- When `exec` returns 0, the new address space holds the image of the file and the arguments;
arguments that do not fit in the stack page make it return -1. It returns 0 when everything is
there that it needs. -/
theorem exec_builds_image (content : List UInt8) (argv : List (List UInt8))
    (hasc : (segmentsOf content).Pairwise Ascending) :
    ∃ r s', (execFile copyoutChecked L path (some content) argv).run (entry s p d deny eip esp name) = .ok (r, s') ∧
      (r = 0 ∨ r = -1) ∧ (r = 0 → ExecImage content argv s'.user s'.kmem.mem) ∧
      (PGSIZE < stackNeed argv → r = -1) ∧ (Suits content argv (entry s p d deny eip esp name).kmem → r = 0) := by
  obtain ⟨B, hacct⟩ := caller_of_reach h hp hd
  obtain ⟨r, s', hrun, -, -, -, hpost⟩ := execFile_some (nodup_handed L) (isFrame_handed L) path content argv
    (entry s p d deny eip esp name) (hacct deny) rfl
  refine ⟨r, s', hrun, hpost.symm.imp And.left And.left, fun hr => ?_, fun hbig => ?_, fun hs => ?_⟩
  · exact ((hpost.resolve_left fun h => absurd (h.1.symm.trans hr) (by decide)).2.2).image hasc
  · refine (hpost.resolve_right fun hr => ?_).1
    have hneed := hr.2.2.stack.need
    have hin := hr.2.2.stack.inside
    omega
  · exact (hpost.resolve_left fun h => h.2.2 hs).1

end

/-- A program file with two LOAD segments: four bytes and four zeros at 0, and two bytes at 4096. -/
def twoSegments : List UInt8 :=
  [0x7F, 0x45, 0x4C, 0x46] ++ List.replicate 24 0 ++ [52] ++ List.replicate 15 0 ++ [2] ++ List.replicate 7 0 ++
    ([1, 0, 0, 0, 116, 0, 0, 0] ++ List.replicate 8 0 ++ [4, 0, 0, 0, 8, 0, 0, 0] ++ List.replicate 8 0) ++
    ([1, 0, 0, 0, 120, 0, 0, 0, 0, 16, 0, 0] ++ List.replicate 4 0 ++ [2, 0, 0, 0, 2, 0, 0, 0] ++ List.replicate 8 0) ++
    [10, 11, 12, 13, 20, 21]

theorem segmentsOf_twoSegments : segmentsOf twoSegments = [⟨1, 116, 0, 4, 8⟩, ⟨1, 120, 4096, 2, 2⟩] := by decide +kernel

theorem suits_twoSegments {k : Kmem} (hdeny : k.deny = []) (hfree : 55000 ≤ k.freelist.length) :
    Suits twoSegments [[97], [98, 99]] k := by
  refine ⟨⟨by decide, by decide⟩, hdeny, 2, ⟨?_, ?_, ?_, ?_, by decide⟩, le_trans ?_ hfree⟩
  · unfold HasHeader
    decide +kernel
  · decide +kernel
  · decide +kernel
  · rw [segmentsOf_twoSegments]
    refine List.forall_mem_cons.mpr ⟨⟨?_, ?_, ?_, ?_⟩, List.forall_mem_singleton.mpr ⟨?_, ?_, ?_, ?_⟩⟩ <;> decide +kernel
  · decide +kernel

/-- The first process executes it with two arguments; the second segment is in place. -/
theorem exec_builds_image_twoSegments : ∃ s d s', Booted sampleLayout s ∧ (s.1.table.proc 0).pgdir = some d ∧
    (execFile copyoutChecked sampleLayout [47, 97] (some twoSegments) [[97], [98, 99]]).run (entry s 0 d [] 0 0 []) =
      .ok (0, s') ∧ ExecImage twoSegments [[97], [98, 99]] s'.user s'.kmem.mem ∧
    (viewOf s'.kmem.mem s'.user.pgdir).byte 4097 = 21 := by
  obtain ⟨s, d, hs, hlive, hd, -, -, hfree⟩ := exists_first sampleLayout
  obtain ⟨r, s', hrun, -, himage, -, hsuits⟩ := exec_builds_image sampleLayout (.start hs) hlive hd [] 0 0 [] [47, 97]
    twoSegments [[97], [98, 99]] (by
      rw [segmentsOf_twoSegments]
      refine List.pairwise_pair.mpr ⟨by decide, fun x _ hlt hle => ?_⟩
      exact absurd (lt_of_lt_of_le hlt (by decide)) (Nat.not_lt.mpr hle))
  obtain rfl := hsuits (suits_twoSegments rfl hfree)
  have hbyte := ((himage rfl).segments ⟨1, 120, 4096, 2, 2⟩ (by rw [segmentsOf_twoSegments]; simp)).1.1 1 (by decide)
  refine ⟨s, d, s', hs, hd, hrun, himage rfl, (Option.some.inj (Eq.trans ?_ hbyte)).symm⟩
  decide +kernel

/-- The size and the stack pointer of the new image, from the file and the arguments. -/
def Sized (file : Option (List UInt8)) (argv : List (List UInt8)) (u : UserImage) : Prop :=
  ∃ content, file = some content ∧ u.sz = PGROUNDUP (imageEnd content) + 2 * PGSIZE ∧ u.esp + stackNeed argv = u.sz

/-- `exec` returns, never through a panic, and it changes nothing or everything: for every file
contents and arguments, and whichever calls of `kalloc` are refused. The watch that wants every
page below `PGROUNDUP(sz)` mapped passes everywhere; the inode and the transaction are given
back once. -/
theorem exec_all_or_nothing (L : Layout) {s : Records × Kmem}
    (h : Machine.Reach (step L) (Booted L) Machine.Any s) {p : Slot} {d : Nat} (hp : Live s.1.table p)
    (hd : (s.1.table.proc p).pgdir = some d) (deny : List Bool) (eip esp : Nat) (name : List UInt8)
    (path : List UInt8) (file : Option (List UInt8)) (argv : List (List UInt8)) :
    ∃ r s', (execFile copyoutChecked L path file argv).run (entry s p d deny eip esp name) = .ok (r, s') ∧
      (execWatched mappedBelow copyoutChecked L path file argv).run (entry s p d deny eip esp name) = .ok (r, s') ∧
      s'.fs = { begun := 1, ended := 1, refs := 0, locked := false } ∧
      (r = -1 ∧ Kept (handed L) (entry s p d deny eip esp name) s' ∧
          (∀ content, file = some content → ¬ Suits content argv (entry s p d deny eip esp name).kmem) ∨
        r = 0 ∧ Replaced path file (entry s p d deny eip esp name) s' ∧ Sized file argv s'.user) := by
  obtain ⟨B, hacct⟩ := caller_of_reach h hp hd
  obtain ⟨r, s', hrun, hwatch, hfs, -, hpost⟩ := execFile_ends (nodup_handed L) (isFrame_handed L) path file argv
    (entry s p d deny eip esp name) (hacct deny) rfl
  refine ⟨r, s', hrun, hwatch, hfs, hpost.imp_right ?_⟩
  rintro ⟨hr, hrep, content, hfile, hview⟩
  exact ⟨hr, hrep, content, hfile, hview.top, hview.stack.need⟩

/-- The first process executes a program of two segments: two pages, a guard page and the stack, of
which the arguments take 32 bytes. -/
theorem exec_all_or_nothing_twoSegments : ∃ s d s', Booted sampleLayout s ∧ (s.1.table.proc 0).pgdir = some d ∧
    (execFile copyoutChecked sampleLayout [47, 97] (some twoSegments) [[97], [98, 99]]).run (entry s 0 d [] 0 0 []) =
      .ok (0, s') ∧ Replaced [47, 97] (some twoSegments) (entry s 0 d [] 0 0 []) s' ∧
    s'.user.sz = 16384 ∧ s'.user.esp = 16352 := by
  obtain ⟨s, d, hs, hlive, hd, -, -, hfree⟩ := exists_first sampleLayout
  obtain ⟨r, s', hrun, -, -, hpost⟩ := exec_all_or_nothing sampleLayout (.start hs) hlive hd [] 0 0 [] [47, 97]
    (some twoSegments) [[97], [98, 99]]
  obtain ⟨rfl, hrep, content, hfile, hsz, hesp⟩ := hpost.resolve_left fun h =>
    h.2.2 twoSegments rfl (suits_twoSegments rfl hfree)
  obtain rfl := Option.some.inj hfile
  have hsize : s'.user.sz = 16384 := hsz.trans (by decide +kernel)
  have hneed : stackNeed [[97], [98, 99]] = 32 := by decide
  exact ⟨s, d, s', hs, hd, hrun, hrep, hsize, by omega⟩

end Chameleon.Vm
