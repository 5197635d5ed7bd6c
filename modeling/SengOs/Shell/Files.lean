import SengOs.Fs.Split
import SengOs.Shell.Cat

/-!
# The file system under a command

What the calls that a command makes do to the files of the abstract store, in any state of a
run: `fs_create` and `fs_unlink` when they succeed, and the sequence of `fs_open`, `fs_write`
and `fs_close` that fills a new file. `cmd_fs_write` is made of these.
-/

namespace SengOs.Shell

open ByteMemory CString Fs FileStore

section Files

variable {s : FsState} {name : CString}

/-- A file with this name is a file of the abstract store. -/
theorem fileExists_iff_files (h : Sound (view s.ramdisk) s.fds) :
    FileExists s.ramdisk name ↔ s.abs.files name.bytes ≠ none := by
  have hnone : s.abs.files name.bytes = none ↔ _ := h.files_eq_none_iff
  rw [Ne, hnone, not_forall_not]
  exact exists_congr fun i => h.namedFile_iff

theorem fsCreate_files (h : Sound (view s.ramdisk) s.fds)
    (hcreate : 0 ≤ (fsCreate s (some name)).1) :
    Sound (view (fsCreate s (some name)).2.ramdisk) (fsCreate s (some name)).2.fds ∧
      (fsCreate s (some name)).2.fds = s.fds ∧
      (fsCreate s (some name)).2.abs = s.abs.setFile name.bytes (some []) ∧
      (view (fsCreate s (some name)).2.ramdisk).freeList = (view s.ramdisk).freeList := by
  have hr := refines_create h (some name)
  have ho : outcome s (.create (some name)) = some (.create name.bytes) :=
    if_neg hcreate.not_gt
  have habs := (hr.step _ ho).eq_of_create
  have hsound := hr.sound
  obtain ⟨m, i, d, hm, hcreated⟩ := created_of_succeeded h hcreate
  rw [hm] at habs hsound ⊢
  refine ⟨hsound, rfl, habs, ?_⟩
  dsimp only
  rw [hcreated.tables]
  rfl

theorem fsUnlink_files (h : Sound (view s.ramdisk) s.fds) (hzero : (fsUnlink s name).1 = 0) :
    Sound (view (fsUnlink s name).2.ramdisk) (fsUnlink s name).2.fds ∧
      (fsUnlink s name).2.fds = s.fds ∧
      (fsUnlink s name).2.abs = s.abs.setFile name.bytes none := by
  have hr := refines_unlink h name
  have ho : outcome s (.unlink name) = some (.unlink name.bytes) :=
    if_neg (by rw [hzero]; exact lt_irrefl 0)
  refine ⟨hr.sound, ?_, (hr.step _ ho).eq_of_unlink⟩
  rcases fsUnlink_cases h name with ⟨heq, -⟩ | ⟨-, -, -, -, -, ⟨heq, -⟩ | ⟨-, m, heq, -⟩⟩ <;>
    rw [heq]

/-- After a removal there is no file of that name. -/
theorem not_fileExists_of_abs {s₀ : FsState} (h : Sound (view s.ramdisk) s.fds)
    (habs : s.abs = s₀.abs.setFile name.bytes none) : ¬FileExists s.ramdisk name := by
  rw [fileExists_iff_files h, habs, setFile_files_self]
  exact not_not.mpr rfl

/-- After a removal there is room for a file. -/
theorem fileCount_ne_of_unlinked (h : Sound (view s.ramdisk) s.fds) {t : Tables} {i d : Nat}
    (hi : t.IsFile i) (hview : view s.ramdisk = t.unlink i d) : fileCount s.ramdisk ≠ 63 := by
  rw [Ne, h.fileCount_eq_iff, hview]
  intro hall
  exact ((Tables.unlink_isFile i).mp (hall i hi.1 hi.2.1)).1 rfl

theorem fsCreate_succeeds (h : Sound (view s.ramdisk) s.fds) (hname : ¬InvalidName name)
    (hnone : ¬FileExists s.ramdisk name) (hroom : fileCount s.ramdisk ≠ 63) :
    0 ≤ (fsCreate s (some name)).1 := by
  obtain ⟨i, hi, -⟩ := (h.createCodes name).created hname hnone hroom
  rw [hi]
  exact Int.natCast_nonneg i

theorem fsOpen_of_missing (h : Sound (view s.ramdisk) s.fds)
    (hnone : ¬FileExists s.ramdisk name) : fsOpen s name = (-1, s) := by
  have hcode := (h.openCodes name).missing.mpr hnone
  have hsame : (fsOpen s name).2 = s :=
    h.unchanged (c := .open name) (show (fsOpen s name).1 < 0 by omega)
  exact Prod.ext hcode hsame

theorem fsUnlink_of_missing (h : Sound (view s.ramdisk) s.fds)
    (hnone : ¬FileExists s.ramdisk name) : fsUnlink s name = (-1, s) := by
  have hcode := (h.unlinkCodes name).missing.mpr hnone
  have hsame : (fsUnlink s name).2 = s :=
    h.unchanged (c := .unlink name) (show (fsUnlink s name).1 < 0 by omega)
  exact Prod.ext hcode hsame

theorem bytes_byteAt (text : CString) : bytes text.byteAt text.bytes.length = text.bytes := by
  apply List.ext_getElem?
  intro i
  rw [getElem?_bytes]
  rcases Nat.lt_or_ge i text.bytes.length with hi | hi
  · simp [CString.byteAt, hi]
  · rw [if_neg hi.not_gt, List.getElem?_eq_none hi]

theorem hasFile_of_files (h : Sound (view s.ramdisk) s.fds) {n c : List Byte}
    (hc : s.abs.files n = some c) :
    ∃ i, (view s.ramdisk).HasFile n i ∧ (view s.ramdisk).content i = c :=
  h.files_eq_some_iff.mp hc

/-- Opening a new file, writing a text and closing it leaves as much of the text as the free
blocks hold, and the descriptors as they were. -/
theorem writeFile_of_empty (h : Sound (view s.ramdisk) s.fds)
    (hfile : s.abs.files name.bytes = some []) (hfree : ∃ n < 32, ¬s.IsOpen n) (text : CString) :
    ∃ (n r : Nat) (s₁ s₂ s₃ : FsState), fsOpen s name = ((n : Int), s₁) ∧
      fsWrite s₁ n (some text.byteAt) (strlen text) = ((r : Int), s₂) ∧
      fsClose s₂ n = (0, s₃) ∧ Sound (view s₃.ramdisk) s₃.fds ∧ s₃.fds = s.fds ∧
      s₃.abs = s.abs.setFile name.bytes (some (text.bytes.take r)) ∧
      r = min text.bytes.length (min 32768 (4096 * (view s.ramdisk).freeList.length)) := by
  obtain ⟨i, hi, hempty⟩ := hasFile_of_files h hfile
  have hsize : ((view s.ramdisk).inode i).size = 0 := by
    rw [← Tables.length_content, hempty]
    rfl
  obtain ⟨n, hn, hclosed, hopen⟩ := fsOpen_of_hasFile h hi hfree
  have hopened : (s.setFd n (File.opened i)).abs = s.abs.setFd n (some (name.bytes, 0)) := by
    rw [FsState.abs_setFd, Tables.abs_open hn, hi.2]
    rfl
  obtain ⟨r, s₂, hwrite, hp, hw⟩ := fsWrite_wroteBytes (h.setFd (.opened hi.1))
    (isOpen_opened hn i) text.byteAt (strlen text)
  have hamount := hp.amount
  have hstep := hw.step
  rw [setFd_opened] at hamount
  rw [hopened] at hstep
  have habs₂ := hstep.eq_of_write setFd_fds_self hfile
  have hr : r = min text.bytes.length (min 32768 (4096 * (view s.ramdisk).freeList.length)) := by
    have hblocks : blocksOf ((view (s.setFd n (File.opened i)).ramdisk).inode
        (File.opened i).inode).size = 0 := by
      show blocksOf ((view s.ramdisk).inode i).size = 0
      rw [hsize]
      rfl
    rw [hblocks, Nat.zero_add] at hamount
    exact hamount
  have hnone : s.abs.fds n = none := openFiles_eq_none_iff.mpr fun hopen => hclosed hopen
  have habs₃ : (s₂.setFd n File.zero).abs =
      s.abs.setFile name.bytes (some (text.bytes.take r)) := by
    have htake : bytes text.byteAt r = text.bytes.take r := by
      rw [bytes_eq_take _ (show r ≤ text.bytes.length by omega), bytes_byteAt]
    have hsplice (xs : List Byte) : splice [] 0 xs = xs := by simp [splice]
    rw [FsState.abs_setFd, Tables.abs_close]
    show s₂.abs.setFd n none = _
    rw [habs₂, setFd_setFd, setFile_setFd, setFd_setFd, hsplice, htake]
    apply setFd_of_eq
    rw [setFile_fds]
    exact hnone
  have hfds₃ : (s₂.setFd n File.zero).fds = s.fds := by
    rw [FsState.setFd, hw.fds, ← congrArg FsState.fds (setFd_zero_of_closed h hn hclosed)]
    simp only [FsState.seek, FsState.setFd, Function.update_idem]
  exact ⟨n, r, _, s₂, _, hopen, hwrite, fsClose_of_isOpen (hw.isOpen (isOpen_opened hn i)),
    hw.sound.setFd .zero, hfds₃, habs₃, hr⟩

end Files

/-! ## The steps of `write` -/

section Write

variable {s : FsState} {name args : CString}

/-- The test whether the file exists leaves the state as it was. -/
theorem close_after_open (h : Sound (view s.ramdisk) s.fds) (hopen : 0 ≤ (fsOpen s name).1) :
    (fsClose (fsOpen s name).2 (fsOpen s name).1).2 = s := by
  rcases fsOpen_cases h name with ⟨heq, -⟩ | ⟨d, hd, hstr, ⟨heq, -⟩ | ⟨n, heq, hn, hclosed, -⟩⟩
  · rw [heq] at hopen
    exact absurd hopen (show ¬(0 : Int) ≤ -1 by decide)
  · rw [heq] at hopen
    exact absurd hopen (show ¬(0 : Int) ≤ -2 by decide)
  · rw [heq]
    dsimp only
    rw [fsClose_of_isOpen (isOpen_opened hn _), FsState.setFd_setFd,
      setFd_zero_of_closed h hn hclosed]

/-- `removeOld` is `fs_unlink`, unless no descriptor is free for the test. -/
theorem removeOld_eq (h : Sound (view s.ramdisk) s.fds) (name : CString) :
    removeOld s name = if 0 ≤ (fsOpen s name).1 then (fsUnlink s name).2 else s := by
  unfold removeOld
  dsimp only
  split
  · rename_i hopen
    rw [close_after_open h hopen]
  · rename_i hfail
    exact h.unchanged (c := .open name) (not_le.mp hfail)

theorem cmdFsWrite_of_usage (h : (parseWrite args).1.bytes = [] ∨ (parseWrite args).2.bytes = []) :
    (cmdFsWrite s args).2 = s := by
  unfold cmdFsWrite
  dsimp only
  rw [if_pos h, ite_self]

theorem args_ne_nil (hname : (parseWrite args).1.bytes ≠ []) : args.bytes ≠ [] := by
  intro hnil
  apply hname
  have heq : args = ⟨[], nofun⟩ := CString.ext hnil
  rw [heq]
  rfl

/-- The command behind its parser. -/
theorem cmdFsWrite_of_parsed (hname : (parseWrite args).1.bytes ≠ [])
    (htext : (parseWrite args).2.bytes ≠ []) :
    cmdFsWrite s args =
      let name := (parseWrite args).1
      let p := (parseWrite args).2
      let created := fsCreate (removeOld s name) (some name)
      if created.1 < 0 then (chars "  Could not create file.\n", created.2)
      else
        let opened := fsOpen created.2 name
        if opened.1 < 0 then (chars "  Could not open file.\n", opened.2)
        else
          let written := fsWrite opened.2 opened.1 (some p.byteAt) (strlen p)
          let closed := fsClose written.2 opened.1
          if written.1 < 0 then (chars "  Write failed.\n", closed.2)
          else (printWrote written.1, closed.2) := by
  unfold cmdFsWrite
  dsimp only
  rw [if_neg (args_ne_nil hname), if_neg (not_or.mpr ⟨hname, htext⟩)]

end Write

end SengOs.Shell
