import SengOs.Fs.Bounds
import SengOs.Shell.Quiet

/-!
# The buffer of `cat`

`cmd_fs_cat` has 256 bytes of buffer. Each round of its loop lets `fs_read` write at most 255
of them and then writes the terminator behind what was read, so that the loop stays within
its buffer. It prints a file whole, whatever else is open.
-/

namespace SengOs.Fs

/-- The indices of the caller's buffer that an access writes. -/
def Access.written : Access → List Nat
  | .load _ _ _ buf n => List.range' buf n
  | _ => []

theorem Access.Inside.written_lt {count : Nat} {e : Access} (h : e.Inside count) :
    ∀ i ∈ e.written, i < count := by
  intro i hi
  cases e with
  | load m ino disk buf n =>
    have hlt := (List.mem_range'_1.mp hi).2
    have hle := h.2.2
    omega
  | _ => cases hi

end SengOs.Fs

namespace SengOs.Shell

open ByteMemory CString Fs

/-- The indices of `buf` that the loop of `cmd_fs_cat` writes, in order: those of each
`fs_read`, and that of the terminator behind it. -/
def catLoopWrites (fd : Int) (s : FsState) (buf : Mem) : List Nat :=
  let r := fsReadTraced s fd (some buf) 255
  r.log.flatMap Access.written ++
    if _h : 0 < r.val.1 then
      r.val.1.toNat :: catLoopWrites fd r.val.2.2
        (Function.update (r.val.2.1.getD buf) r.val.1.toNat 0)
    else []
termination_by unread s fd
decreasing_by
  simp only [r, val_fsReadTraced] at _h ⊢
  exact unread_fsRead_lt _h

section Loop

variable {s : FsState} {n : Nat}

theorem catLoopWrites_eq (fd : Int) (s : FsState) (buf : Mem) :
    catLoopWrites fd s buf = (fsReadTraced s fd (some buf) 255).log.flatMap Access.written ++
      if 0 < (fsRead s fd (some buf) 255).1 then
        (fsRead s fd (some buf) 255).1.toNat :: catLoopWrites fd (fsRead s fd (some buf) 255).2.2
          (Function.update ((fsRead s fd (some buf) 255).2.1.getD buf)
            (fsRead s fd (some buf) 255).1.toNat 0)
      else [] := by
  rw [catLoopWrites, val_fsReadTraced]
  rfl

/-- What one `fs_read` writes. -/
theorem fsRead_writes_lt (h : Sound (view s.ramdisk) s.fds) (fd : Int) (buf : Mem) :
    ∀ i ∈ (fsReadTraced s fd (some buf) 255).log.flatMap Access.written, i < 255 := by
  intro i hi
  obtain ⟨e, he, hie⟩ := List.mem_flatMap.mp hi
  exact (all_fsRead h fd (some buf) e he).written_lt i hie

theorem catLoopWrites_le (buf : Mem) (h : Sound (view s.ramdisk) s.fds) (hn : s.IsOpen n) :
    ∀ i ∈ catLoopWrites n s buf, i ≤ 255 := by
  induction s, buf using catLoop.induct n with
  | case1 s buf r hpos filled ih =>
    have hr : r = _ := fsRead_open h hn buf 255
    have hoff := (h.fd_sound n hn.1).offset hn.2
    have hle : (s.fds n).offset + s.readable n 255 ≤
        ((view s.ramdisk).inode (s.fds n).inode).size := by
      unfold FsState.readable
      omega
    have hstate : r.2.2 = s.seek n ((s.fds n).offset + s.readable n 255) := by rw [hr]
    have hlast : r.1.toNat ≤ 255 := by
      rw [hr]
      dsimp only
      unfold FsState.readable
      omega
    rw [hstate] at ih
    specialize ih (h.seek hn.1 hn.2 hle) (FsState.isOpen_seek hn)
    intro i hi
    rw [catLoopWrites_eq, if_pos hpos] at hi
    rcases List.mem_append.mp hi with hi | hi
    · exact (fsRead_writes_lt h n buf i hi).le
    · rcases List.mem_cons.mp hi with rfl | hi
      · exact hlast
      · refine ih i ?_
        rw [← hstate]
        exact hi
  | case2 s buf r hzero =>
    intro i hi
    rw [catLoopWrites_eq, if_neg hzero, List.append_nil] at hi
    exact (fsRead_writes_lt h n buf i hi).le

end Loop

/-- In every state of a run with a free descriptor, `cat` of a file without NULs prints its
bytes, stays inside its buffer and changes nothing. -/
theorem cat_prints_whole_file (s₀ : FsState) (calls : List Call) (name : CString)
    (content : List Byte) (hfile : (runCalls (fsInit s₀) calls).abs.files name.bytes = some content)
    (hnul : ∀ b ∈ content, b ≠ 0) (hfree : ∃ n < 32, ¬(runCalls (fsInit s₀) calls).IsOpen n)
    (buf : Mem) :
    cmdFsCat (runCalls (fsInit s₀) calls) buf name =
      (chars "  " ++ content ++ chars "\n", runCalls (fsInit s₀) calls) ∧
    ∀ i ∈ catLoopWrites (fsOpen (runCalls (fsInit s₀) calls) name).1
      (fsOpen (runCalls (fsInit s₀) calls) name).2 buf, i ≤ 255 := by
  have h := sound_run s₀ calls
  generalize runCalls (fsInit s₀) calls = s at *
  obtain ⟨i, hi, rfl⟩ := hasFile_of_files h hfile
  constructor
  · rw [cmdFsCat_of_hasFile h hi hfree, printed_of_noNul hnul]
  · obtain ⟨n, hn, -, hopen⟩ := fsOpen_of_hasFile h hi hfree
    rw [hopen]
    exact catLoopWrites_le buf (h.setFd (.opened hi.1)) (isOpen_opened hn i)

/-- A file created right after `fs_init` is empty, and no descriptor is open. -/
theorem new_file_after_init (s₀ : FsState) {name : CString} (hname : ¬InvalidName name) :
    (runCalls (fsInit s₀) [.create (some name)]).abs.files name.bytes = some [] ∧
      ¬(runCalls (fsInit s₀) [.create (some name)]).IsOpen 0 := by
  obtain ⟨m, i, d, hm, hcreated⟩ :=
    created_of_succeeded (sound_fsInit s₀) (fsCreate_fsInit s₀ hname)
  have hrun : runCalls (fsInit s₀) [.create (some name)] = { fsInit s₀ with ramdisk := m } := hm
  rw [hrun]
  constructor
  · refine (hcreated.sound.files_of_hasFile hcreated.hasFile).trans (congrArg some ?_)
    rw [Tables.content, hcreated.tables, Tables.create_inode_self]
    rfl
  · exact fun hopen => hopen.2 (congrArg File.used (fsInit_fds s₀ (by decide)))

/-- A text that the blocks of a new disk hold is in the file that it has been written to. -/
theorem written_file_after_init (s₀ : FsState) {name text : CString} (hname : ¬InvalidName name)
    (htext : text.bytes.length ≤ 32768) :
    ∃ n : Nat,
      let s := runCalls (fsInit s₀) [.create (some name), .open name,
        .write n (some text.byteAt) (strlen text), .close n]
      s.abs.files name.bytes = some text.bytes ∧ ¬s.IsOpen 0 := by
  obtain ⟨hsound, hfds, habs, hfree⟩ :=
    fsCreate_files (sound_fsInit s₀) (fsCreate_fsInit s₀ hname)
  have hfile : (fsCreate (fsInit s₀) (some name)).2.abs.files name.bytes = some [] := by
    rw [habs, FileStore.setFile_files_self]
  have hclosed : ¬(fsCreate (fsInit s₀) (some name)).2.IsOpen 0 := fun hopen =>
    hopen.2 (by rw [hfds, fsInit_fds s₀ (by decide), File.zero])
  have hroom : (view (fsCreate (fsInit s₀) (some name)).2.ramdisk).freeList.length = 251 := by
    rw [hfree, view_fsInit, Tables.freeList, FirstFit.clear, List.filter_eq_self.mpr,
      List.length_range']
    intro b hb
    have hlo : ¬b < 5 := Nat.not_lt.mpr (List.mem_range'_1.mp hb).1
    simp [Tables.initial, hlo]
  obtain ⟨n, r, s₁, s₂, s₃, hopen, hwrite, hclose, -, hfds', habs', hr⟩ :=
    writeFile_of_empty hsound hfile ⟨0, by decide, hclosed⟩ text
  have hall : r = text.bytes.length := by
    rw [hroom] at hr
    omega
  have hrun : runCalls (fsInit s₀) [.create (some name), .open name,
      .write n (some text.byteAt) (strlen text), .close n] = s₃ := by
    show (fsClose (fsWrite (fsOpen (fsCreate (fsInit s₀) (some name)).2 name).2 n
      (some text.byteAt) (strlen text)).2 n).2 = s₃
    rw [hopen]
    dsimp only
    rw [hwrite]
    dsimp only
    rw [hclose]
  refine ⟨n, ?_⟩
  dsimp only
  rw [hrun]
  constructor
  · rw [habs', FileStore.setFile_files_self, hall, List.take_length]
  · rw [FsState.IsOpen, hfds']
    exact hclosed

/-- A text of two blocks, which the loop prints in 20 pieces. -/
def longText : CString := ⟨List.replicate 5000 0x41, fun _ hb => by
  rw [List.eq_of_mem_replicate hb]
  decide⟩

theorem cat_prints_long_file :
    ∃ n : Nat,
      let s := runCalls (fsInit ⟨fun _ => 0, fun _ => File.zero⟩) [.create (some rootName),
        .open rootName, .write n (some longText.byteAt) (strlen longText), .close n]
      cmdFsCat s (fun _ => 0x42) rootName =
        (chars "  " ++ List.replicate 5000 0x41 ++ chars "\n", s) ∧
      ∀ i ∈ catLoopWrites (fsOpen s rootName).1 (fsOpen s rootName).2 (fun _ => 0x42),
        i ≤ 255 := by
  have hlen : longText.bytes.length ≤ 32768 :=
    (List.length_replicate (n := 5000) (a := (0x41 : Byte))).trans_le (by decide)
  obtain ⟨n, hfile, hclosed⟩ := written_file_after_init ⟨fun _ => 0, fun _ => File.zero⟩
    not_invalidName_rootName hlen
  exact ⟨n, cat_prints_whole_file _ _ rootName longText.bytes hfile longText.noNul
    ⟨0, by decide, hclosed⟩ _⟩

end SengOs.Shell
