import SengOs.Shell.Files
import SengOs.Shell.Tokenizer

/-!
# What `write` leaves of the file it replaces

`cmd_fs_write` removes the old file before it knows whether the new one can be created, opened
and filled. `Refused` are the states in which it stops before it has removed or created
anything; otherwise the new file holds as much of the text as there is room for, or nothing
when no descriptor is free. So the command replaces its file or leaves it alone exactly under
the condition of `replacesAtomically_iff`.
-/

namespace SengOs.Fs

open ByteMemory

/-- The blocks that a file has, in order. -/
def Tables.held (t : Tables) (i : Nat) : List Nat :=
  (List.range (blocksOf (t.inode i).size)).map (t.inode i).blocks

section Unlink

variable {t : Tables} {fds : Nat → File} {i d : Nat}

theorem Sound.blocksOf_le (h : Sound t fds) (hi : t.IsFile i) : blocksOf (t.inode i).size ≤ 8 := by
  have hle := h.size_le i hi
  simp only [blocksOf]
  omega

theorem Sound.mem_held (h : Sound t fds) (hi : t.IsFile i) {b : Nat} :
    b ∈ t.held i ↔ 5 ≤ b ∧ ∃ k < 8, (t.inode i).blocks k = b := by
  have hle := h.blocksOf_le hi
  simp only [Tables.held, List.mem_map, List.mem_range]
  constructor
  · intro ⟨k, hk, hkb⟩
    have hne := (h.block_iff_lt hi (show k < 8 by omega)).mpr hk
    exact ⟨hkb ▸ (h.block_range i k hi (by omega) hne).1, k, by omega, hkb⟩
  · intro ⟨h5, k, hk, hkb⟩
    exact ⟨k, (h.block_iff_lt hi hk).mp (by omega), hkb⟩

theorem Sound.nodup_held (h : Sound t fds) (hi : t.IsFile i) : (t.held i).Nodup := by
  have hle := h.blocksOf_le hi
  refine List.Nodup.map_on (fun k hk l hl hkl => ?_) List.nodup_range
  have hk' := List.mem_range.mp hk
  have hl' := List.mem_range.mp hl
  have hne := (h.block_iff_lt hi (show k < 8 by omega)).mpr hk'
  exact (h.block_inj i k i l hi hi (by omega) (by omega) hne hkl).2

/-- Removing a file frees all of its blocks. -/
theorem length_freeList_unlink (h : Sound t fds) (hi : t.IsFile i) :
    (t.unlink i d).freeList.length = t.freeList.length + blocksOf (t.inode i).size := by
  have hused : ∀ b ∈ t.held i, b < 256 ∧ t.blockBit b = true := by
    intro b hb
    obtain ⟨h5, k, hk, rfl⟩ := (h.mem_held hi).mp hb
    have hlt := (h.block_range i k hi hk (by omega)).2
    exact ⟨hlt, (h.blockBit_iff _ hlt).mpr (Or.inr ⟨i, k, hi, hk, rfl⟩)⟩
  have hnodup : (t.freeList ++ t.held i).Nodup := by
    refine List.Nodup.append FirstFit.nodup_clear (h.nodup_held hi) fun b hb hb' => ?_
    have hclear := (FirstFit.mem_clear.mp hb).2
    exact nomatch hclear.symm.trans (hused b hb').2
  have hperm : (t.unlink i d).freeList.Perm (t.freeList ++ t.held i) := by
    refine (List.perm_ext_iff_of_nodup FirstFit.nodup_clear hnodup).mpr fun b => ?_
    rw [List.mem_append, h.mem_held hi]
    show b ∈ FirstFit.clear (fun b => t.blockBit b && !t.pointsTo i 8 b) 5 251 ↔ _
    rw [FirstFit.mem_clear, Tables.freeList, FirstFit.mem_clear, Bool.and_eq_false_iff,
      Bool.not_eq_false', Tables.pointsTo_iff, and_or_left]
    refine or_congr_right ⟨fun hb => hb.2, fun hb => ⟨⟨hb.1, ?_⟩, hb⟩⟩
    exact (hused b ((h.mem_held hi).mpr hb)).1
  rw [hperm.length_eq, List.length_append, Tables.held, List.length_map, List.length_range]

end Unlink

end SengOs.Fs

namespace SengOs.Shell

open ByteMemory CString Fs FileStore

/-- Some descriptor is on the file called `name`. -/
def OpenSomewhere (s : FsState) (name : CString) : Prop :=
  ∃ i, NamedFile s.ramdisk name i ∧ ∃ n, s.IsOpen n ∧ (s.fds n).inode = i

/-- `write` gives up on the file called `name` before it has removed or created anything. -/
def Refused (s : FsState) (name : CString) : Prop :=
  FileExists s.ramdisk name ∧ (OpenSomewhere s name ∨ ∀ n < 32, s.IsOpen n) ∨
  ¬FileExists s.ramdisk name ∧ fileCount s.ramdisk = 63

/-- The number of blocks of the file called `name`, which its removal frees. -/
def blocksHeld (m : Mem) (name : CString) : Nat :=
  match findDirent m name with
  | none => 0
  | some d => blockCount m (direntInode m d)

/-- How much a new file called `name` can hold once the old one is removed. -/
def roomFor (m : Mem) (name : CString) : Nat :=
  min 32768 (4096 * ((clearBlocks m).length + blocksHeld m name))

section Removal

variable {s : FsState} {name : CString}

theorem blocksHeld_of_missing (h : Sound (view s.ramdisk) s.fds)
    (hnone : ¬FileExists s.ramdisk name) : blocksHeld s.ramdisk name = 0 := by
  have hfind : findDirent s.ramdisk name = none := by
    rw [findDirent_none h.terminated]
    exact fun d hd hu hstr => hnone (h.fileExists_iff.mpr ⟨d, ⟨hd, hu⟩, hstr⟩)
  rw [blocksHeld, hfind]

theorem blocksHeld_of_entry (h : Sound (view s.ramdisk) s.fds) {d : Nat}
    (hd : (view s.ramdisk).IsEntry d) (hstr : ((view s.ramdisk).dirent d).str = name.bytes) :
    blocksHeld s.ramdisk name = blocksOf ((view s.ramdisk).inode
      ((view s.ramdisk).dirent d).inode).size := by
  have hfile := h.entry_file d hd
  cases hfind : findDirent s.ramdisk name with
  | none => exact absurd hstr ((findDirent_none h.terminated).mp hfind d hd.1 hd.2)
  | some e =>
    obtain ⟨he, hu, hname⟩ := findDirent_some h.terminated hfind
    cases h.name_inj e d ⟨he, hu⟩ hd (hname.trans hstr.symm)
    rw [blocksHeld, hfind]
    dsimp only
    rw [direntInode_eq he, blockCount_eq h hfile, inodeSize_eq hfile.2.1]

theorem openSomewhere_iff (h : Sound (view s.ramdisk) s.fds) {d : Nat}
    (hd : (view s.ramdisk).IsEntry d) (hstr : ((view s.ramdisk).dirent d).str = name.bytes) :
    OpenSomewhere s name ↔
      ∃ n, s.IsOpen n ∧ (s.fds n).inode = ((view s.ramdisk).dirent d).inode := by
  have hself := h.hasFile_of_entry hd
  rw [hstr] at hself
  constructor
  · intro ⟨i, hi, n, hn, hni⟩
    exact ⟨n, hn, hni.trans (h.hasFile_unique (h.namedFile_iff.mp hi) hself)⟩
  · intro ⟨n, hn, hni⟩
    exact ⟨_, h.namedFile_iff.mpr hself, n, hn, hni⟩

/-- A refused `write` removes nothing, and then cannot create the file. -/
theorem removeOld_of_refused (h : Sound (view s.ramdisk) s.fds) (hname : ¬InvalidName name)
    (hr : Refused s name) : removeOld s name = s ∧ (fsCreate s (some name)).1 < 0 := by
  rcases hr with ⟨hex, hbusy⟩ | ⟨hnone, hfull⟩
  · constructor
    · rw [removeOld_eq h]
      split
      · rename_i hopen
        rcases hbusy with huse | hall
        · exact h.unchanged (c := .unlink name)
            (by rw [result, (h.unlinkCodes name).inUse.mpr huse]; decide)
        · rw [(h.openCodes name).full.mpr ⟨hex, hall⟩] at hopen
          exact absurd hopen (by decide)
      · rfl
    · rw [(h.createCodes name).duplicate.mpr ⟨hname, hex⟩]
      decide
  · constructor
    · rw [removeOld_eq h, fsOpen_of_missing h hnone]
      rfl
    · rw [(h.createCodes name).full.mpr ⟨hname, hnone, hfull⟩]
      decide

/-- What the removal leaves when the `write` is not refused. -/
structure Removed (s : FsState) (name : CString) (s' : FsState) : Prop where
  sound : Sound (view s'.ramdisk) s'.fds
  fds : s'.fds = s.fds
  abs : s'.abs = s.abs.setFile name.bytes none
  room : (view s'.ramdisk).freeList.length =
    (clearBlocks s.ramdisk).length + blocksHeld s.ramdisk name
  creates : 0 ≤ (fsCreate s' (some name)).1

theorem removed_of_not_refused (h : Sound (view s.ramdisk) s.fds) (hname : ¬InvalidName name)
    (hr : ¬Refused s name) : Removed s name (removeOld s name) := by
  obtain ⟨hbusy, hfull⟩ := not_or.mp hr
  by_cases hex : FileExists s.ramdisk name
  · obtain ⟨hclosed, hfree⟩ := not_or.mp fun hor => hbusy ⟨hex, hor⟩
    obtain ⟨n, hn, hnopen⟩ := by simpa only [not_forall, exists_prop] using hfree
    have hopen := (h.openCodes name).opened hex ⟨n, hn, hnopen⟩
    obtain ⟨d, hd, hstr⟩ := h.fileExists_iff.mp hex
    have hfile := h.entry_file d hd
    have hclosed' : ∀ k, s.IsOpen k → (s.fds k).inode ≠ ((view s.ramdisk).dirent d).inode :=
      fun k hk hki => hclosed ((openSomewhere_iff h hd hstr).mpr ⟨k, hk, hki⟩)
    obtain ⟨hzero, -, hview⟩ := fsUnlink_of_entry h hd hstr hclosed'
    obtain ⟨hsound, hfds, habs⟩ := fsUnlink_files h hzero
    rw [removeOld_eq h, if_pos hopen]
    refine ⟨hsound, hfds, habs, ?_, ?_⟩
    · rw [hview, length_freeList_unlink h hfile, clearBlocks_eq, blocksHeld_of_entry h hd hstr]
    · exact fsCreate_succeeds hsound hname (not_fileExists_of_abs hsound habs)
        (fileCount_ne_of_unlinked hsound hfile hview)
  · have hroom : fileCount s.ramdisk ≠ 63 := fun heq => hfull ⟨hex, heq⟩
    have hnone := not_not.mp ((fileExists_iff_files h).not.mp hex)
    have hsame : removeOld s name = s := by
      rw [removeOld_eq h, fsOpen_of_missing h hex]
      rfl
    rw [hsame]
    refine ⟨h, rfl, (setFile_of_eq hnone).symm, ?_, ?_⟩
    · rw [clearBlocks_eq, blocksHeld_of_missing h hex, Nat.add_zero]
    · exact fsCreate_succeeds h hname hex hroom

end Removal

/-! ## The command -/

section Command

variable {s : FsState} {args : CString}

theorem cmdFsWrite_of_refused (h : Sound (view s.ramdisk) s.fds)
    (hname : (parseWrite args).1.bytes ≠ []) (htext : (parseWrite args).2.bytes ≠ [])
    (hr : Refused s (parseWrite args).1) : (cmdFsWrite s args).2 = s := by
  obtain ⟨hsame, hcreate⟩ := removeOld_of_refused h (not_invalidName_parseWrite hname) hr
  rw [cmdFsWrite_of_parsed hname htext]
  dsimp only
  rw [hsame, if_pos hcreate]
  exact h.unchanged (c := .create (some (parseWrite args).1)) hcreate

/-- Without a free descriptor the new file stays empty. -/
theorem cmdFsWrite_of_full (h : Sound (view s.ramdisk) s.fds)
    (hname : (parseWrite args).1.bytes ≠ []) (htext : (parseWrite args).2.bytes ≠ [])
    (hr : ¬Refused s (parseWrite args).1) (hfull : ∀ n < 32, s.IsOpen n) :
    (cmdFsWrite s args).2.fds = s.fds ∧
      (cmdFsWrite s args).2.abs = s.abs.setFile (parseWrite args).1.bytes (some []) := by
  obtain ⟨hsound, hfds, habs, -, hcreate⟩ :=
    removed_of_not_refused h (not_invalidName_parseWrite hname) hr
  rw [cmdFsWrite_of_parsed hname htext]
  dsimp only
  rw [if_neg hcreate.not_gt]
  generalize (parseWrite args).1 = name at *
  obtain ⟨hsound', hfds', habs', -⟩ := fsCreate_files hsound hcreate
  generalize fsCreate (removeOld s name) (some name) = created at *
  have hopen : (fsOpen created.2 name).1 = -2 := by
    refine (hsound'.openCodes name).full.mpr ⟨?_, fun n hn => ⟨hn, ?_⟩⟩
    · rw [fileExists_iff_files hsound', habs', setFile_files_self]
      exact nofun
    · rw [hfds', hfds]
      exact (hfull n hn).2
  have hsame : (fsOpen created.2 name).2 = created.2 :=
    hsound'.unchanged (c := .open name) (by rw [result, hopen]; decide)
  rw [if_pos (by rw [hopen]; decide), hsame]
  exact ⟨hfds'.trans hfds, by rw [habs', habs, setFile_setFile]⟩

/-- With a free descriptor the new file holds as much of the text as there is room for. -/
theorem cmdFsWrite_of_free (h : Sound (view s.ramdisk) s.fds)
    (hname : (parseWrite args).1.bytes ≠ []) (htext : (parseWrite args).2.bytes ≠ [])
    (hr : ¬Refused s (parseWrite args).1) (hfree : ∃ n < 32, ¬s.IsOpen n) :
    (cmdFsWrite s args).2.fds = s.fds ∧
      (cmdFsWrite s args).2.abs = s.abs.setFile (parseWrite args).1.bytes
        (some ((parseWrite args).2.bytes.take (roomFor s.ramdisk (parseWrite args).1))) := by
  obtain ⟨hsound, hfds, habs, hroom, hcreate⟩ :=
    removed_of_not_refused h (not_invalidName_parseWrite hname) hr
  rw [cmdFsWrite_of_parsed hname htext]
  dsimp only
  rw [if_neg hcreate.not_gt]
  generalize (parseWrite args).1 = name at *
  generalize (parseWrite args).2 = text at *
  obtain ⟨hsound', hfds', habs', hlist⟩ := fsCreate_files hsound hcreate
  generalize fsCreate (removeOld s name) (some name) = created at *
  have hfile : created.2.abs.files name.bytes = some [] := by
    rw [habs', setFile_files_self]
  have hfree' : ∃ n < 32, ¬created.2.IsOpen n := by
    obtain ⟨n, hn, hclosed⟩ := hfree
    refine ⟨n, hn, fun hopen => hclosed ⟨hn, ?_⟩⟩
    rw [← hfds, ← hfds']
    exact hopen.2
  obtain ⟨n, r, s₁, s₂, s₃, hopen, hwrite, hclose, -, hfds₃, habs₃, hcount⟩ :=
    writeFile_of_empty hsound' hfile hfree' text
  have htake : text.bytes.take r = text.bytes.take (roomFor s.ramdisk name) := by
    rw [hcount, hlist, hroom, ← roomFor, Nat.min_comm]
    exact List.take_eq_take_min.symm
  rw [hopen]
  dsimp only
  rw [if_neg (Int.natCast_nonneg n).not_gt, hwrite]
  dsimp only
  rw [hclose, if_neg (Int.natCast_nonneg r).not_gt]
  refine ⟨(hfds₃.trans hfds').trans hfds, ?_⟩
  dsimp only
  rw [habs₃, habs', habs, setFile_setFile, setFile_setFile, htake]

end Command

/-! ## Replacing atomically -/

/-- From `s` to `s'` the file that the argument names was replaced by the whole text, or
nothing was changed; either way the descriptors are as before. -/
def ReplacesAtomically (s : FsState) (args : CString) (s' : FsState) : Prop :=
  s'.fds = s.fds ∧
    (s'.abs.files (tok args) = some (textBehind args) ∧
        (∀ n, n ≠ tok args → s'.abs.files n = s.abs.files n) ∨
      ∀ n, s'.abs.files n = s.abs.files n)

/-- The states before the command in which it replaces its file atomically: it stops at once,
or a descriptor is free and the whole text fits, or the file already held just the part of
the text that fits. -/
def CanReplace (s : FsState) (args : CString) : Prop :=
  (parseWrite args).1.bytes = [] ∨ (parseWrite args).2.bytes = [] ∨
    Refused s (parseWrite args).1 ∨
    (∃ n < 32, ¬s.IsOpen n) ∧
      ((tok args).length < 24 ∧
          (parseWrite args).2.bytes.length ≤ roomFor s.ramdisk (parseWrite args).1 ∨
        s.abs.files (parseWrite args).1.bytes =
          some ((parseWrite args).2.bytes.take (roomFor s.ramdisk (parseWrite args).1)))

section Atomic

variable {s s' : FsState} {args : CString}

theorem ReplacesAtomically.same (s : FsState) (args : CString) : ReplacesAtomically s args s :=
  ⟨rfl, Or.inr fun _ => rfl⟩

/-- A name that `fs_create` does not accept is the name of no file. -/
theorem files_of_long (h : Sound (view s.ramdisk) s.fds) {n : List Byte} (hn : 24 ≤ n.length) :
    s.abs.files n = none := by
  refine h.files_eq_none_iff.mpr fun i hi => ?_
  obtain ⟨d, hd, hstr, -⟩ := h.hasFile_iff.mp hi
  have hle := h.name_le d hd
  rw [hstr] at hle
  omega

/-- A change of the file that was parsed replaces the named file exactly if the name was not
cut and the content is the whole text. -/
theorem replacesAtomically_setFile (h : Sound (view s.ramdisk) s.fds)
    (hfds : s'.fds = s.fds) {c : List Byte}
    (habs : s'.abs = s.abs.setFile (parseWrite args).1.bytes (some c)) :
    ReplacesAtomically s args s' ↔
      (tok args).length < 24 ∧ c = (parseWrite args).2.bytes ∨
        s.abs.files (parseWrite args).1.bytes = some c := by
  have hsame : (∀ n, s'.abs.files n = s.abs.files n) ↔
      s.abs.files (parseWrite args).1.bytes = some c := by
    constructor
    · intro hall
      rw [← hall, habs, setFile_files_self]
    · intro hc n
      rw [habs, setFile_of_eq hc]
  unfold ReplacesAtomically
  rw [hsame, and_iff_right hfds]
  refine or_congr_left' fun hne => ?_
  rcases Nat.lt_or_ge (tok args).length 24 with hshort | hlong
  · obtain ⟨hname, hrest⟩ := parseWrite_of_short hshort
    rw [← hname, ← hrest, habs, setFile_files_self, Option.some_inj]
    exact ⟨fun hw => ⟨hname ▸ hshort, hw.1⟩, fun hw => ⟨hw.2, fun n hn => setFile_files_ne hn⟩⟩
  · obtain ⟨-, hcut, -⟩ := parseWrite_of_long hlong
    rw [habs, setFile_files_ne hcut.symm, files_of_long h hlong]
    exact iff_of_false (fun hw => nomatch hw.1) fun hw => absurd hw.1 (by omega)

theorem replacesAtomically_iff (h : Sound (view s.ramdisk) s.fds) (args : CString) :
    ReplacesAtomically s args (cmdFsWrite s args).2 ↔ CanReplace s args := by
  unfold CanReplace
  by_cases hname : (parseWrite args).1.bytes = []
  · rw [cmdFsWrite_of_usage (Or.inl hname)]
    exact iff_of_true (.same s args) (Or.inl hname)
  by_cases htext : (parseWrite args).2.bytes = []
  · rw [cmdFsWrite_of_usage (Or.inr htext)]
    exact iff_of_true (.same s args) (Or.inr (Or.inl htext))
  by_cases hr : Refused s (parseWrite args).1
  · rw [cmdFsWrite_of_refused h hname htext hr]
    exact iff_of_true (.same s args) (Or.inr (Or.inr (Or.inl hr)))
  rw [or_iff_right hname, or_iff_right htext, or_iff_right hr]
  by_cases hfree : ∃ n < 32, ¬s.IsOpen n
  · obtain ⟨hfds, habs⟩ := cmdFsWrite_of_free h hname htext hr hfree
    rw [and_iff_right hfree, replacesAtomically_setFile h hfds habs]
    refine or_congr_left (and_congr_right fun _ => ?_)
    rw [List.take_eq_self_iff]
  · have hall : ∀ n < 32, s.IsOpen n := by
      simpa only [not_exists, not_and, not_not] using hfree
    obtain ⟨hfds, habs⟩ := cmdFsWrite_of_full h hname htext hr hall
    rw [replacesAtomically_setFile h hfds habs]
    refine iff_of_false (fun hw => ?_) fun hw => hfree hw.1
    rcases hw with hw | hw
    · exact htext hw.2.symm
    · have hex : FileExists s.ramdisk (parseWrite args).1 := by
        rw [fileExists_iff_files h, hw]
        exact nofun
      exact hr (Or.inl ⟨hex, Or.inr hall⟩)

end Atomic

/-- In every state of a run, `write` with any argument replaces its file atomically exactly
under the condition. -/
theorem write_atomic_iff (s₀ : FsState) (calls : List Call) (args : CString) :
    ReplacesAtomically (runCalls (fsInit s₀) calls) args
        (cmdFsWrite (runCalls (fsInit s₀) calls) args).2 ↔
      CanReplace (runCalls (fsInit s₀) calls) args :=
  replacesAtomically_iff (sound_run s₀ calls) args

/-! ### A full table of descriptors -/

section Full

variable {s : FsState} {name : CString}

/-- Opening a file `m` times takes at least the first `m` descriptors. -/
theorem isOpen_after_opens (h : Sound (view s.ramdisk) s.fds) (hex : FileExists s.ramdisk name)
    (m : Nat) : (runCalls s (List.replicate m (.open name))).ramdisk = s.ramdisk ∧
      ∀ k < m, k < 32 → (runCalls s (List.replicate m (.open name))).IsOpen k := by
  induction m with
  | zero => exact ⟨rfl, nofun⟩
  | succ m ih =>
    obtain ⟨hdisk, hopen⟩ := ih
    have hsound := h.runCalls (List.replicate m (.open name))
    rw [List.replicate_succ', runCalls_append]
    generalize runCalls s (List.replicate m (.open name)) = s' at *
    obtain ⟨d, hd, hstr⟩ := h.fileExists_iff.mp hex
    rw [← hdisk] at hd hstr
    show (fsOpen s' name).2.ramdisk = _ ∧ ∀ k < m + 1, k < 32 → (fsOpen s' name).2.IsOpen k
    rcases fsOpen_cases hsound name with ⟨-, hnone⟩ | ⟨e, -, -, ⟨heq, hall⟩ |
      ⟨n, heq, hn, hclosed, hlow⟩⟩
    · exact absurd hstr (hnone d hd)
    · rw [heq]
      exact ⟨hdisk, fun k _ hk => hall k hk⟩
    · rw [heq]
      refine ⟨hdisk, fun k hk hk' => ?_⟩
      rcases eq_or_ne k n with rfl | hkn
      · exact isOpen_opened hn _
      · have hold : s'.IsOpen k := by
          rcases Nat.lt_or_ge k m with hlt | hge
          · exact hopen k hlt hk'
          · have hlt : k < n := by
              refine lt_of_le_of_ne (not_lt.mp fun hnk => ?_) hkn
              exact hclosed (hopen n (by omega) hn)
            exact hlow k hlt
        exact ⟨hk', by rw [FsState.setFd_fds, Function.update_of_ne hkn]; exact hold.2⟩

/-- The state after `fs_init`, the creation of a file and 32 `fs_open` of it. -/
theorem full_after_opens (s₀ : FsState) (hname : ¬InvalidName name) {calls : List Call}
    (hcalls : calls = List.replicate 32 (.open name)) :
    (∀ k < 32, (runCalls (fsInit s₀) (.create (some name) :: calls)).IsOpen k) ∧
      (runCalls (fsInit s₀) (.create (some name) :: calls)).abs.files =
        Function.update (fun _ => none) name.bytes (some []) := by
  have hcreate := fsCreate_fsInit s₀ hname
  obtain ⟨hsound, -, habs, -⟩ := fsCreate_files (sound_fsInit s₀) hcreate
  rw [abs_fsInit] at habs
  have hex : FileExists (fsCreate (fsInit s₀) (some name)).2.ramdisk name := by
    rw [fileExists_iff_files hsound, habs, setFile_files_self]
    exact nofun
  obtain ⟨hdisk, hopen⟩ := isOpen_after_opens hsound hex 32
  have hrun : runCalls (fsInit s₀) (.create (some name) :: calls) =
      runCalls (fsCreate (fsInit s₀) (some name)).2 calls := rfl
  rw [← hcalls] at hdisk hopen
  rw [hrun]
  refine ⟨fun k hk => hopen k hk hk, ?_⟩
  have hfiles : ∀ s : FsState, s.abs.files = (view s.ramdisk).files := fun _ => rfl
  rw [hfiles, hdisk, ← hfiles, habs]
  rfl

/-- With a single file `fs_create` has room. -/
theorem fileCount_ne_of_single (h : Sound (view s.ramdisk) s.fds) {n : List Byte}
    (hfiles : s.abs.files = Function.update (fun _ => none) n (some [])) :
    fileCount s.ramdisk ≠ 63 := by
  rw [Ne, h.fileCount_eq_iff]
  intro hall
  have hone : ∀ i, (view s.ramdisk).IsFile i → ((view s.ramdisk).inode i).str = n := by
    intro i hi
    by_contra hne
    have hfile := h.files_of_hasFile ⟨hi, rfl⟩
    change s.abs.files _ = _ at hfile
    rw [hfiles, Function.update_of_ne hne] at hfile
    cases hfile
  have h1 := hall 1 (by decide) (by decide)
  have h2 := hall 2 (by decide) (by decide)
  exact absurd (h.hasFile_unique ⟨h1, hone 1 h1⟩ ⟨h2, hone 2 h2⟩) (by decide)

end Full

/-- `write b x` with all descriptors on another file creates `b` and leaves it empty. -/
theorem write_leaves_empty_file :
    ¬ReplacesAtomically
      (runCalls (fsInit ⟨fun _ => 0, fun _ => File.zero⟩)
        (.create (some rootName) :: List.replicate 32 (.open rootName)))
      ⟨chars "b x", by decide⟩
      (cmdFsWrite (runCalls (fsInit ⟨fun _ => 0, fun _ => File.zero⟩)
        (.create (some rootName) :: List.replicate 32 (.open rootName)))
        ⟨chars "b x", by decide⟩).2 := by
  obtain ⟨hall, hfiles⟩ :=
    full_after_opens ⟨fun _ => 0, fun _ => File.zero⟩ not_invalidName_rootName rfl
  have h := sound_run ⟨fun _ => 0, fun _ => File.zero⟩
    (.create (some rootName) :: List.replicate 32 (.open rootName))
  rw [replacesAtomically_iff h]
  generalize runCalls (fsInit ⟨fun _ => 0, fun _ => File.zero⟩)
    (.create (some rootName) :: List.replicate 32 (.open rootName)) = s at *
  have hmissing : ¬FileExists s.ramdisk (parseWrite ⟨chars "b x", by decide⟩).1 := by
    rw [fileExists_iff_files h, hfiles, Function.update_of_ne (by decide)]
    exact not_not.mpr rfl
  intro hcan
  rcases hcan with hname | htext | hr | ⟨⟨n, hn, hclosed⟩, -⟩
  · exact absurd hname (by decide)
  · exact absurd htext (by decide)
  · rcases hr with ⟨hex, -⟩ | ⟨-, hfull⟩
    · exact hmissing hex
    · exact fileCount_ne_of_single h hfiles hfull
  · exact hclosed (hall n hn)

end SengOs.Shell
