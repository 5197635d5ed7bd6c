import Mathlib.Data.Set.Function
import SengOs.Fs.Run

/-!
# What holds in every run of the file system

The theorems of this module are about the state after `fs_init` and any calls with any
arguments, whatever memory held before. They speak of the bytes on the disk as `fs.c` reads
them.
-/

namespace SengOs.Fs

open ByteMemory CString FileStore

/-- `inodes[i].used && inodes[i].type == FS_FILE` -/
def UsedFile (m : Mem) (i : Nat) : Prop :=
  i < 64 ∧ inodeUsed m i ≠ 0 ∧ inodeType m i = fsFile

/-- `root_dir[d].used` -/
def UsedEntry (m : Mem) (d : Nat) : Prop := d < 128 ∧ direntUsed m d ≠ 0

section Tables

variable {m : Mem}

theorem InodeSound.used_iff (h : InodeSound (view m)) {i : Nat} (hi : i < 64) :
    inodeUsed m i ≠ 0 ↔ inodeUsed m i = 1 := by
  rw [inodeUsed_eq hi]
  refine ⟨fun hu => not_not.mp fun hne => hu ?_, fun hu => by rw [hu]; decide⟩
  rw [h.free_inode i hi hne]
  rfl

theorem InodeSound.usedFile_iff (h : InodeSound (view m)) {i : Nat} :
    UsedFile m i ↔ (view m).IsFile i := by
  constructor
  · rintro ⟨hi, hu, ht⟩
    have hu := (h.used_iff hi).mp hu
    rw [inodeUsed_eq hi] at hu
    refine ⟨Nat.pos_of_ne_zero ?_, hi, hu⟩
    rintro rfl
    rw [inodeType_eq hi, h.root_dir] at ht
    exact absurd ht (by decide)
  · intro hf
    refine ⟨hf.2.1, ?_, (inodeType_eq hf.2.1).trans (h.file_type i hf)⟩
    rw [inodeUsed_eq hf.2.1, hf.2.2]
    decide

theorem usedEntry_iff {d : Nat} : UsedEntry m d ↔ (view m).IsEntry d :=
  and_congr_right fun hd => by rw [direntUsed_eq hd]

end Tables

/-! ## Refinement -/

/-- Every run refines a run of the abstract store from the empty store, and in its state every
further call that succeeds is one step of the store, while a call that fails changes
nothing. -/
theorem fs_refines_fileStore (s₀ : FsState) (calls : List Call) :
    Run fsLimits FileStore.empty (trace (fsInit s₀) calls) (runCalls (fsInit s₀) calls).abs ∧
    Wf fsLimits (runCalls (fsInit s₀) calls).abs ∧
    ∀ c : Call,
      (∀ e, outcome (runCalls (fsInit s₀) calls) c = some e →
        Step fsLimits (runCalls (fsInit s₀) calls).abs e
          (exec (runCalls (fsInit s₀) calls) c).abs) ∧
      (outcome (runCalls (fsInit s₀) calls) c = none →
        exec (runCalls (fsInit s₀) calls) c = runCalls (fsInit s₀) calls) := by
  have h := sound_run s₀ calls
  refine ⟨?_, h.wf, fun c => ⟨(refines_exec h c).step, (refines_exec h c).same⟩⟩
  rw [← abs_fsInit s₀]
  exact run_of_sound (sound_fsInit s₀) calls

/-! ## Blocks -/

/-- Pointers are data blocks, no block is pointed to twice, and the block bitmap marks exactly
the metadata blocks and the blocks pointed to. -/
structure BlockAccounting (m : Mem) : Prop where
  pointer_range : ∀ i k, UsedFile m i → k < 8 → inodeBlock m i k ≠ 0 →
    5 ≤ inodeBlock m i k ∧ inodeBlock m i k < 256
  pointer_unique : ∀ i k j l, UsedFile m i → UsedFile m j → k < 8 → l < 8 →
    inodeBlock m i k ≠ 0 → inodeBlock m i k = inodeBlock m j l → i = j ∧ k = l
  bitmap_exact : ∀ b, b < 256 → (bitTest m blockBitmap b = true ↔
    b < 5 ∨ ∃ i k, UsedFile m i ∧ k < 8 ∧ inodeBlock m i k = b)

theorem Sound.blockAccounting {s : FsState} (h : Sound (view s.ramdisk) s.fds) :
    BlockAccounting s.ramdisk := by
  constructor <;> simp only [h.usedFile_iff]
  · intro i k hi hk
    rw [inodeBlock_eq hi.2.1 hk]
    exact h.block_range i k hi hk
  · intro i k j l hi hj hk hl
    rw [inodeBlock_eq hi.2.1 hk, inodeBlock_eq hj.2.1 hl]
    exact h.block_inj i k j l hi hj hk hl
  · intro b hb
    rw [bitTest_blockBitmap hb, h.blockBit_iff b hb]
    refine or_congr_right (exists₂_congr fun i k => and_congr_right fun hi => ?_)
    exact and_congr_right fun hk => by rw [inodeBlock_eq hi.2.1 hk]

theorem block_accounting_exact (s₀ : FsState) (calls : List Call) :
    BlockAccounting (runCalls (fsInit s₀) calls).ramdisk :=
  (sound_run s₀ calls).blockAccounting

/-! ## Directory and inodes -/

/-- The inode bitmap, the inode table and the directory agree. -/
structure DirectoryAgrees (m : Mem) : Prop where
  bitmap_exact : ∀ i, i < 64 → (bitTest m inodeBitmap i = true ↔ inodeUsed m i = 1)
  root_used : inodeUsed m 0 = 1
  root_dir : inodeType m 0 = fsDir
  root_unlisted : ∀ d, UsedEntry m d → direntInode m d ≠ 0
  entry_file : ∀ d, UsedEntry m d → UsedFile m (direntInode m d)
  bijection : Set.BijOn (direntInode m) {d | UsedEntry m d}
    {i | 1 ≤ i ∧ i < 64 ∧ inodeUsed m i = 1}
  name : ∀ d, UsedEntry m d → ∃ n : CString, n.bytes ≠ [] ∧ n.bytes.length ≤ 23 ∧
    Spells (direntName m d) n.bytes ∧ Spells (inodeName m (direntInode m d)) n.bytes
  name_unique : ∀ d e, ∀ n : CString, UsedEntry m d → UsedEntry m e →
    Spells (direntName m d) n.bytes → Spells (direntName m e) n.bytes → d = e
  free_inode : ∀ i, i < 64 → inodeUsed m i ≠ 1 →
    ∀ a, inodeAddr i ≤ a → a < inodeAddr i + sizeofInode → m a = 0
  free_dirent : ∀ d, d < 128 → direntUsed m d = 0 →
    ∀ a, direntAddr d ≤ a → a < direntAddr d + sizeofDirent → m a = 0

section Names

variable {m : Mem}

theorem spells_direntName (h : DirSound (view m)) {d : Nat} (hd : (view m).IsEntry d) :
    Spells (direntName m d) ((view m).dirent d).str := by
  have hlen := h.name_le d hd
  exact (spells_congr fun j hj => direntName_eq hd.1 (by omega)).mpr
    (spells_read (show ((view m).dirent d).str.length < 29 by omega))

theorem str_inode {i : Nat} (hi : i < 64) :
    ((view m).inode i).str = CString.read (inodeName m i) 24 := by
  rw [Inode.str, view_inode hi]
  exact read_congr fun j hj => if_pos hj

theorem spells_inodeName (h : DirSound (view m)) {d : Nat} (hd : (view m).IsEntry d) :
    Spells (inodeName m ((view m).dirent d).inode) ((view m).dirent d).str := by
  have hlen := h.name_le d hd
  rw [← h.name_inode d hd, str_inode (h.entry_file d hd).2.1] at hlen ⊢
  exact spells_read (by omega)

end Names

theorem Sound.directoryAgrees {s : FsState} (h : Sound (view s.ramdisk) s.fds) :
    DirectoryAgrees s.ramdisk := by
  have hentries : {d | UsedEntry s.ramdisk d} = {d | (view s.ramdisk).IsEntry d} :=
    Set.ext fun d => usedEntry_iff
  refine ⟨fun i hi => ?_, (inodeUsed_eq (by decide)).trans h.root_used,
    (inodeType_eq (by decide)).trans h.root_dir, fun d hd => ?_, fun d hd => ?_, ?_,
    fun d hd => ?_, fun d e n hd he hnd hne => ?_, fun i hi hu a => ?_, fun d hd hu a => ?_⟩
  · rw [bitTest_inodeBitmap hi, inodeUsed_eq hi]
    exact h.inodeBit_iff i hi
  · rw [direntInode_eq hd.1]
    have := (h.entry_file d (usedEntry_iff.mp hd)).1
    omega
  · rw [direntInode_eq hd.1]
    exact h.usedFile_iff.mpr (h.entry_file d (usedEntry_iff.mp hd))
  · rw [hentries]
    refine ⟨fun d hd => ?_, fun d hd e he heq => ?_, fun i hi => ?_⟩
    · rw [direntInode_eq hd.1]
      have hf := h.entry_file d hd
      exact ⟨hf.1, hf.2.1, (inodeUsed_eq hf.2.1).trans hf.2.2⟩
    · rw [direntInode_eq hd.1, direntInode_eq he.1] at heq
      exact h.entry_inj d e hd he heq
    · obtain ⟨d, hd, hdi⟩ := h.file_entry i ⟨hi.1, hi.2.1, (inodeUsed_eq hi.2.1).symm.trans hi.2.2⟩
      exact ⟨d, hd, (direntInode_eq hd.1).trans hdi⟩
  · have hd := usedEntry_iff.mp hd
    rw [direntInode_eq hd.1]
    exact ⟨⟨((view s.ramdisk).dirent d).str, read_ne_zero _ _⟩, h.name_pos d hd, h.name_le d hd,
      spells_direntName h.toDirSound hd, spells_inodeName h.toDirSound hd⟩
  · have hstr : ∀ {d}, (view s.ramdisk).IsEntry d → Spells (direntName s.ramdisk d) n.bytes →
        ((view s.ramdisk).dirent d).str = n.bytes := fun hd hnd =>
      spells_unique (read_ne_zero _ _) n.noNul (spells_direntName h.toDirSound hd) hnd
    have hd := usedEntry_iff.mp hd
    have he := usedEntry_iff.mp he
    exact h.name_inj d e hd he ((hstr hd hnd).trans (hstr he hne).symm)
  · rw [inodeUsed_eq hi] at hu
    exact byte_of_inodeAt_zero ((view_inode hi).symm.trans (h.free_inode i hi hu))
  · rw [direntUsed_eq hd] at hu
    exact byte_of_direntAt_zero ((view_dirent hd).symm.trans (h.free_dirent d hd hu))

theorem directory_agrees (s₀ : FsState) (calls : List Call) :
    DirectoryAgrees (runCalls (fsInit s₀) calls).ramdisk :=
  (sound_run s₀ calls).directoryAgrees

/-! ## Descriptors and extents -/

/-- Open descriptors are on files at offsets within them, and files have neither holes nor
blocks past their end. -/
structure DescriptorsSound (s : FsState) : Prop where
  descriptor : ∀ n, s.IsOpen n → 1 ≤ (s.fds n).inode ∧ UsedFile s.ramdisk (s.fds n).inode ∧
    (s.fds n).offset ≤ inodeSize s.ramdisk (s.fds n).inode ∧
    inodeSize s.ramdisk (s.fds n).inode ≤ 32768
  extent : ∀ i k, UsedFile s.ramdisk i → k < 8 →
    (inodeBlock s.ramdisk i k ≠ 0 ↔ k * 4096 < inodeSize s.ramdisk i)
  tail_zero : ∀ i k o, UsedFile s.ramdisk i → k < 8 → inodeBlock s.ramdisk i k ≠ 0 → o < 4096 →
    inodeSize s.ramdisk i ≤ k * 4096 + o → s.ramdisk (inodeBlock s.ramdisk i k * 4096 + o) = 0

/-- Descriptor `n` is on the same file in `s'` as in `s`. -/
structure SameFile (s s' : FsState) (n : Nat) : Prop where
  isOpen : s'.IsOpen n
  inode : (s'.fds n).inode = (s.fds n).inode
  name : CString.read (inodeName s'.ramdisk (s'.fds n).inode) 24 =
    CString.read (inodeName s.ramdisk (s.fds n).inode) 24

theorem Sound.descriptorsSound {s : FsState} (h : Sound (view s.ramdisk) s.fds) :
    DescriptorsSound s := by
  constructor <;> simp only [h.usedFile_iff]
  · intro n hn
    have hf := h.fd_sound n hn.1
    have hi := hf.file hn.2
    rw [inodeSize_eq hi.2.1]
    exact ⟨hi.1, hi, hf.offset hn.2, h.size_le _ hi⟩
  · intro i k hi hk
    rw [inodeBlock_eq hi.2.1 hk, inodeSize_eq hi.2.1]
    exact h.block_iff i k hi hk
  · intro i k o hi hk hne ho hsize
    rw [inodeBlock_eq hi.2.1 hk] at hne ⊢
    rw [inodeSize_eq hi.2.1] at hsize
    have hrange := h.block_range i k hi hk hne
    refine Eq.trans ?_ (h.tail_zero i k o hi hk hne ho hsize)
    exact (if_pos ⟨hrange.1, hrange.2, ho⟩).symm

/-- A call other than the `fs_close` of it leaves a descriptor on its inode. -/
theorem exec_fds {s : FsState} (h : Sound (view s.ramdisk) s.fds) {c : Call} {n : Nat}
    (hc : c ≠ .close n) (hn : s.IsOpen n) :
    (exec s c).IsOpen n ∧ ((exec s c).fds n).inode = (s.fds n).inode := by
  have hother : ∀ {k : Nat} {f : File}, n ≠ k →
      (s.setFd k f).IsOpen n ∧ ((s.setFd k f).fds n).inode = (s.fds n).inode := by
    intro k f hk
    have hfds : (s.setFd k f).fds n = s.fds n := Function.update_of_ne hk ..
    exact ⟨⟨hn.1, by rw [hfds]; exact hn.2⟩, by rw [hfds]⟩
  have hseek : ∀ k pos, (s.seek k pos).IsOpen n ∧
      ((s.seek k pos).fds n).inode = (s.fds n).inode := by
    intro k pos
    refine ⟨FsState.isOpen_seek hn, ?_⟩
    by_cases hk : n = k
    · subst hk
      simp [FsState.seek]
    · exact (hother hk).2
  cases c with
  | create name =>
    obtain ⟨heq, -⟩ | ⟨_, _, _, _, ⟨heq, -⟩ | ⟨_, ⟨heq, -⟩ | ⟨_, _, _, heq, _⟩⟩⟩ :=
      fsCreate_cases h name <;> rw [exec, heq] <;> exact ⟨hn, rfl⟩
  | «open» name =>
    obtain ⟨heq, -⟩ | ⟨_, _, _, ⟨heq, -⟩ | ⟨k, heq, _, hfree, _⟩⟩ := fsOpen_cases h name
    · rw [exec, heq]
      exact ⟨hn, rfl⟩
    · rw [exec, heq]
      exact ⟨hn, rfl⟩
    · rw [exec, heq]
      exact hother fun hk => hfree (hk ▸ hn)
  | read fd buf count =>
    obtain ⟨heq, -⟩ | ⟨k, _, _, _, _, heq⟩ := fsRead_cases h fd buf count
    · rw [exec, heq]
      exact ⟨hn, rfl⟩
    · rw [exec, heq]
      exact hseek _ _
  | write fd buf count =>
    obtain ⟨heq, -⟩ | ⟨k, r, _, s', _, _, _, heq, hw⟩ := fsWrite_cases h fd buf count
    · rw [exec, heq]
      exact ⟨hn, rfl⟩
    · rw [exec, heq, FsState.IsOpen, hw.fds]
      exact hseek _ _
  | close fd =>
    obtain ⟨heq, -⟩ | ⟨k, rfl, _, heq⟩ := fsClose_cases s fd
    · rw [exec, heq]
      exact ⟨hn, rfl⟩
    · rw [exec, heq]
      exact hother fun hk => hc (hk ▸ rfl)
  | unlink name =>
    obtain ⟨heq, -⟩ | ⟨_, _, _, _, _, ⟨heq, -⟩ | ⟨_, _, heq, _⟩⟩ := fsUnlink_cases h name <;>
      rw [exec, heq] <;> exact ⟨hn, rfl⟩
  | size fd => exact ⟨hn, rfl⟩

theorem SameFile.refl {s : FsState} {n : Nat} (hn : s.IsOpen n) : SameFile s s n :=
  ⟨hn, rfl, rfl⟩

theorem SameFile.trans {s s' s'' : FsState} {n : Nat} (h : SameFile s s' n)
    (h' : SameFile s' s'' n) : SameFile s s'' n :=
  ⟨h'.isOpen, h'.inode.trans h.inode, h'.name.trans h.name⟩

theorem outcome_ne_close {s : FsState} {c : Call} {n : Nat} (hc : c ≠ .close n)
    {e : Event (List Byte) Byte} (he : outcome s c = some e) : e ≠ .close n := by
  rintro rfl
  cases c with
  | close fd =>
    by_cases hbad : badFd s fd
    · rw [outcome, fsClose, if_pos hbad] at he
      cases he
    · obtain ⟨k, rfl, -⟩ := not_badFd_iff.mp hbad
      rw [outcome, fsClose, if_neg hbad] at he
      cases he
      exact hc rfl
  | create name => cases name <;> simp [outcome] at he
  | read fd buf count =>
    obtain ⟨out, -, he⟩ := Option.bind_eq_some_iff.mp he
    simp at he
  | write fd buf count =>
    obtain ⟨src, -, he⟩ := Option.bind_eq_some_iff.mp he
    simp at he
  | «open» name => simp [outcome] at he
  | unlink name => simp [outcome] at he
  | size fd => simp [outcome] at he

theorem sameFile_exec {s : FsState} (h : Sound (view s.ramdisk) s.fds) {c : Call} {n : Nat}
    (hc : c ≠ .close n) (hn : s.IsOpen n) : SameFile s (exec s c) n := by
  have hr := refines_exec h c
  obtain ⟨hopen, hino⟩ := exec_fds h hc hn
  refine ⟨hopen, hino, ?_⟩
  rw [← str_inode ((hr.sound.fd_sound n hn.1).file hopen.2).2.1,
    ← str_inode ((h.fd_sound n hn.1).file hn.2).2.1]
  cases ho : outcome s c with
  | none => rw [hr.same ho]
  | some e =>
    obtain ⟨off, hoff⟩ := (hr.step e ho).fds_name (outcome_ne_close hc ho) (isOpen_abs hn)
    exact (openFiles_eq_some_iff.mp hoff).2.1

/-- A descriptor stays on its file over all calls but its own `fs_close`. -/
theorem sameFile_runCalls {s : FsState} (h : Sound (view s.ramdisk) s.fds) {n : Nat}
    (hn : s.IsOpen n) {later : List Call} (hlater : ∀ c ∈ later, c ≠ .close n) :
    SameFile s (runCalls s later) n := by
  induction later generalizing s with
  | nil => exact .refl hn
  | cons c cs ih =>
    have hc := sameFile_exec h (hlater c (by simp)) hn
    exact hc.trans (ih (refines_exec h c).sound hc.isOpen fun c' hc' =>
      hlater c' (List.mem_cons_of_mem c hc'))

/-- Descriptors and extents are sound; an open descriptor stays on its file until it is
closed, its reads never meet a missing block, and neither its reads nor its writes fail. -/
theorem descriptors_sound (s₀ : FsState) (calls : List Call) :
    DescriptorsSound (runCalls (fsInit s₀) calls) ∧
    ∀ n, (runCalls (fsInit s₀) calls).IsOpen n →
      (∀ later : List Call, (∀ c ∈ later, c ≠ .close n) →
        SameFile (runCalls (fsInit s₀) calls) (runCalls (fsInit s₀) (calls ++ later)) n) ∧
      (∀ count, fsReadBreaks (runCalls (fsInit s₀) calls) n count = false) ∧
      (∀ buf count, (fsRead (runCalls (fsInit s₀) calls) n (some buf) count).1 ≠ -1) ∧
      ∀ buf count, (fsWrite (runCalls (fsInit s₀) calls) n (some buf) count).1 ≠ -1 := by
  have h := sound_run s₀ calls
  refine ⟨h.descriptorsSound, fun n hn => ⟨fun later hlater => ?_, fsReadBreaks_open h hn,
    fun buf count => ?_, fun buf count => ?_⟩⟩
  · rw [runCalls_append]
    exact sameFile_runCalls h hn hlater
  · rw [fsRead_open h hn]
    dsimp only
    omega
  · obtain ⟨r, s', heq, -⟩ := fsWrite_open h hn buf count
    rw [heq]
    dsimp only
    omega

end SengOs.Fs
