import SengOs.Fs.Content
import SengOs.Fs.Open

/-!
# `fs_init`

`fs_init` clears the whole disk and the open file table and then writes the superblock, the
marks of the metadata blocks and the root inode. Whatever was in memory before, the tables
are `Tables.initial` afterwards: a sound file system without a file.
-/

namespace SengOs.Fs

open ByteMemory

/-- The tables of a disk of zeros. -/
def Tables.blank : Tables :=
  ⟨fun _ => false, fun _ => false, fun _ => Inode.zero, fun _ => Dirent.zero, fun _ _ => 0⟩

def Inode.root : Inode :=
  { Inode.zero with
    used := 1
    type := fsDir
    blocks := Function.update (fun _ => 0) 0 4
    name := fun j => if j ≤ rootName.bytes.length then rootName.byteAt j else 0 }

/-- The tables that `fs_init` leaves. -/
def Tables.initial : Tables :=
  { blank with
    inodeBit := Function.update (fun _ => false) 0 true
    blockBit := fun b => decide (b < 5)
    inode := Function.update (fun _ => Inode.zero) 0 Inode.root }

theorem bitTest_of_zero {m : Mem} {map n : Nat} (h : m (map + n / 8) = 0) :
    bitTest m map n = false := by
  have hz : bitTest m map n = bitTest (fun _ => 0) map n := bitTest_congr h
  rw [hz, bitTest, Bitmap.test_eq_getLsbD (by decide)]
  exact BitVec.getLsbD_zero

theorem view_of_zeros {m : Mem} (h : ∀ a, a < 1024 * 1024 → m a = 0) : view m = Tables.blank := by
  apply Tables.ext
  · funext i
    by_cases hi : i < 64
    · simp only [view]
      rw [bitTest_of_zero (h _ (by simp only [inodeBitmap, fsBlockSize]; omega)), Bool.and_false]
      rfl
    · simp [view, hi, Tables.blank]
  · funext b
    by_cases hb : b < 256
    · simp only [view]
      rw [bitTest_of_zero (h _ (by simp only [blockBitmap, fsBlockSize]; omega)), Bool.and_false]
      rfl
    · simp [view, hb, Tables.blank]
  · funext i
    by_cases hi : i < 64
    · rw [view_inode hi]
      exact inodeAt_of_zeros fun a _ h₂ => h a (by rw [inodeAddr_eq] at h₂; omega)
    · exact if_neg hi
  · funext d
    by_cases hd : d < 128
    · rw [view_dirent hd]
      exact direntAt_of_zeros fun a _ h₂ => h a (by rw [direntAddr_eq] at h₂; omega)
    · exact if_neg hd
  · funext b o
    simp only [view, Tables.blank]
    split
    · exact h _ (by omega)
    · rfl

theorem storeSuperblock_frame (m : Mem) (a : Nat) (vs : List Nat) :
    Frame m (storeSuperblock m a vs) a (a + 4 * vs.length) := by
  induction vs generalizing m a with
  | nil => exact Frame.refl _ _ _
  | cons v vs ih =>
    have hlen : (v :: vs).length = vs.length + 1 := rfl
    exact ((storeLE_frame m a 4 v).mono (by omega) (by omega)).trans
      ((ih _ (a + 4)).mono (by omega) (by omega))

theorem view_reserveBlocks (m : Mem) {n : Nat} (hn : n ≤ 256) :
    view (reserveBlocks m n) = { view m with
      blockBit := fun b => decide (b < n) || (view m).blockBit b } := by
  induction n with
  | zero => simp [reserveBlocks]
  | succ n ih =>
    rw [reserveBlocks, view_setBlockBit _ (by omega), ih (by omega)]
    refine Tables.ext rfl ?_ rfl rfl rfl
    funext b
    dsimp only
    by_cases hb : b = n
    · subst hb; simp
    · rw [Function.update_of_ne hb]
      have hlt : decide (b < n + 1) = decide (b < n) := decide_eq_decide.mpr (by omega)
      rw [hlt]

theorem view_fsInit (s : FsState) : view (fsInit s).ramdisk = Tables.initial := by
  have hroot : fsRootInode < 64 := by decide
  have hname : rootName.bytes.length < 24 := by decide
  have hclear : view (fill s.ramdisk 0 0 fsDiskSize) = Tables.blank :=
    view_of_zeros fun a ha => fill_inside _ _ _ _ ⟨Nat.zero_le a, by simpa using ha⟩
  have hsuper : view (storeSuperblock (fill s.ramdisk 0 0 fsDiskSize) sb superblock) =
      Tables.blank := by
    rw [← hclear]
    exact view_of_superblock_frame ((storeSuperblock_frame _ _ _).mono (by decide) (by decide))
  unfold fsInit
  dsimp only [fsMaxName]
  rw [view_setInodeName _ hroot hname, view_setInodeBlock _ hroot (by decide),
    view_setInodeType _ hroot, view_setInodeUsed _ hroot, view_setInodeBit _ hroot,
    view_reserveBlocks _ (by decide), hsuper]
  simp only [Function.update_self, Function.update_idem]
  refine Tables.ext rfl ?_ rfl rfl rfl
  funext b
  exact Bool.or_false _

theorem fsInit_fds (s : FsState) {n : Nat} (hn : n < 32) : (fsInit s).fds n = File.zero :=
  if_pos (by simpa using hn)

section Initial

theorem Tables.initial_inode_ne {i : Nat} (hi : i ≠ 0) : initial.inode i = Inode.zero := by
  dsimp only [initial]
  rw [Function.update_of_ne hi]

theorem Tables.initial_not_isFile (i : Nat) : ¬ initial.IsFile i := by
  rintro ⟨hi, -, hu⟩
  rw [initial_inode_ne (by omega)] at hu
  exact absurd hu (by decide)

theorem Tables.initial_not_isEntry (d : Nat) : ¬ initial.IsEntry d := fun h => h.2 rfl

theorem Sound.initial {fds : Nat → File} (hfds : ∀ n, n < 32 → fds n = File.zero) :
    Sound Tables.initial fds where
  inodeBit_iff i _ := by
    by_cases hi : i = 0
    · subst hi
      exact iff_of_true (by simp [Tables.initial]) rfl
    · rw [Tables.initial_inode_ne hi]
      refine iff_of_false ?_ (by decide)
      simp [Tables.initial, Function.update_of_ne hi]
  root_used := rfl
  root_dir := rfl
  file_type i hi := absurd hi (Tables.initial_not_isFile i)
  free_inode i _ hu := Tables.initial_inode_ne fun hi => hu (by rw [hi]; rfl)
  entry_used d hd := absurd hd (Tables.initial_not_isEntry d)
  entry_file d hd := absurd hd (Tables.initial_not_isEntry d)
  free_dirent _ _ _ := rfl
  entry_inj d _ hd := absurd hd (Tables.initial_not_isEntry d)
  file_entry i hi := absurd hi (Tables.initial_not_isFile i)
  name_pos d hd := absurd hd (Tables.initial_not_isEntry d)
  name_le d hd := absurd hd (Tables.initial_not_isEntry d)
  name_inj d _ hd := absurd hd (Tables.initial_not_isEntry d)
  name_inode d hd := absurd hd (Tables.initial_not_isEntry d)
  block_range i _ hi := absurd hi (Tables.initial_not_isFile i)
  block_inj i _ _ _ hi := absurd hi (Tables.initial_not_isFile i)
  blockBit_iff b _ := by
    refine decide_eq_true_iff.trans ⟨Or.inl, ?_⟩
    rintro (hb | ⟨i, -, hi, -⟩)
    · exact hb
    · exact absurd hi (Tables.initial_not_isFile i)
  size_le i hi := absurd hi (Tables.initial_not_isFile i)
  block_iff i _ hi := absurd hi (Tables.initial_not_isFile i)
  tail_zero i _ _ hi := absurd hi (Tables.initial_not_isFile i)
  fd_sound n hn := by rw [hfds n hn]; exact FileSound.zero

/-- Right after `fs_init` there is no file and no open descriptor. -/
theorem Tables.abs_initial {fds : Nat → File} (hfds : ∀ n, n < 32 → fds n = File.zero) :
    Tables.initial.abs fds = FileStore.empty := by
  refine FileStore.ext (funext fun n => ?_) (funext fun fd => ?_)
  · exact ((Sound.initial hfds).files_eq_none_iff (n := n)).mpr
      fun i hi => initial_not_isFile i hi.1
  · refine openFiles_eq_none_iff.mpr fun h => h.2 ?_
    rw [hfds fd h.1]
    rfl

end Initial

theorem sound_fsInit (s : FsState) : Sound (view (fsInit s).ramdisk) (fsInit s).fds := by
  rw [view_fsInit]
  exact Sound.initial fun _ hn => fsInit_fds s hn

theorem abs_fsInit (s : FsState) : (fsInit s).abs = FileStore.empty := by
  rw [FsState.abs, view_fsInit]
  exact Tables.abs_initial fun _ hn => fsInit_fds s hn

end SengOs.Fs
