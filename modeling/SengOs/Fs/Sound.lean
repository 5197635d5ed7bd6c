import SengOs.Fs.Effects

/-!
# The invariant of the file system

`Sound t fds` relates the five tables of the disk to each other and to the open files:

* `InodeSound`: the inode bitmap is the `used` column of the inode table, the root is inode
  0, every other used inode is a file, and free inodes are all zero;
* `DirSound`: used directory entries and files are in bijection, with the same names, and
  names are proper and pairwise different;
* `BlockSound`: block pointers are data blocks, no block is pointed to twice, and the
  block bitmap marks the metadata blocks and the blocks pointed to;
* `ExtentSound`: a file has a block exactly for every 4096 bytes begun, and the bytes of its
  last block behind its end are zero;
* `FdSound`: an open descriptor is on a file, at an offset within it.

One module for each function of the interface proves that the function keeps `Sound`.
-/

namespace SengOs.Fs

open ByteMemory CString

/-- The name stored in an inode, as a string. -/
def Inode.str (e : Inode) : List Byte := read e.name 24

/-- Inode `i` holds a file. -/
def Tables.IsFile (t : Tables) (i : Nat) : Prop :=
  1 ≤ i ∧ i < 64 ∧ (t.inode i).used = 1

/-- Directory entry `d` is in use. -/
def Tables.IsEntry (t : Tables) (d : Nat) : Prop :=
  d < 128 ∧ (t.dirent d).used ≠ 0

structure InodeSound (t : Tables) : Prop where
  inodeBit_iff : ∀ i, i < 64 → (t.inodeBit i = true ↔ (t.inode i).used = 1)
  root_used : (t.inode 0).used = 1
  root_dir : (t.inode 0).type = fsDir
  file_type : ∀ i, t.IsFile i → (t.inode i).type = fsFile
  free_inode : ∀ i, i < 64 → (t.inode i).used ≠ 1 → t.inode i = Inode.zero

structure DirSound (t : Tables) : Prop where
  entry_used : ∀ d, t.IsEntry d → (t.dirent d).used = 1
  entry_file : ∀ d, t.IsEntry d → t.IsFile (t.dirent d).inode
  free_dirent : ∀ d, d < 128 → (t.dirent d).used = 0 → t.dirent d = Dirent.zero
  entry_inj : ∀ d e, t.IsEntry d → t.IsEntry e → (t.dirent d).inode = (t.dirent e).inode → d = e
  file_entry : ∀ i, t.IsFile i → ∃ d, t.IsEntry d ∧ (t.dirent d).inode = i
  name_pos : ∀ d, t.IsEntry d → (t.dirent d).str ≠ []
  name_le : ∀ d, t.IsEntry d → (t.dirent d).str.length ≤ 23
  name_inj : ∀ d e, t.IsEntry d → t.IsEntry e → (t.dirent d).str = (t.dirent e).str → d = e
  name_inode : ∀ d, t.IsEntry d → (t.inode (t.dirent d).inode).str = (t.dirent d).str

structure BlockSound (t : Tables) : Prop where
  block_range : ∀ i k, t.IsFile i → k < 8 → (t.inode i).blocks k ≠ 0 →
    5 ≤ (t.inode i).blocks k ∧ (t.inode i).blocks k < 256
  block_inj : ∀ i k j l, t.IsFile i → t.IsFile j → k < 8 → l < 8 →
    (t.inode i).blocks k ≠ 0 → (t.inode i).blocks k = (t.inode j).blocks l → i = j ∧ k = l
  blockBit_iff : ∀ b, b < 256 → (t.blockBit b = true ↔
    b < 5 ∨ ∃ i k, t.IsFile i ∧ k < 8 ∧ (t.inode i).blocks k = b)

structure ExtentSound (t : Tables) : Prop where
  size_le : ∀ i, t.IsFile i → (t.inode i).size ≤ 32768
  block_iff : ∀ i k, t.IsFile i → k < 8 →
    ((t.inode i).blocks k ≠ 0 ↔ k * 4096 < (t.inode i).size)
  tail_zero : ∀ i k o, t.IsFile i → k < 8 → (t.inode i).blocks k ≠ 0 → o < 4096 →
    (t.inode i).size ≤ k * 4096 + o → t.data ((t.inode i).blocks k) o = 0

/-- An entry of the open file table is all zero, or on a file at an offset within it. -/
structure FileSound (t : Tables) (f : File) : Prop where
  used : f.used ≠ 0 → f.used = 1
  file : f.used ≠ 0 → t.IsFile f.inode
  offset : f.used ≠ 0 → f.offset ≤ (t.inode f.inode).size
  free : f.used = 0 → f = File.zero

structure FdSound (t : Tables) (fds : Nat → File) : Prop where
  fd_sound : ∀ n, n < 32 → FileSound t (fds n)

structure Sound (t : Tables) (fds : Nat → File) : Prop extends
  InodeSound t, DirSound t, BlockSound t, ExtentSound t, FdSound t fds

section Facts

variable {t : Tables} {fds : Nat → File}

theorem DirSound.terminated (h : DirSound t) : NamesTerminated t := fun d hd hu => by
  have := h.name_le d ⟨hd, hu⟩
  omega

theorem InodeSound.free_iff (h : InodeSound t) {i : Nat} (hi : i < 64) :
    t.inodeBit i = false ↔ (t.inode i).used ≠ 1 := by
  rw [← Bool.not_eq_true, h.inodeBit_iff i hi]

/-- A free inode has no block, no size and no name. -/
theorem InodeSound.zero_of_free (h : InodeSound t) {i : Nat} (hi : i < 64)
    (hbit : t.inodeBit i = false) : t.inode i = Inode.zero :=
  h.free_inode i hi ((h.free_iff hi).mp hbit)

theorem InodeSound.not_isFile_of_free (h : InodeSound t) {i : Nat} (hi : i < 64)
    (hbit : t.inodeBit i = false) : ¬ t.IsFile i :=
  fun hf => (h.free_iff hi).mp hbit hf.2.2

end Facts

end SengOs.Fs
