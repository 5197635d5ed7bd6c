import SengOs.Lib.Bitmap
import SengOs.Lib.CString
import SengOs.Lib.Word

/-!
# The RAM disk: layout and tables

`include/fs.h` and the constants of `kernel/fs.c`. The RAM disk is 1 MiB of bytes, addressed
here by their offset from `RAMDISK_ADDR`. Block 0 is the superblock, blocks 1 and 2 are the
inode and block bitmaps, block 3 is the inode table (64 packed records of 64 bytes), block 4
the root directory (128 packed records of 32 bytes), and file data starts at block 5.

Every field is read and written at its byte offset inside the packed record, so that a
stray data write would be seen by the tables as it would be on the machine. The descriptor
table `fds` lives outside the disk.
-/

namespace SengOs.Fs

open ByteMemory

@[simp] def fsBlockSize : Nat := 4096
@[simp] def fsDiskSize : Nat := 1024 * 1024
@[simp] def fsNumBlocks : Nat := fsDiskSize / fsBlockSize
@[simp] def fsMaxInodes : Nat := 64
@[simp] def fsMaxFds : Nat := 32
@[simp] def fsMaxName : Nat := 24
@[simp] def fsDirect : Nat := 8
@[simp] def fsRootInode : Nat := 0
@[simp] def fsMagic : Nat := 0x53454E47
@[simp] def fsFile : Byte := 1
@[simp] def fsDir : Byte := 2
@[simp] def fsInodeTable : Nat := 3
@[simp] def fsRootBlock : Nat := 4
@[simp] def fsDataStart : Nat := 5

@[simp] def sizeofInode : Nat := 64
@[simp] def sizeofDirent : Nat := 32
/-- `sizeof(root_dir[i].name)` -/
@[simp] def sizeofDirentName : Nat := 29
/-- `FS_BLOCK_SIZE / sizeof(dirent_t)` -/
@[simp] def direntEntries : Nat := fsBlockSize / sizeofDirent

@[simp] def sb : Nat := 0 * fsBlockSize
@[simp] def inodeBitmap : Nat := 1 * fsBlockSize
@[simp] def blockBitmap : Nat := 2 * fsBlockSize
/-- `&inodes[i]` -/
@[simp] def inodeAddr (i : Nat) : Nat := fsInodeTable * fsBlockSize + i * sizeofInode
/-- `&root_dir[d]` -/
@[simp] def direntAddr (d : Nat) : Nat := fsRootBlock * fsBlockSize + d * sizeofDirent

/-! ## Fields of `inode_t` and `dirent_t` -/

def inodeUsed (m : Mem) (i : Nat) : Byte := m (inodeAddr i)
def inodeType (m : Mem) (i : Nat) : Byte := m (inodeAddr i + 1)
def inodeMode (m : Mem) (i : Nat) : Nat := loadLE m (inodeAddr i + 2) 2
def inodeSize (m : Mem) (i : Nat) : Nat := loadLE m (inodeAddr i + 4) 4
def inodeBlock (m : Mem) (i k : Nat) : Nat := loadLE m (inodeAddr i + 8 + 4 * k) 4
def inodeName (m : Mem) (i : Nat) : Nat → Byte := fun j => m (inodeAddr i + 40 + j)

def setInodeUsed (m : Mem) (i : Nat) (v : Byte) : Mem := Function.update m (inodeAddr i) v
def setInodeType (m : Mem) (i : Nat) (v : Byte) : Mem := Function.update m (inodeAddr i + 1) v
def setInodeSize (m : Mem) (i v : Nat) : Mem := storeLE m (inodeAddr i + 4) 4 v
def setInodeBlock (m : Mem) (i k v : Nat) : Mem := storeLE m (inodeAddr i + 8 + 4 * k) 4 v

def direntInode (m : Mem) (d : Nat) : Nat := loadLE m (direntAddr d) 2
def direntUsed (m : Mem) (d : Nat) : Byte := m (direntAddr d + 2)
def direntName (m : Mem) (d : Nat) : Nat → Byte := fun j => m (direntAddr d + 3 + j)

def setDirentInode (m : Mem) (d v : Nat) : Mem := storeLE m (direntAddr d) 2 v
def setDirentUsed (m : Mem) (d : Nat) (v : Byte) : Mem := Function.update m (direntAddr d + 2) v

/-! ## Open files -/

/-- `file_t` -/
structure File where
  used : Byte
  flags : Byte
  inode : Nat
  offset : Nat
  deriving DecidableEq

/-- What `k_memset(&fds[fd], 0, sizeof(file_t))` leaves. -/
def File.zero : File := ⟨0, 0, 0, 0⟩

/-- The memory of the file system: the disk and the open file table. -/
structure FsState where
  ramdisk : Mem
  fds : Nat → File

/-- `fds[fd] = f` -/
def FsState.setFd (s : FsState) (fd : Nat) (f : File) : FsState :=
  { s with fds := Function.update s.fds fd f }

/-- `fds[fd].offset += n` -/
def FsState.advance (s : FsState) (fd n : Nat) : FsState :=
  s.setFd fd { s.fds fd with offset := u32 ((s.fds fd).offset + n) }

@[simp] theorem FsState.setFd_fds (s : FsState) (fd : Nat) (f : File) :
    (s.setFd fd f).fds = Function.update s.fds fd f := rfl

end SengOs.Fs
