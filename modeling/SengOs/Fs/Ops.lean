import SengOs.Fs.Layout

/-!
# `kernel/fs.c`

The functions of the RAM-disk file system, one definition each. A loop that looks for the
first index with a property is a `find?` over the range it scans; the transfer loops of
`fs_read` and `fs_write` are recursions that advance `done`. A name is a `CString` and a
buffer is the memory seen from its pointer; `none` is a null pointer. `fs_open` and
`fs_unlink` do not test their pointer: on this machine a null one reads the string at
address 0, so it is one more name.
-/

namespace SengOs.Fs

open ByteMemory CString

/-! ## Bitmap functions -/

def bitTest (m : Mem) (map n : Nat) : Bool := Bitmap.test (fun i => m (map + i)) n

def bitSet (m : Mem) (map n : Nat) : Mem :=
  Function.update m (map + n / 8) (Bitmap.setWord (fun i => m (map + i)) n)

def bitClear (m : Mem) (map n : Nat) : Mem :=
  Function.update m (map + n / 8) (Bitmap.clearWord (fun i => m (map + i)) n)

/-! ## Inodes and blocks -/

def allocInode (m : Mem) : Option (Nat × Mem) :=
  match (List.range' 1 (fsMaxInodes - 1)).find? (fun i => !bitTest m inodeBitmap i) with
  | none => none
  | some i =>
    let m := bitSet m inodeBitmap i
    let m := fill m (inodeAddr i) 0 sizeofInode
    let m := setInodeUsed m i 1
    some (i, setInodeType m i fsFile)

def freeInode (m : Mem) (ino : Nat) : Mem :=
  if ino = fsRootInode ∨ ino ≥ fsMaxInodes then m
  else fill (bitClear m inodeBitmap ino) (inodeAddr ino) 0 sizeofInode

def allocBlock (m : Mem) : Option (Nat × Mem) :=
  match (List.range' fsDataStart (fsNumBlocks - fsDataStart)).find?
      (fun b => !bitTest m blockBitmap b) with
  | none => none
  | some b => some (b, fill (bitSet m blockBitmap b) (b * fsBlockSize) 0 fsBlockSize)

def freeBlock (m : Mem) (b : Nat) : Mem :=
  if b < fsDataStart ∨ b ≥ fsNumBlocks then m else bitClear m blockBitmap b

/-! ## Directory functions -/

def findDirent (m : Mem) (name : CString) : Option Nat :=
  (List.range direntEntries).find?
    (fun i => direntUsed m i != 0 && strcmp (direntName m i) name.bytes == 0)

def addDirent (m : Mem) (name : CString) (ino : Nat) : Option Mem :=
  match (List.range direntEntries).find? (fun i => direntUsed m i == 0) with
  | none => none
  | some i =>
    let m := setDirentUsed m i 1
    let m := setDirentInode m i ino
    some (strncpy m (direntAddr i + 3) name sizeofDirentName)

def removeDirent (m : Mem) (index : Nat) : Mem :=
  if index < direntEntries then fill m (direntAddr index) 0 sizeofDirent else m

/-! ## Initialisation -/

/-- The name `"/"` of the root inode. -/
def rootName : CString := ⟨[0x2F], by decide⟩

/-- The superblock fields in the order of `superblock_t`. -/
def superblock : List Nat :=
  [fsMagic, fsBlockSize, fsNumBlocks, fsMaxInodes, 1, 2, 3, fsDataStart]

/-- `sb->field = v` for each field, four bytes each. -/
def storeSuperblock (m : Mem) (a : Nat) : List Nat → Mem
  | [] => m
  | v :: vs => storeSuperblock (storeLE m a 4 v) (a + 4) vs

/-- `for (b = 0; b < n; b++) bit_set(block_bitmap, b);` -/
def reserveBlocks (m : Mem) : Nat → Mem
  | 0 => m
  | n + 1 => bitSet (reserveBlocks m n) blockBitmap n

def fsInit (s : FsState) : FsState :=
  let m := fill s.ramdisk 0 0 fsDiskSize
  let fds := fun fd => if fd < fsMaxFds then File.zero else s.fds fd
  let m := storeSuperblock m sb superblock
  let m := reserveBlocks m fsDataStart
  let m := bitSet m inodeBitmap fsRootInode
  let m := setInodeUsed m fsRootInode 1
  let m := setInodeType m fsRootInode fsDir
  let m := setInodeBlock m fsRootInode 0 fsRootBlock
  let m := strncpy m (inodeAddr fsRootInode + 40) rootName fsMaxName
  { ramdisk := m, fds := fds }

/-! ## Create, open, close, unlink, size -/

def fsCreate (s : FsState) (name : Option CString) : Int × FsState :=
  match name with
  | none => (-1, s)
  | some name =>
    if name.byteAt 0 = 0 ∨ strlen name ≥ fsMaxName then (-1, s)
    else if (findDirent s.ramdisk name).isSome then (-2, s)
    else
      match allocInode s.ramdisk with
      | none => (-3, s)
      | some (ino, m) =>
        match addDirent m name ino with
        | none => (-4, { s with ramdisk := freeInode m ino })
        | some m => (ino, { s with ramdisk := strncpy m (inodeAddr ino + 40) name fsMaxName })

def fsOpen (s : FsState) (name : CString) : Int × FsState :=
  match findDirent s.ramdisk name with
  | none => (-1, s)
  | some d =>
    let ino := direntInode s.ramdisk d
    if ino ≥ fsMaxInodes ∨ inodeUsed s.ramdisk ino = 0 then (-1, s)
    else
      match (List.range fsMaxFds).find? (fun fd => (s.fds fd).used == 0) with
      | none => (-2, s)
      | some fd => (fd, s.setFd fd { used := 1, flags := 0, inode := ino % 2 ^ 16, offset := 0 })

/-- `fd < 0 || fd >= FS_MAX_FDS || !fds[fd].used` -/
def badFd (s : FsState) (fd : Int) : Prop :=
  fd < 0 ∨ fd ≥ fsMaxFds ∨ (s.fds fd.toNat).used = 0

instance (s : FsState) (fd : Int) : Decidable (badFd s fd) :=
  inferInstanceAs (Decidable (_ ∨ _ ∨ _))

def fsClose (s : FsState) (fd : Int) : Int × FsState :=
  if badFd s fd then (-1, s) else (0, s.setFd fd.toNat File.zero)

/-- The loop of `fs_unlink` over the first `n` block pointers of the inode. -/
def freeBlocks (m : Mem) (ino : Nat) : Nat → Mem
  | 0 => m
  | n + 1 =>
    let m := freeBlocks m ino n
    if inodeBlock m ino n ≠ 0 then freeBlock m (inodeBlock m ino n) else m

def fsUnlink (s : FsState) (name : CString) : Int × FsState :=
  match findDirent s.ramdisk name with
  | none => (-1, s)
  | some d =>
    let inoNum := direntInode s.ramdisk d
    if inoNum = fsRootInode ∨ inoNum ≥ fsMaxInodes then (-1, s)
    else if (List.range fsMaxFds).any
        (fun fd => (s.fds fd).used != 0 && (s.fds fd).inode == inoNum) then (-2, s)
    else
      let m := freeBlocks s.ramdisk inoNum fsDirect
      let m := freeInode m inoNum
      (0, { s with ramdisk := removeDirent m d })

def fsSize (s : FsState) (fd : Int) : Nat :=
  if badFd s fd then 0 else inodeSize s.ramdisk (s.fds fd.toNat).inode

/-! ## Read and write -/

/-- `n = FS_BLOCK_SIZE - block_off; if (n > count - done) n = count - done;` -/
def chunk (pos count done : Nat) : Nat :=
  let n := fsBlockSize - pos % fsBlockSize
  if n > count - done then count - done else n

theorem chunk_eq (pos count done : Nat) :
    chunk pos count done = min (4096 - pos % 4096) (count - done) := by
  unfold chunk
  dsimp only
  split <;> simp only [fsBlockSize] at * <;> omega

theorem chunk_pos (pos : Nat) {count done : Nat} (h : done < count) : 0 < chunk pos count done := by
  rw [chunk_eq]
  omega

/-- The disk offset `ino->blocks[block_index] * FS_BLOCK_SIZE + block_off` of byte `pos` of
a file. -/
def diskPos (m : Mem) (ino pos : Nat) : Nat :=
  u32 (inodeBlock m ino (pos / fsBlockSize) * fsBlockSize) + pos % fsBlockSize

/-- The loop of `fs_read`, from `done` bytes transferred on. -/
def fsReadLoop (fd ino count : Nat) (s : FsState) (out : Mem) (done : Nat) :
    Nat × Mem × FsState :=
  if _h : done < count then
    let pos := (s.fds fd).offset
    if pos / fsBlockSize ≥ fsDirect ∨ inodeBlock s.ramdisk ino (pos / fsBlockSize) = 0 then
      (done, out, s)
    else
      let n := chunk pos count done
      let out := copy out done (fun i => s.ramdisk (diskPos s.ramdisk ino pos + i)) n
      fsReadLoop fd ino count (s.advance fd n) out (done + n)
  else (done, out, s)
termination_by count - done
decreasing_by
  have := chunk_pos (s.fds fd).offset ‹done < count›
  omega

def fsRead (s : FsState) (fd : Int) (buf : Option Mem) (count : Nat) :
    Int × Option Mem × FsState :=
  match buf with
  | none => (-1, none, s)
  | some out =>
    if badFd s fd then (-1, buf, s)
    else
      let f := s.fds fd.toNat
      if inodeUsed s.ramdisk f.inode = 0 ∨ inodeType s.ramdisk f.inode ≠ fsFile then
        (-1, buf, s)
      else if f.offset ≥ inodeSize s.ramdisk f.inode then (0, buf, s)
      else
        let available := inodeSize s.ramdisk f.inode - f.offset
        let count := if count > available then available else count
        let r := fsReadLoop fd.toNat f.inode count s out 0
        (r.1, some r.2.1, r.2.2)

/-- The part of the loop of `fs_write` that allocates the block on the first write to it.
`none` is the `break` on a full disk. -/
def ensureBlock (m : Mem) (ino blockIndex : Nat) : Option Mem :=
  if inodeBlock m ino blockIndex = 0 then
    match allocBlock m with
    | none => none
    | some (b, m) => some (setInodeBlock m ino blockIndex b)
  else some m

/-- The loop of `fs_write`, from `done` bytes transferred on. -/
def fsWriteLoop (fd ino count : Nat) (src : Mem) (s : FsState) (done : Nat) : Nat × FsState :=
  if _h : done < count then
    let pos := (s.fds fd).offset
    if pos / fsBlockSize ≥ fsDirect then (done, s)
    else
      match ensureBlock s.ramdisk ino (pos / fsBlockSize) with
      | none => (done, s)
      | some m =>
        let n := chunk pos count done
        let m := copy m (diskPos m ino pos) (fun i => src (done + i)) n
        fsWriteLoop fd ino count src (({ s with ramdisk := m } : FsState).advance fd n) (done + n)
  else (done, s)
termination_by count - done
decreasing_by
  have := chunk_pos (s.fds fd).offset ‹done < count›
  omega

/-- `if (fds[fd].offset > ino->size) ino->size = fds[fd].offset;` -/
def updateSize (s : FsState) (fd ino : Nat) : FsState :=
  if (s.fds fd).offset > inodeSize s.ramdisk ino then
    { s with ramdisk := setInodeSize s.ramdisk ino (s.fds fd).offset }
  else s

def fsWrite (s : FsState) (fd : Int) (buf : Option Mem) (count : Nat) : Int × FsState :=
  match buf with
  | none => (-1, s)
  | some src =>
    if badFd s fd then (-1, s)
    else
      let f := s.fds fd.toNat
      if inodeUsed s.ramdisk f.inode = 0 ∨ inodeType s.ramdisk f.inode ≠ fsFile then (-1, s)
      else
        let maxBytes := fsDirect * fsBlockSize
        if f.offset > maxBytes then (-1, s)
        else
          let writable := maxBytes - f.offset
          let count := if count > writable then writable else count
          let r := fsWriteLoop fd.toNat f.inode count src s 0
          (r.1, updateSize r.2 fd.toNat f.inode)

end SengOs.Fs
