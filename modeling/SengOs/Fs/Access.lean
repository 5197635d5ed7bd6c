import SengOs.Lib.Traced
import SengOs.Fs.Run

/-!
# The accesses of the interface

Each function of this module is a function of `kernel/fs.c` once more, with a record of what
it accesses: the indices into the tables, the ranges that `k_memcpy` and `k_memset` touch, and
the exact values of the 32-bit computations. The `val_*` lemmas say that the record is all
that is added.
-/

namespace SengOs.Fs

open ByteMemory CString Traced

/-- `RAMDISK_ADDR` -/
def ramdiskAddr : Nat := 0x00200000

/-- An access. `load` and `store` are the copies of `n` bytes between offset `disk` of the disk
`m` and offset `buf` of the caller's buffer, made for inode `ino`; `word` is the exact value
of an unsigned 32-bit computation. -/
inductive Access where
  | fds (fd : Int)
  | inodes (i : Nat)
  | blocks (k : Nat)
  | rootDir (d : Nat)
  | direntName (j : Nat)
  | inodeBit (i : Nat)
  | blockBit (b : Nat)
  | word (v : Int)
  | load (m : Mem) (ino disk buf n : Nat)
  | store (m : Mem) (ino disk buf n : Nat)
  | zero (m : Mem) (disk n : Nat)

/-- How many bytes of `a` the loop of `k_strcmp` looks at. -/
def strcmpReads (a : Nat → Byte) : List Byte → Nat
  | [] => 1
  | c :: cs => if a 0 ≠ 0 ∧ a 0 = c then strcmpReads (fun i => a (i + 1)) cs + 1 else 1

def findDirentTraced (m : Mem) (name : CString) : Traced Access (Option Nat) :=
  find? (fun i => direntUsed m i != 0 && strcmp (direntName m i) name.bytes == 0)
    (fun i => .rootDir i :: if direntUsed m i = 0 then []
      else (List.range (strcmpReads (direntName m i) name.bytes)).map .direntName)
    (List.range direntEntries)

def badFdTraced (s : FsState) (fd : Int) : Traced Access Bool :=
  if fd < 0 ∨ fd ≥ fsMaxFds then pure true
  else do
    access [.fds fd]
    pure (decide ((s.fds fd.toNat).used = 0))

def fsSizeTraced (s : FsState) (fd : Int) : Traced Access Nat := do
  if ← badFdTraced s fd then pure 0
  else do
    let f := s.fds fd.toNat
    access [.fds fd, .inodes f.inode]
    pure (inodeSize s.ramdisk f.inode)

def fsOpenTraced (s : FsState) (name : CString) : Traced Access (Int × FsState) := do
  match ← findDirentTraced s.ramdisk name with
  | none => pure (-1, s)
  | some d =>
    access [.rootDir d]
    let ino := direntInode s.ramdisk d
    if ino ≥ fsMaxInodes then pure (-1, s)
    else do
      access [.inodes ino]
      if inodeUsed s.ramdisk ino = 0 then pure (-1, s)
      else
        match ← find? (fun fd => (s.fds fd).used == 0) (fun fd => [.fds fd])
          (List.range fsMaxFds) with
        | none => pure (-2, s)
        | some fd =>
          access [.fds fd]
          pure (fd, s.setFd fd { used := 1, flags := 0, inode := ino % 2 ^ 16, offset := 0 })

/-! ## Unlink -/

def freeBlockTraced (m : Mem) (b : Nat) : Traced Access Mem :=
  if b < fsDataStart ∨ b ≥ fsNumBlocks then pure m
  else do
    access [.blockBit b]
    pure (bitClear m blockBitmap b)

def freeBlocksTraced (m : Mem) (ino : Nat) : Nat → Traced Access Mem
  | 0 => pure m
  | n + 1 => do
    let m ← freeBlocksTraced m ino n
    access [.blocks n]
    if inodeBlock m ino n ≠ 0 then freeBlockTraced m (inodeBlock m ino n) else pure m

def freeInodeTraced (m : Mem) (ino : Nat) : Traced Access Mem :=
  if ino = fsRootInode ∨ ino ≥ fsMaxInodes then pure m
  else do
    access [.inodeBit ino, .inodes ino]
    pure (fill (bitClear m inodeBitmap ino) (inodeAddr ino) 0 sizeofInode)

def removeDirentTraced (m : Mem) (index : Nat) : Traced Access Mem :=
  if index < direntEntries then do
    access [.rootDir index]
    pure (fill m (direntAddr index) 0 sizeofDirent)
  else pure m

def fsUnlinkTraced (s : FsState) (name : CString) : Traced Access (Int × FsState) := do
  match ← findDirentTraced s.ramdisk name with
  | none => pure (-1, s)
  | some d =>
    access [.rootDir d]
    let inoNum := direntInode s.ramdisk d
    if inoNum = fsRootInode ∨ inoNum ≥ fsMaxInodes then pure (-1, s)
    else do
      access [.inodes inoNum]
      match ← find? (fun fd => (s.fds fd).used != 0 && (s.fds fd).inode == inoNum)
        (fun fd => [.fds fd]) (List.range fsMaxFds) with
      | some _ => pure (-2, s)
      | none => do
        let m ← freeBlocksTraced s.ramdisk inoNum fsDirect
        let m ← freeInodeTraced m inoNum
        let m ← removeDirentTraced m d
        pure (0, { s with ramdisk := m })

/-! ## Read and write -/

/-- What the two loops compute around the copy of a round. -/
def roundWords (m : Mem) (ino pos count done : Nat) : List Access :=
  let n := chunk pos count done
  let start := inodeBlock m ino (pos / fsBlockSize) * fsBlockSize
  [.word ((fsBlockSize : Int) - (pos % fsBlockSize : Nat)), .word ((count : Int) - done),
    .blocks (pos / fsBlockSize), .word start, .word (start + pos % fsBlockSize : Nat),
    .word (ramdiskAddr + start + pos % fsBlockSize + n : Nat), .word (pos + n : Nat),
    .word (done + n : Nat)]

def fsReadLoopTraced (fd ino count : Nat) (s : FsState) (out : Mem) (done : Nat) :
    Traced Access (Nat × Mem × FsState) :=
  if _h : done < count then do
    let pos := (s.fds fd).offset
    access [.fds fd]
    if pos / fsBlockSize ≥ fsDirect then pure (done, out, s)
    else do
      access [.blocks (pos / fsBlockSize)]
      if inodeBlock s.ramdisk ino (pos / fsBlockSize) = 0 then pure (done, out, s)
      else do
        let n := chunk pos count done
        access (roundWords s.ramdisk ino pos count done)
        access [.load s.ramdisk ino (diskPos s.ramdisk ino pos) done n]
        let out := copy out done (fun i => s.ramdisk (diskPos s.ramdisk ino pos + i)) n
        access [.fds fd]
        fsReadLoopTraced fd ino count (s.advance fd n) out (done + n)
  else pure (done, out, s)
termination_by count - done
decreasing_by
  have := chunk_pos (s.fds fd).offset ‹done < count›
  omega

def fsReadTraced (s : FsState) (fd : Int) (buf : Option Mem) (count : Nat) :
    Traced Access (Int × Option Mem × FsState) := do
  if ← badFdTraced s fd then pure (-1, buf, s)
  else
    match buf with
    | none => pure (-1, none, s)
    | some out => do
      let f := s.fds fd.toNat
      access [.fds fd, .inodes f.inode]
      if inodeUsed s.ramdisk f.inode = 0 ∨ inodeType s.ramdisk f.inode ≠ fsFile then
        pure (-1, buf, s)
      else if f.offset ≥ inodeSize s.ramdisk f.inode then pure (0, buf, s)
      else do
        let available := inodeSize s.ramdisk f.inode - f.offset
        access [.word ((inodeSize s.ramdisk f.inode : Int) - f.offset)]
        let count := if count > available then available else count
        let r ← fsReadLoopTraced fd.toNat f.inode count s out 0
        pure (r.1, some r.2.1, r.2.2)

def allocBlockTraced (m : Mem) : Traced Access (Option (Nat × Mem)) := do
  match ← find? (fun b => !bitTest m blockBitmap b) (fun b => [.blockBit b])
    (List.range' fsDataStart (fsNumBlocks - fsDataStart)) with
  | none => pure none
  | some b =>
    access [.blockBit b, .word (b * fsBlockSize : Nat),
      .word (ramdiskAddr + b * fsBlockSize + fsBlockSize : Nat),
      .zero m (b * fsBlockSize) fsBlockSize]
    pure (some (b, fill (bitSet m blockBitmap b) (b * fsBlockSize) 0 fsBlockSize))

def ensureBlockTraced (m : Mem) (ino blockIndex : Nat) : Traced Access (Option Mem) := do
  access [.blocks blockIndex]
  if inodeBlock m ino blockIndex = 0 then
    match ← allocBlockTraced m with
    | none => pure none
    | some (b, m) =>
      access [.blocks blockIndex]
      pure (some (setInodeBlock m ino blockIndex b))
  else pure (some m)

def fsWriteLoopTraced (fd ino count : Nat) (src : Mem) (s : FsState) (done : Nat) :
    Traced Access (Nat × FsState) :=
  if _h : done < count then do
    let pos := (s.fds fd).offset
    access [.fds fd]
    if pos / fsBlockSize ≥ fsDirect then pure (done, s)
    else
      match ← ensureBlockTraced s.ramdisk ino (pos / fsBlockSize) with
      | none => pure (done, s)
      | some m => do
        let n := chunk pos count done
        access (roundWords m ino pos count done)
        access [.store m ino (diskPos m ino pos) done n]
        let m := copy m (diskPos m ino pos) (fun i => src (done + i)) n
        access [.fds fd]
        fsWriteLoopTraced fd ino count src (({ s with ramdisk := m } : FsState).advance fd n)
          (done + n)
  else pure (done, s)
termination_by count - done
decreasing_by
  have := chunk_pos (s.fds fd).offset ‹done < count›
  omega

def fsWriteTraced (s : FsState) (fd : Int) (buf : Option Mem) (count : Nat) :
    Traced Access (Int × FsState) := do
  if ← badFdTraced s fd then pure (-1, s)
  else
    match buf with
    | none => pure (-1, s)
    | some src => do
      let f := s.fds fd.toNat
      access [.fds fd, .inodes f.inode]
      if inodeUsed s.ramdisk f.inode = 0 ∨ inodeType s.ramdisk f.inode ≠ fsFile then
        pure (-1, s)
      else
        let maxBytes := fsDirect * fsBlockSize
        if f.offset > maxBytes then pure (-1, s)
        else do
          let writable := maxBytes - f.offset
          access [.word ((maxBytes : Int) - f.offset)]
          let count := if count > writable then writable else count
          let r ← fsWriteLoopTraced fd.toNat f.inode count src s 0
          access [.fds fd]
          pure (r.1, updateSize r.2 fd.toNat f.inode)

/-! ## The values -/

section Values

variable {m : Mem} {s : FsState} {fd : Int} {name : CString}

theorem val_findDirentTraced : (findDirentTraced m name).val = findDirent m name :=
  val_find? ..

theorem val_badFdTraced : (badFdTraced s fd).val = decide (badFd s fd) := by
  unfold badFdTraced badFd
  rw [val_ite]
  split
  · rename_i hout
    exact (decide_eq_true (hout.elim Or.inl fun h => Or.inr (Or.inl h))).symm
  · rename_i hin
    rw [val_bind, val_pure]
    refine decide_eq_decide.mpr ⟨fun h => Or.inr (Or.inr h), fun h => ?_⟩
    rcases h with h | h | h
    · exact absurd (Or.inl h) hin
    · exact absurd (Or.inr h) hin
    · exact h

theorem val_fsSizeTraced : (fsSizeTraced s fd).val = fsSize s fd := by
  simp only [fsSizeTraced, fsSize, val_bind, val_badFdTraced, decide_eq_true_eq, val_ite,
    val_pure]

theorem val_fsOpenTraced : (fsOpenTraced s name).val = fsOpen s name := by
  unfold fsOpenTraced fsOpen
  rw [val_bind, val_findDirentTraced]
  cases findDirent s.ramdisk name with
  | none => rfl
  | some d =>
    dsimp only
    rw [val_bind, val_ite, ite_or]
    refine if_congr Iff.rfl rfl ?_
    rw [val_bind, val_ite]
    refine if_congr Iff.rfl rfl ?_
    rw [val_bind, val_find?]
    cases (List.range fsMaxFds).find? (fun fd => (s.fds fd).used == 0) <;> rfl

theorem val_freeBlockTraced (b : Nat) : (freeBlockTraced m b).val = freeBlock m b := by
  rw [freeBlockTraced, val_ite]
  rfl

theorem val_freeBlocksTraced (ino n : Nat) :
    (freeBlocksTraced m ino n).val = freeBlocks m ino n := by
  induction n with
  | zero => rfl
  | succ n ih =>
    rw [freeBlocksTraced, val_bind, ih, val_bind, val_ite, val_freeBlockTraced]
    rfl

theorem val_freeInodeTraced (ino : Nat) : (freeInodeTraced m ino).val = freeInode m ino := by
  rw [freeInodeTraced, val_ite]
  rfl

theorem val_removeDirentTraced (d : Nat) : (removeDirentTraced m d).val = removeDirent m d := by
  rw [removeDirentTraced, val_ite]
  rfl

theorem any_eq_isSome_find? {α : Type*} (p : α → Bool) (l : List α) :
    l.any p = (l.find? p).isSome := by
  rw [Bool.eq_iff_iff, List.any_eq_true, List.find?_isSome]

theorem val_fsUnlinkTraced : (fsUnlinkTraced s name).val = fsUnlink s name := by
  unfold fsUnlinkTraced fsUnlink
  rw [val_bind, val_findDirentTraced]
  cases findDirent s.ramdisk name with
  | none => rfl
  | some d =>
    dsimp only
    rw [val_bind, val_ite]
    refine if_congr Iff.rfl rfl ?_
    rw [val_bind, val_bind, val_find?, any_eq_isSome_find?]
    cases (List.range fsMaxFds).find?
      (fun fd => (s.fds fd).used != 0 && (s.fds fd).inode == direntInode s.ramdisk d) with
    | some fd => rfl
    | none =>
      dsimp only [Option.isSome_none]
      rw [val_bind, val_freeBlocksTraced, val_bind, val_freeInodeTraced, val_bind,
        val_removeDirentTraced]
      rfl

theorem val_allocBlockTraced : (allocBlockTraced m).val = allocBlock m := by
  unfold allocBlockTraced allocBlock
  rw [val_bind, val_find?]
  cases (List.range' fsDataStart (fsNumBlocks - fsDataStart)).find?
    (fun b => !bitTest m blockBitmap b) <;> rfl

theorem val_ensureBlockTraced (ino k : Nat) :
    (ensureBlockTraced m ino k).val = ensureBlock m ino k := by
  unfold ensureBlockTraced ensureBlock
  rw [val_bind, val_ite, val_bind, val_allocBlockTraced]
  refine if_congr Iff.rfl ?_ rfl
  cases allocBlock m <;> rfl

theorem val_fsReadLoopTraced (fd ino count : Nat) (s : FsState) (out : Mem) (done : Nat) :
    (fsReadLoopTraced fd ino count s out done).val = fsReadLoop fd ino count s out done := by
  induction s, out, done using fsReadLoop.induct fd ino count with
  | case1 s out done hlt pos hbreak =>
    rw [fsReadLoopTraced, fsReadLoop, dif_pos hlt, dif_pos hlt, val_bind]
    dsimp only
    rw [if_pos hbreak, val_ite, val_bind, val_ite, ← ite_or]
    exact if_pos hbreak
  | case2 s out done hlt pos hgo n out' ih =>
    rw [fsReadLoopTraced, fsReadLoop, dif_pos hlt, dif_pos hlt, val_bind]
    dsimp only
    rw [if_neg hgo, val_ite, val_bind, val_ite, ← ite_or, if_neg hgo]
    simp only [val_bind]
    exact ih
  | case3 s out done hge => rw [fsReadLoopTraced, fsReadLoop, dif_neg hge, dif_neg hge, val_pure]

theorem val_fsReadTraced (buf : Option Mem) (count : Nat) :
    (fsReadTraced s fd buf count).val = fsRead s fd buf count := by
  unfold fsReadTraced fsRead
  rw [val_bind, val_badFdTraced]
  cases buf with
  | none => simp only [val_pure, ite_self]
  | some out =>
    simp only [decide_eq_true_eq, val_ite, val_bind, val_pure, val_fsReadLoopTraced]

theorem val_fsWriteLoopTraced (fd ino count : Nat) (src : Mem) (s : FsState) (done : Nat) :
    (fsWriteLoopTraced fd ino count src s done).val = fsWriteLoop fd ino count src s done := by
  induction s, done using fsWriteLoop.induct fd ino count src with
  | case1 s done hlt pos hbig =>
    rw [fsWriteLoopTraced, fsWriteLoop, dif_pos hlt, dif_pos hlt, val_bind]
    dsimp only
    rw [if_pos hbig, if_pos hbig, val_pure]
  | case2 s done hlt pos hsmall hnone =>
    rw [fsWriteLoopTraced, fsWriteLoop, dif_pos hlt, dif_pos hlt, val_bind]
    dsimp only
    rw [if_neg hsmall, if_neg hsmall, val_bind, val_ensureBlockTraced, hnone, val_pure]
  | case3 s done hlt pos hsmall m hm n m' ih =>
    rw [fsWriteLoopTraced, fsWriteLoop, dif_pos hlt, dif_pos hlt, val_bind]
    dsimp only
    rw [if_neg hsmall, if_neg hsmall, val_bind, val_ensureBlockTraced, hm]
    simp only [val_bind]
    exact ih
  | case4 s done hge => rw [fsWriteLoopTraced, fsWriteLoop, dif_neg hge, dif_neg hge, val_pure]

theorem val_fsWriteTraced (buf : Option Mem) (count : Nat) :
    (fsWriteTraced s fd buf count).val = fsWrite s fd buf count := by
  unfold fsWriteTraced fsWrite
  rw [val_bind, val_badFdTraced]
  cases buf with
  | none => simp only [val_pure, ite_self]
  | some src =>
    simp only [decide_eq_true_eq, val_ite, val_bind, val_pure, val_fsWriteLoopTraced]

end Values

end SengOs.Fs
