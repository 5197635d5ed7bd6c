import SengOs.Fs.Access

/-!
# Every access stays inside its object

`fs.c` uses what it finds on the disk as indices without looking at it, so that its accesses
are in range only because the file system is sound: a used directory entry names a file, an
open descriptor is on a file, and a block pointer is a data block. With `Sound` every access
of the functions below is in range, one lemma for each function.
-/

namespace SengOs.Fs

open ByteMemory CString Traced

/-- The `n` bytes from `disk` on lie in one data block that inode `ino` points to. -/
def InBlockOf (m : Mem) (ino disk n : Nat) : Prop :=
  ∃ k < fsDirect, fsDataStart ≤ inodeBlock m ino k ∧ inodeBlock m ino k < fsNumBlocks ∧
    inodeBlock m ino k * fsBlockSize ≤ disk ∧
    disk + n ≤ inodeBlock m ino k * fsBlockSize + fsBlockSize

/-- The access is inside its object, where `count` bytes of buffer were passed. -/
def Access.Inside (count : Nat) : Access → Prop
  | .fds fd => 0 ≤ fd ∧ fd < fsMaxFds
  | .inodes i => i < fsMaxInodes
  | .blocks k => k < fsDirect
  | .rootDir d => d < direntEntries
  | .direntName j => j < sizeofDirentName
  | .inodeBit i => i < fsMaxInodes
  | .blockBit b => b < fsNumBlocks
  | .word v => 0 ≤ v ∧ v < 2 ^ 32
  | .load m ino disk buf n => ino < fsMaxInodes ∧ InBlockOf m ino disk n ∧ buf + n ≤ count
  | .store m ino disk buf n =>
    ino < fsMaxInodes ∧ InBlockOf m ino disk n ∧ buf + n ≤ count ∧ fsDataStart * fsBlockSize ≤ disk
  | .zero m disk n => ∃ b, fsDataStart ≤ b ∧ b < fsNumBlocks ∧
    bitTest m blockBitmap b = false ∧ disk = b * fsBlockSize ∧ n = fsBlockSize

section Functions

variable {s : FsState} {m : Mem} {count : Nat}

theorem strcmpReads_le {a : Nat → Byte} {l : List Byte} (h : Spells a l) (b : List Byte) :
    strcmpReads a b ≤ l.length + 1 := by
  induction b generalizing a l with
  | nil => exact Nat.le_add_left ..
  | cons c cs ih =>
    rw [strcmpReads]
    split
    · rename_i hgo
      cases l with
      | nil => exact absurd h hgo.1
      | cons x xs => exact Nat.succ_le_succ (ih h.2)
    · exact Nat.le_add_left ..

theorem all_findDirent (ht : NamesTerminated (view m)) (name : CString) :
    All (Access.Inside count) (findDirentTraced m name) := by
  refine .find? fun d hd e he => ?_
  have hd' : d < 128 := by simpa using hd
  rcases List.mem_cons.mp he with rfl | he
  · exact List.mem_range.mp hd
  · split at he
    · cases he
    · rename_i hu
      rw [direntUsed_eq hd'] at hu
      have hlen := ht d hd' hu
      have hspell : Spells (direntName m d) ((view m).dirent d).str :=
        (spells_congr fun j hj => direntName_eq hd' (by omega)).mpr (spells_read hlen)
      obtain ⟨j, hj, rfl⟩ := List.mem_map.mp he
      have hreads := strcmpReads_le hspell name.bytes
      have hj' := List.mem_range.mp hj
      show j < 29
      omega

theorem all_badFd (fd : Int) : All (Access.Inside count) (badFdTraced s fd) := by
  unfold badFdTraced
  split
  · exact .pure _
  · rename_i hin
    obtain ⟨hneg, hmax⟩ := not_or.mp hin
    refine .bind (.access ?_) (.pure _)
    simp only [List.mem_singleton, forall_eq]
    exact ⟨not_lt.mp hneg, not_le.mp hmax⟩

theorem inside_fds {n : Nat} (hn : n < 32) : Access.Inside count (.fds n) :=
  ⟨Int.natCast_nonneg n, Int.ofNat_lt.mpr hn⟩

theorem inside_word {v : Nat} (hv : v < 2 ^ 32) : Access.Inside count (.word v) :=
  ⟨Int.natCast_nonneg v, Int.ofNat_lt.mpr hv⟩

theorem all_fsSize (h : Sound (view s.ramdisk) s.fds) (fd : Int) :
    All (Access.Inside count) (fsSizeTraced s fd) := by
  refine .bind (all_badFd fd) ?_
  rw [val_badFdTraced]
  split
  · exact .pure _
  · rename_i hgood
    obtain ⟨n, rfl, hn⟩ := not_badFd_iff.mp (of_decide_eq_false (Bool.eq_false_iff.mpr hgood))
    have hi := (h.fd_sound n hn.1).file hn.2
    refine .bind (.access ?_) (.pure _)
    exact List.forall_mem_cons.mpr ⟨inside_fds hn.1, List.forall_mem_singleton.mpr hi.2.1⟩

theorem all_fsOpen (h : Sound (view s.ramdisk) s.fds) (name : CString) :
    All (Access.Inside count) (fsOpenTraced s name) := by
  refine .bind (all_findDirent h.terminated name) ?_
  rw [val_findDirentTraced]
  cases hd : findDirent s.ramdisk name with
  | none => exact .pure _
  | some d =>
    obtain ⟨hlt, -⟩ := findDirent_some h.terminated hd
    refine .bind (.access (List.forall_mem_singleton.mpr hlt)) ?_
    dsimp only
    split
    · exact .pure _
    · rename_i hino
      refine .bind (.access (List.forall_mem_singleton.mpr (not_le.mp hino))) ?_
      split
      · exact .pure _
      · refine .bind (.find? fun fd hfd => ?_) ?_
        · exact List.forall_mem_singleton.mpr (inside_fds (List.mem_range.mp hfd))
        · rw [val_find?]
          cases hfd : (List.range fsMaxFds).find? (fun fd => (s.fds fd).used == 0) with
          | none => exact .pure _
          | some fd =>
            have hmem := List.mem_of_find?_eq_some hfd
            refine .bind (.access ?_) (.pure _)
            exact List.forall_mem_singleton.mpr (inside_fds (List.mem_range.mp hmem))

/-! ## Unlink -/

theorem all_freeBlock (b : Nat) : All (Access.Inside count) (freeBlockTraced m b) := by
  unfold freeBlockTraced
  split
  · exact .pure _
  · rename_i hb
    obtain ⟨-, hlt⟩ := not_or.mp hb
    exact .bind (.access (List.forall_mem_singleton.mpr (not_le.mp hlt))) (.pure _)

theorem all_freeBlocks (ino : Nat) {n : Nat} (hn : n ≤ 8) :
    All (Access.Inside count) (freeBlocksTraced m ino n) := by
  induction n with
  | zero => exact .pure _
  | succ n ih =>
    refine .bind (ih (by omega)) (.bind (.access (List.forall_mem_singleton.mpr hn)) ?_)
    split
    · exact all_freeBlock _
    · exact .pure _

theorem all_freeInode (ino : Nat) : All (Access.Inside count) (freeInodeTraced m ino) := by
  unfold freeInodeTraced
  split
  · exact .pure _
  · rename_i hino
    have hlt := not_le.mp (not_or.mp hino).2
    refine .bind (.access ?_) (.pure _)
    exact List.forall_mem_cons.mpr ⟨hlt, List.forall_mem_singleton.mpr hlt⟩

theorem all_removeDirent (d : Nat) : All (Access.Inside count) (removeDirentTraced m d) := by
  unfold removeDirentTraced
  split
  · rename_i hd
    exact .bind (.access (List.forall_mem_singleton.mpr hd)) (.pure _)
  · exact .pure _

theorem all_fsUnlink (h : Sound (view s.ramdisk) s.fds) (name : CString) :
    All (Access.Inside count) (fsUnlinkTraced s name) := by
  refine .bind (all_findDirent h.terminated name) ?_
  rw [val_findDirentTraced]
  cases hd : findDirent s.ramdisk name with
  | none => exact .pure _
  | some d =>
    obtain ⟨hlt, -⟩ := findDirent_some h.terminated hd
    refine .bind (.access (List.forall_mem_singleton.mpr hlt)) ?_
    dsimp only
    split
    · exact .pure _
    · rename_i hino
      have hino' := not_le.mp (not_or.mp hino).2
      refine .bind (.access (List.forall_mem_singleton.mpr hino'))
        (.bind (.find? fun fd hfd => ?_) ?_)
      · exact List.forall_mem_singleton.mpr (inside_fds (List.mem_range.mp hfd))
      · split
        · exact .pure _
        · exact .bind (all_freeBlocks _ le_rfl)
            (.bind (all_freeInode _) (.bind (all_removeDirent _) (.pure _)))

/-! ## Read -/

/-- The computations of a round of the loops, at a place whose block is allocated. -/
theorem inside_roundWords {ino pos total done : Nat} (hpos : pos < 32768) (hdone : done < total)
    (htotal : total ≤ 32768) (hb : inodeBlock m ino (pos / 4096) < 256) :
    ∀ e ∈ roundWords m ino pos total done, Access.Inside count e := by
  have hchunk := chunk_eq pos total done
  simp only [roundWords, List.forall_mem_cons, List.not_mem_nil, false_implies, implies_true,
    and_true, Access.Inside, fsBlockSize, fsDirect, ramdiskAddr]
  omega

/-- A copy of a round, at a place whose block is allocated. -/
theorem inBlockOf_diskPos {i pos n : Nat} (hi : i < 64) (hpos : pos < 32768)
    (hb : 5 ≤ ((view m).inode i).blocks (pos / 4096))
    (hb' : ((view m).inode i).blocks (pos / 4096) < 256) (hn : pos % 4096 + n ≤ 4096) :
    InBlockOf m i (diskPos m i pos) n := by
  have hk : pos / 4096 < 8 := by omega
  refine ⟨pos / 4096, hk, ?_⟩
  rw [diskPos_eq hi hpos hb', inodeBlock_eq hi hk]
  simp only [fsDataStart, fsNumBlocks, fsDiskSize, fsBlockSize]
  omega

theorem all_fsReadLoop {fds₀ : Nat → File} {fd i total : Nat} (s : FsState) (out : Mem)
    (done : Nat) (hfd : fd < 32) (h : Sound (view s.ramdisk) fds₀)
    (hi : (view s.ramdisk).IsFile i) (hle : total ≤ count) (hdone : done ≤ total)
    (hsize : (s.fds fd).offset + (total - done) ≤ ((view s.ramdisk).inode i).size)
    (htotal : total ≤ 32768) :
    All (Access.Inside count) (fsReadLoopTraced fd i total s out done) := by
  induction s, out, done using fsReadLoop.induct fd i total with
  | case1 s out done hlt pos hbreak =>
    obtain ⟨hpos, hne, -, -⟩ := h.block_of_lt_size hi (show (s.fds fd).offset < _ by omega)
    rw [inodeBlock_eq hi.2.1 (by simp only [fsBlockSize]; omega)] at hbreak
    rcases hbreak with hbig | hzero
    · simp only [pos, fsBlockSize, fsDirect] at hbig
      omega
    · exact absurd hzero hne
  | case2 s out done hlt pos hgo n out' ih =>
    obtain ⟨hpos, hne, h5, h256⟩ := h.block_of_lt_size hi (show (s.fds fd).offset < _ by omega)
    have hk : (s.fds fd).offset / 4096 < 8 := by omega
    have hlen := chunk_eq (s.fds fd).offset total done
    have hchunk : n = min (4096 - (s.fds fd).offset % 4096) (total - done) := hlen
    have hadv := s.advance_eq_seek fd n (by omega)
    have hoff : ((s.seek fd ((s.fds fd).offset + n)).fds fd).offset = (s.fds fd).offset + n :=
      s.seek_offset fd _
    obtain ⟨hsmall, hzero⟩ := not_or.mp hgo
    rw [hadv, FsState.seek_ramdisk, hoff] at ih
    rw [fsReadLoopTraced, dif_pos hlt]
    refine .bind (.access (List.forall_mem_singleton.mpr (inside_fds hfd))) ?_
    dsimp only
    rw [if_neg hsmall]
    refine .bind (.access (List.forall_mem_singleton.mpr hk)) ?_
    rw [if_neg hzero]
    refine .bind (.access (inside_roundWords hpos hlt htotal ?_)) (.bind (.access ?_)
      (.bind (.access (List.forall_mem_singleton.mpr (inside_fds hfd))) ?_))
    · rwa [inodeBlock_eq hi.2.1 hk]
    · refine List.forall_mem_singleton.mpr ⟨hi.2.1, ?_, ?_⟩
      · exact inBlockOf_diskPos hi.2.1 hpos h5 h256 (by omega)
      · omega
    · rw [hadv]
      exact ih h hi (by omega) (by omega)
  | case3 s out done hge =>
    rw [fsReadLoopTraced, dif_neg hge]
    exact .pure _

theorem all_fsRead (h : Sound (view s.ramdisk) s.fds) (fd : Int) (buf : Option Mem) :
    All (Access.Inside count) (fsReadTraced s fd buf count) := by
  refine .bind (all_badFd fd) ?_
  rw [val_badFdTraced]
  split
  · exact .pure _
  · rename_i hgood
    obtain ⟨n, rfl, hn⟩ := not_badFd_iff.mp (of_decide_eq_false (Bool.eq_false_iff.mpr hgood))
    have hf := h.fd_sound n hn.1
    have hi := hf.file hn.2
    have hmax := h.size_le _ hi
    cases buf with
    | none => exact .pure _
    | some out =>
      refine .bind (.access ?_) ?_
      · exact List.forall_mem_cons.mpr ⟨inside_fds hn.1, List.forall_mem_singleton.mpr hi.2.1⟩
      · dsimp only
        rw [Int.toNat_natCast, inodeSize_eq hi.2.1]
        split
        · exact .pure _
        · split
          · exact .pure _
          · rename_i hend
            refine .bind (.access (List.forall_mem_singleton.mpr ?_)) (.bind ?_ (.pure _))
            · simp only [Access.Inside]
              omega
            · refine all_fsReadLoop s out 0 hn.1 h hi ?_ (Nat.zero_le _) ?_ ?_ <;> split <;> omega

/-! ## Write -/

theorem all_allocBlock : All (Access.Inside count) (allocBlockTraced m) := by
  refine .bind (.find? fun b hb => ?_) ?_
  · have hlt := (List.mem_range'_1.mp hb).2
    refine List.forall_mem_singleton.mpr ?_
    simp only [Access.Inside, fsDataStart, fsNumBlocks, fsDiskSize, fsBlockSize] at hlt ⊢
    omega
  · rw [val_find?]
    cases hb : (List.range' fsDataStart (fsNumBlocks - fsDataStart)).find?
      (fun b => !bitTest m blockBitmap b) with
    | none => exact .pure _
    | some b =>
      obtain ⟨hbit, hmem, -⟩ := List.find?_range'_eq_some.mp hb
      rw [List.mem_range'_1] at hmem
      simp only [fsDataStart, fsNumBlocks, fsDiskSize, fsBlockSize] at hmem
      rw [Bool.not_eq_true'] at hbit
      refine .bind (.access ?_) (.pure _)
      simp only [List.forall_mem_cons, List.not_mem_nil, false_implies, implies_true, and_true]
      refine ⟨?_, inside_word ?_, inside_word ?_, b, hmem.1, ?_, hbit, rfl, rfl⟩ <;>
        simp only [Access.Inside, ramdiskAddr, fsNumBlocks, fsDiskSize, fsBlockSize] <;> omega

theorem all_ensureBlock (ino : Nat) {k : Nat} (hk : k < 8) :
    All (Access.Inside count) (ensureBlockTraced m ino k) := by
  refine .bind (.access (List.forall_mem_singleton.mpr hk)) ?_
  split
  · refine .bind all_allocBlock ?_
    split
    · exact .pure _
    · exact .bind (.access (List.forall_mem_singleton.mpr hk)) (.pure _)
  · exact .pure _

theorem all_fsWriteLoop {fd i total : Nat} (src : Mem) (s : FsState) (done : Nat)
    (h : WriteInv fd i total s done) (hle : total ≤ count) (htotal : total ≤ 32768) :
    All (Access.Inside count) (fsWriteLoopTraced fd i total src s done) := by
  induction s, done using fsWriteLoop.induct fd i total src with
  | case1 s done hlt pos hbig =>
    have hpos := h.offset_lt hlt
    simp only [pos, fsBlockSize, fsDirect] at hbig
    omega
  | case2 s done hlt pos hsmall hnone =>
    have hpos := h.offset_lt hlt
    rw [fsWriteLoopTraced, dif_pos hlt]
    refine .bind (.access (List.forall_mem_singleton.mpr (inside_fds h.isOpen.1))) ?_
    dsimp only
    rw [if_neg hsmall]
    refine .bind (all_ensureBlock _ (by simp only [fsBlockSize]; omega)) ?_
    rw [val_ensureBlockTraced, hnone]
    exact .pure _
  | case3 s done hlt pos hsmall m hm n m' ih =>
    have hi := h.isFile
    have hpos := h.offset_lt hlt
    have hk : (s.fds fd).offset / 4096 < 8 := by omega
    have hlen := chunk_eq (s.fds fd).offset total done
    have hchunk : n = min (4096 - (s.fds fd).offset % 4096) (total - done) := hlen
    have hadv := ({ s with ramdisk := m' } : FsState).advance_eq_seek fd n
      (show (s.fds fd).offset + n < 2 ^ 32 by omega)
    rw [hadv] at ih
    obtain ⟨hinv, b, hb, hview, -, -⟩ := h.round hlt hm (fun x => src (done + x)) hchunk rfl
    have hblock : ((view m).inode i).blocks ((s.fds fd).offset / 4096) = b := by
      rw [hview]
      simp only [Tables.withBlock, Function.update_self]
    have hstore : InBlockOf m i (diskPos m i (s.fds fd).offset) n :=
      inBlockOf_diskPos hi.2.1 hpos (hblock.symm ▸ hb.range.1) (hblock.symm ▸ hb.range.2)
        (by omega)
    rw [fsWriteLoopTraced, dif_pos hlt]
    refine .bind (.access (List.forall_mem_singleton.mpr (inside_fds h.isOpen.1))) ?_
    dsimp only
    rw [if_neg hsmall]
    refine .bind (all_ensureBlock _ hk) ?_
    rw [val_ensureBlockTraced, hm]
    refine .bind (.access (inside_roundWords hpos hlt htotal ?_)) (.bind (.access ?_)
      (.bind (.access (List.forall_mem_singleton.mpr (inside_fds h.isOpen.1))) ?_))
    · rw [inodeBlock_eq hi.2.1 hk, hblock]
      exact hb.range.2
    · refine List.forall_mem_singleton.mpr ⟨hi.2.1, hstore, ?_, ?_⟩
      · omega
      · obtain ⟨k, -, h5, -, hlo, -⟩ := hstore
        exact (Nat.mul_le_mul_right _ h5).trans hlo
    · rw [hadv]
      exact ih hinv
  | case4 s done hge =>
    rw [fsWriteLoopTraced, dif_neg hge]
    exact .pure _

theorem all_fsWrite (h : Sound (view s.ramdisk) s.fds) (fd : Int) (buf : Option Mem) :
    All (Access.Inside count) (fsWriteTraced s fd buf count) := by
  refine .bind (all_badFd fd) ?_
  rw [val_badFdTraced]
  split
  · exact .pure _
  · rename_i hgood
    obtain ⟨n, rfl, hn⟩ := not_badFd_iff.mp (of_decide_eq_false (Bool.eq_false_iff.mpr hgood))
    have hf := h.fd_sound n hn.1
    have hi := hf.file hn.2
    have hoff := hf.offset hn.2
    have hmax := h.size_le _ hi
    have hstart : s.grown n (s.fds n).inode = view s.ramdisk := Tables.grow_of_le hoff
    cases buf with
    | none => exact .pure _
    | some src =>
      refine .bind (.access ?_) ?_
      · exact List.forall_mem_cons.mpr ⟨inside_fds hn.1, List.forall_mem_singleton.mpr hi.2.1⟩
      · dsimp only
        rw [Int.toNat_natCast]
        split
        · exact .pure _
        · split
          · exact .pure _
          · refine .bind (.access (List.forall_mem_singleton.mpr ?_))
              (.bind ?_ (.bind ?_ (.pure _)))
            · simp only [Access.Inside, fsDirect, fsBlockSize]
              omega
            · refine all_fsWriteLoop src s 0 ⟨by rwa [hstart], hn, rfl, Nat.zero_le _, ?_⟩ ?_ ?_ <;>
                split <;> simp only [fsDirect, fsBlockSize] at * <;> omega
            · exact .access (List.forall_mem_singleton.mpr (inside_fds hn.1))

end Functions

/-- In every state of a run every access of these functions is inside its object, whatever
the arguments; forgetting the accesses gives the functions back. -/
theorem accesses_inside (s₀ : FsState) (calls : List Call) (fd : Int) (buf : Option Mem)
    (count : Nat) (name : CString) :
    let s := runCalls (fsInit s₀) calls
    (All (Access.Inside count) (fsReadTraced s fd buf count) ∧
      (fsReadTraced s fd buf count).val = fsRead s fd buf count) ∧
    (All (Access.Inside count) (fsWriteTraced s fd buf count) ∧
      (fsWriteTraced s fd buf count).val = fsWrite s fd buf count) ∧
    (All (Access.Inside 0) (fsSizeTraced s fd) ∧ (fsSizeTraced s fd).val = fsSize s fd) ∧
    (All (Access.Inside 0) (fsOpenTraced s name) ∧ (fsOpenTraced s name).val = fsOpen s name) ∧
    (All (Access.Inside 0) (fsUnlinkTraced s name) ∧
      (fsUnlinkTraced s name).val = fsUnlink s name) := by
  have h := sound_run s₀ calls
  intro s
  exact ⟨⟨all_fsRead h fd buf, val_fsReadTraced buf count⟩,
    ⟨all_fsWrite h fd buf, val_fsWriteTraced buf count⟩, ⟨all_fsSize h fd, val_fsSizeTraced⟩,
    ⟨all_fsOpen h name, val_fsOpenTraced⟩, ⟨all_fsUnlink h name, val_fsUnlinkTraced⟩⟩

end SengOs.Fs
