import SengOs.Fs.Content
import SengOs.Fs.Open

/-!
# `fs_read`

On a sound file system the transfer loop never meets a missing block, so that a read
returns all the bytes between the offset and the end of the file, up to its count. It moves
the offset of its descriptor and changes nothing else.
-/

namespace SengOs.Fs

open ByteMemory

section Position

variable {m : Mem} {i pos : Nat}

/-- The disk position of a byte of a file whose block is allocated. -/
theorem diskPos_eq (hi : i < 64) (hpos : pos < 32768)
    (hb : ((view m).inode i).blocks (pos / 4096) < 256) :
    diskPos m i pos = ((view m).inode i).blocks (pos / 4096) * 4096 + pos % 4096 := by
  unfold diskPos
  simp only [fsBlockSize, u32]
  rw [inodeBlock_eq hi (by omega), Nat.mod_eq_of_lt (by omega)]

/-- Reading `k` bytes behind `diskPos`, inside the block of `pos`. -/
theorem ramdisk_diskPos (hi : i < 64) (hpos : pos < 32768)
    (hb : 5 ≤ ((view m).inode i).blocks (pos / 4096))
    (hb' : ((view m).inode i).blocks (pos / 4096) < 256) {k : Nat} (hk : pos % 4096 + k < 4096) :
    m (diskPos m i pos + k) = (view m).byte i (pos + k) := by
  have hdiv : (pos + k) / 4096 = pos / 4096 := by omega
  have hmod : (pos + k) % 4096 = pos % 4096 + k := by omega
  rw [diskPos_eq hi hpos hb', Tables.byte, hdiv, hmod, Nat.add_assoc]
  exact (if_pos ⟨hb, hb', hk⟩).symm

end Position

/-- A byte before the end of a file lies in one of its blocks. -/
theorem Sound.block_of_lt_size {t : Tables} {fds : Nat → File} (h : Sound t fds) {i pos : Nat}
    (hi : t.IsFile i) (hpos : pos < (t.inode i).size) :
    pos < 32768 ∧ (t.inode i).blocks (pos / 4096) ≠ 0 ∧
      5 ≤ (t.inode i).blocks (pos / 4096) ∧ (t.inode i).blocks (pos / 4096) < 256 := by
  have hlt : pos < 32768 := hpos.trans_le (h.size_le i hi)
  have hne := (h.block_iff i (pos / 4096) hi (by omega)).mpr (by omega)
  exact ⟨hlt, hne, h.block_range i (pos / 4096) hi (by omega) hne⟩

theorem FsState.setFd_self (s : FsState) (fd : Nat) : s.setFd fd (s.fds fd) = s := by
  simp [FsState.setFd]

theorem FsState.setFd_setFd (s : FsState) (fd : Nat) (f g : File) :
    (s.setFd fd f).setFd fd g = s.setFd fd g := by
  simp [FsState.setFd]

/-- `fds[fd].offset = pos` -/
def FsState.seek (s : FsState) (fd pos : Nat) : FsState :=
  s.setFd fd { s.fds fd with offset := pos }

theorem FsState.advance_eq_seek (s : FsState) (fd n : Nat) (h : (s.fds fd).offset + n < 2 ^ 32) :
    s.advance fd n = s.seek fd ((s.fds fd).offset + n) := by
  rw [FsState.advance, u32, Nat.mod_eq_of_lt h, FsState.seek]

theorem FsState.seek_offset (s : FsState) (fd pos : Nat) :
    ((s.seek fd pos).fds fd).offset = pos := by
  simp [FsState.seek]

@[simp] theorem FsState.seek_ramdisk (s : FsState) (fd pos : Nat) :
    (s.seek fd pos).ramdisk = s.ramdisk := rfl

theorem FsState.seek_seek (s : FsState) (fd pos pos' : Nat) :
    (s.seek fd pos).seek fd pos' = s.seek fd pos' := by
  simp [FsState.seek, FsState.setFd]

theorem FsState.seek_self (s : FsState) (fd : Nat) : s.seek fd (s.fds fd).offset = s :=
  s.setFd_self fd

/-! ## The loop -/

/-- From `done` bytes on the loop transfers exactly the bytes that are still missing. The
induction follows the loop; that the rest of the read lies before the end of the file is
what rules out its `break`. -/
theorem fsReadLoop_eq {fds₀ : Nat → File} {fd i count : Nat} (s : FsState) (out : Mem)
    (done : Nat) (h : Sound (view s.ramdisk) fds₀) (hi : (view s.ramdisk).IsFile i)
    (hdone : done ≤ count)
    (hsize : (s.fds fd).offset + (count - done) ≤ ((view s.ramdisk).inode i).size) :
    fsReadLoop fd i count s out done =
      (count,
        fun x => if done ≤ x ∧ x < count then
          (view s.ramdisk).byte i ((s.fds fd).offset + (x - done)) else out x,
        s.seek fd ((s.fds fd).offset + (count - done))) := by
  induction s, out, done using fsReadLoop.induct fd i count with
  | case1 s out done hlt pos hbreak =>
    obtain ⟨hpos, hne, -, -⟩ := h.block_of_lt_size hi (show (s.fds fd).offset < _ by omega)
    rw [inodeBlock_eq hi.2.1 (by simp only [fsBlockSize]; omega)] at hbreak
    rcases hbreak with hbig | hzero
    · simp only [pos, fsBlockSize, fsDirect] at hbig
      omega
    · exact absurd hzero hne
  | case2 s out done hlt pos hgo n out' ih =>
    obtain ⟨hpos, hne, h5, h256⟩ := h.block_of_lt_size hi (show (s.fds fd).offset < _ by omega)
    have hchunk : n = min (4096 - (s.fds fd).offset % 4096) (count - done) := chunk_eq ..
    have hle := h.size_le i hi
    have hadv := s.advance_eq_seek fd n (by omega)
    have hoff : ((s.seek fd ((s.fds fd).offset + n)).fds fd).offset = (s.fds fd).offset + n :=
      s.seek_offset fd _
    rw [fsReadLoop, dif_pos hlt]
    dsimp only
    rw [if_neg hgo]
    rw [hadv, FsState.seek_ramdisk, hoff] at ih
    specialize ih h hi (by omega) (by omega)
    rw [hadv, ih, FsState.seek_seek]
    have hend : (s.fds fd).offset + n + (count - (done + n)) =
        (s.fds fd).offset + (count - done) := by omega
    rw [hend]
    refine Prod.ext rfl (Prod.ext (funext fun x => ?_) rfl)
    dsimp only
    by_cases hx : done + n ≤ x ∧ x < count
    · rw [if_pos hx, if_pos (by omega)]
      congr 1
      omega
    · rw [if_neg hx]
      by_cases hx' : done ≤ x ∧ x < done + n
      · rw [if_pos (by omega)]
        refine (copy_inside out done _ n hx').trans ?_
        exact ramdisk_diskPos hi.2.1 hpos h5 h256 (by omega)
      · rw [if_neg (by omega)]
        exact copy_frame out done _ n x (by omega)
  | case3 s out done hge =>
    have hcount : done = count := by omega
    subst hcount
    rw [fsReadLoop, dif_neg hge, Nat.sub_self, Nat.add_zero, FsState.seek_self]
    refine Prod.ext rfl (Prod.ext (funext fun x => ?_) rfl)
    exact (if_neg (by omega)).symm

/-- In any state the loop does nothing but move the offset by what it transferred. -/
theorem fsReadLoop_moves {fd i count : Nat} (s : FsState) (out : Mem) (done : Nat)
    (hdone : done ≤ count) (hoff : (s.fds fd).offset + (count - done) < 2 ^ 32) :
    done ≤ (fsReadLoop fd i count s out done).1 ∧
      (fsReadLoop fd i count s out done).1 ≤ count ∧
      (fsReadLoop fd i count s out done).2.2 = s.seek fd
        ((s.fds fd).offset + ((fsReadLoop fd i count s out done).1 - done)) := by
  induction s, out, done using fsReadLoop.induct fd i count with
  | case1 s out done hlt pos hbreak =>
    rw [fsReadLoop, dif_pos hlt]
    dsimp only
    rw [if_pos hbreak, Nat.sub_self, Nat.add_zero, FsState.seek_self]
    exact ⟨le_rfl, hdone, rfl⟩
  | case2 s out done hlt pos hgo n out' ih =>
    have hchunk : n = min (4096 - (s.fds fd).offset % 4096) (count - done) := chunk_eq ..
    have hround : fsReadLoop fd i count s out done =
        fsReadLoop fd i count (s.advance fd n) out' (done + n) := by
      rw [fsReadLoop, dif_pos hlt]
      dsimp only
      rw [if_neg hgo]
    rw [hround]
    rw [s.advance_eq_seek fd n (by omega)] at ih ⊢
    rw [s.seek_offset fd, FsState.seek_seek] at ih
    obtain ⟨hle, hle', hstate⟩ := ih (by omega) (by omega)
    refine ⟨by omega, hle', hstate.trans ?_⟩
    congr 1
    omega
  | case3 s out done hge =>
    rw [fsReadLoop, dif_neg hge, Nat.sub_self, Nat.add_zero, FsState.seek_self]
    exact ⟨le_rfl, hdone, rfl⟩

/-- Whether the loop of `fs_read` is left through its `break`. -/
def fsReadLoopBreaks (fd ino count : Nat) (s : FsState) (done : Nat) : Bool :=
  if _h : done < count then
    let pos := (s.fds fd).offset
    if pos / fsBlockSize ≥ fsDirect ∨ inodeBlock s.ramdisk ino (pos / fsBlockSize) = 0 then true
    else fsReadLoopBreaks fd ino count (s.advance fd (chunk pos count done))
      (done + chunk pos count done)
  else false
termination_by count - done
decreasing_by
  have := chunk_pos (s.fds fd).offset ‹done < count›
  omega

/-- A read is cut short exactly by the `break`. -/
theorem fsReadLoopBreaks_eq {fd i count : Nat} (s : FsState) (out : Mem) (done : Nat) :
    fsReadLoopBreaks fd i count s done = decide ((fsReadLoop fd i count s out done).1 < count) := by
  induction s, out, done using fsReadLoop.induct fd i count with
  | case1 s out done hlt pos hbreak =>
    rw [fsReadLoop, fsReadLoopBreaks, dif_pos hlt, dif_pos hlt]
    dsimp only
    rw [if_pos hbreak, if_pos hbreak]
    exact (decide_eq_true hlt).symm
  | case2 s out done hlt pos hgo n out' ih =>
    rw [fsReadLoop, fsReadLoopBreaks, dif_pos hlt, dif_pos hlt]
    dsimp only
    rw [if_neg hgo, if_neg hgo]
    exact ih
  | case3 s out done hge =>
    rw [fsReadLoop, fsReadLoopBreaks, dif_neg hge, dif_neg hge]
    exact (decide_eq_false hge).symm

/-! ## The function -/

section Function

variable {s : FsState}

/-- Whether `fs_read` meets a missing block before the end of the file. -/
def fsReadBreaks (s : FsState) (fd : Int) (count : Nat) : Bool :=
  let f := s.fds fd.toNat
  if f.offset ≥ inodeSize s.ramdisk f.inode then false
  else
    let available := inodeSize s.ramdisk f.inode - f.offset
    let count := if count > available then available else count
    fsReadLoopBreaks fd.toNat f.inode count s 0

/-- How far the offset of `fd` is before the end of its file. -/
def unread (s : FsState) (fd : Int) : Nat :=
  inodeSize s.ramdisk (s.fds fd.toNat).inode - (s.fds fd.toNat).offset

/-- A read that returns something brings the end of the file nearer. -/
theorem unread_fsRead_lt {fd : Int} {buf : Option Mem} {count : Nat}
    (h : 0 < (fsRead s fd buf count).1) :
    unread (fsRead s fd buf count).2.2 fd < unread s fd := by
  cases buf with
  | none => exact absurd h (by decide : ¬(0 : Int) < -1)
  | some out =>
    unfold fsRead at h ⊢
    dsimp only at h ⊢
    split at h
    · contradiction
    · split at h
      · contradiction
      · split at h
        · contradiction
        · rename_i hbad htype hend
          rw [if_neg hbad, if_neg htype, if_neg hend]
          have hsize : inodeSize s.ramdisk (s.fds fd.toNat).inode < 2 ^ 32 := loadLE_lt _ _ 4
          generalize hn : (if count > inodeSize s.ramdisk (s.fds fd.toNat).inode -
            (s.fds fd.toNat).offset then _ else count) = n at h ⊢
          have hle : n ≤ inodeSize s.ramdisk (s.fds fd.toNat).inode -
              (s.fds fd.toNat).offset := by
            rw [← hn]
            split <;> omega
          have hoff : (s.fds fd.toNat).offset + (n - 0) < 2 ^ 32 := by omega
          obtain ⟨-, hmax, hstate⟩ := fsReadLoop_moves (i := (s.fds fd.toNat).inode) s out 0
            (Nat.zero_le n) hoff
          generalize fsReadLoop fd.toNat (s.fds fd.toNat).inode n s out 0 = r at h hmax hstate ⊢
          dsimp only at h ⊢
          have hino : (r.2.2.fds fd.toNat).inode = (s.fds fd.toNat).inode := by
            rw [hstate]
            simp [FsState.seek]
          rw [unread, hino, hstate, FsState.seek_offset, FsState.seek_ramdisk, unread]
          omega

/-- The number of bytes a read of `count` bytes through descriptor `n` gets. -/
def FsState.readable (s : FsState) (n count : Nat) : Nat :=
  min count (((view s.ramdisk).inode (s.fds n).inode).size - (s.fds n).offset)

theorem fsRead_open (h : Sound (view s.ramdisk) s.fds) {n : Nat} (hn : s.IsOpen n) (out : Mem)
    (count : Nat) :
    fsRead s n (some out) count =
      ((s.readable n count : Int),
        some fun x => if x < s.readable n count then
          (view s.ramdisk).byte (s.fds n).inode ((s.fds n).offset + x) else out x,
        s.seek n ((s.fds n).offset + s.readable n count)) := by
  have hf := h.fd_sound n hn.1
  have hi := hf.file hn.2
  have hguard := h.not_rejected hi
  have hoff := hf.offset hn.2
  unfold fsRead
  dsimp only
  rw [if_neg (not_badFd_of_isOpen hn), Int.toNat_natCast, if_neg hguard, inodeSize_eq hi.2.1]
  split
  · rename_i hend
    have hzero : s.readable n count = 0 := by
      unfold FsState.readable
      omega
    rw [hzero, Nat.add_zero, FsState.seek_self]
    simp
  · rename_i hend
    have hclamp : (if count > ((view s.ramdisk).inode (s.fds n).inode).size - (s.fds n).offset
        then ((view s.ramdisk).inode (s.fds n).inode).size - (s.fds n).offset else count) =
        s.readable n count := by
      unfold FsState.readable
      split <;> omega
    have hle : (s.fds n).offset + (s.readable n count - 0) ≤
        ((view s.ramdisk).inode (s.fds n).inode).size := by
      unfold FsState.readable
      omega
    rw [hclamp, fsReadLoop_eq s out 0 h hi (Nat.zero_le _) hle]
    simp

theorem fsReadBreaks_open (h : Sound (view s.ramdisk) s.fds) {n : Nat} (hn : s.IsOpen n)
    (count : Nat) : fsReadBreaks s n count = false := by
  have hi := (h.fd_sound n hn.1).file hn.2
  unfold fsReadBreaks
  dsimp only
  rw [Int.toNat_natCast, inodeSize_eq hi.2.1]
  split
  · rfl
  · rename_i hlt
    rw [fsReadLoopBreaks_eq s (fun _ => 0) 0, fsReadLoop_eq s _ 0 h hi (Nat.zero_le _)]
    · exact decide_eq_false (Nat.lt_irrefl _)
    · split <;> omega

theorem fsRead_cases (h : Sound (view s.ramdisk) s.fds) (fd : Int) (buf : Option Mem)
    (count : Nat) :
    (fsRead s fd buf count = (-1, buf, s) ∧
      (buf = none ∨ ∀ n : Nat, fd = n → ¬ s.IsOpen n)) ∨
    ∃ (n : Nat) (out : Mem), fd = n ∧ s.IsOpen n ∧ buf = some out ∧
      fsRead s fd buf count =
        ((s.readable n count : Int),
          some fun x => if x < s.readable n count then
            (view s.ramdisk).byte (s.fds n).inode ((s.fds n).offset + x) else out x,
          s.seek n ((s.fds n).offset + s.readable n count)) := by
  cases buf with
  | none => exact Or.inl ⟨rfl, Or.inl rfl⟩
  | some out =>
    by_cases hbad : badFd s fd
    · refine Or.inl ⟨?_, Or.inr (badFd_iff.mp hbad)⟩
      unfold fsRead
      dsimp only
      rw [if_pos hbad]
    · obtain ⟨n, rfl, hn⟩ := not_badFd_iff.mp hbad
      exact Or.inr ⟨n, out, rfl, hn, rfl, fsRead_open h hn out count⟩

end Function

end SengOs.Fs
