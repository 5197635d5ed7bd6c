import SengOs.Fs.Ops

/-!
# The tables stored on the disk

`view m` decodes the bytes of the disk into the tables that `fs.c` keeps there: the two
bitmaps, the inode table, the root directory and the data blocks. Each table is a function
that is constant outside the range of its index, so that two disks with the same tables
have equal views.

The five lemmas `view_of_*_frame` are the frame rule of this layout: a write inside one
record changes that record and nothing else in the view. All later reasoning about
`fs.c` happens on views.
-/

namespace SengOs.Fs

open ByteMemory CString

/-- `inode_t` -/
@[ext] structure Inode where
  used : Byte
  type : Byte
  mode : Nat
  size : Nat
  blocks : Nat → Nat
  name : Nat → Byte

/-- `dirent_t` -/
@[ext] structure Dirent where
  inode : Nat
  used : Byte
  name : Nat → Byte

/-- The record left by `k_memset(&inodes[i], 0, sizeof(inode_t))`. -/
def Inode.zero : Inode := ⟨0, 0, 0, 0, fun _ => 0, fun _ => 0⟩

def Dirent.zero : Dirent := ⟨0, 0, fun _ => 0⟩

/-- The tables on the disk. -/
@[ext] structure Tables where
  inodeBit : Nat → Bool
  blockBit : Nat → Bool
  inode : Nat → Inode
  dirent : Nat → Dirent
  data : Nat → Nat → Byte

def inodeAt (m : Mem) (i : Nat) : Inode where
  used := inodeUsed m i
  type := inodeType m i
  mode := inodeMode m i
  size := inodeSize m i
  blocks k := if k < 8 then inodeBlock m i k else 0
  name j := if j < 24 then inodeName m i j else 0

def direntAt (m : Mem) (d : Nat) : Dirent where
  inode := direntInode m d
  used := direntUsed m d
  name j := if j < 29 then direntName m d j else 0

def view (m : Mem) : Tables where
  inodeBit i := decide (i < 64) && bitTest m inodeBitmap i
  blockBit b := decide (b < 256) && bitTest m blockBitmap b
  inode i := if i < 64 then inodeAt m i else Inode.zero
  dirent d := if d < 128 then direntAt m d else Dirent.zero
  data b o := if 5 ≤ b ∧ b < 256 ∧ o < 4096 then m (b * 4096 + o) else 0

/-! ## Reading the disk through the view -/

section Reads

variable {m : Mem} {i k j d b : Nat}

theorem view_inode (hi : i < 64) : (view m).inode i = inodeAt m i := if_pos hi

theorem view_dirent (hd : d < 128) : (view m).dirent d = direntAt m d := if_pos hd

theorem inodeUsed_eq (hi : i < 64) : inodeUsed m i = ((view m).inode i).used := by
  rw [view_inode hi]; rfl

theorem inodeType_eq (hi : i < 64) : inodeType m i = ((view m).inode i).type := by
  rw [view_inode hi]; rfl

theorem inodeSize_eq (hi : i < 64) : inodeSize m i = ((view m).inode i).size := by
  rw [view_inode hi]; rfl

theorem inodeBlock_eq (hi : i < 64) (hk : k < 8) :
    inodeBlock m i k = ((view m).inode i).blocks k := by
  rw [view_inode hi]; exact (if_pos hk).symm

theorem direntInode_eq (hd : d < 128) : direntInode m d = ((view m).dirent d).inode := by
  rw [view_dirent hd]; rfl

theorem direntUsed_eq (hd : d < 128) : direntUsed m d = ((view m).dirent d).used := by
  rw [view_dirent hd]; rfl

theorem direntName_eq (hd : d < 128) (hj : j < 29) :
    direntName m d j = ((view m).dirent d).name j := by
  rw [view_dirent hd]; exact (if_pos hj).symm

theorem bitTest_inodeBitmap (hi : i < 64) :
    bitTest m inodeBitmap i = (view m).inodeBit i := by
  simp [view, hi]

theorem bitTest_blockBitmap (hb : b < 256) :
    bitTest m blockBitmap b = (view m).blockBit b := by
  simp [view, hb]

end Reads

/-! ## Records of zeros -/

/-- The fields of an inode cover its record. -/
theorem byte_of_inodeAt_zero {m : Mem} {i : Nat} (h : inodeAt m i = Inode.zero) {a : Nat}
    (ha : inodeAddr i ≤ a) (ha' : a < inodeAddr i + 64) : m a = 0 := by
  obtain ⟨o, rfl⟩ := Nat.exists_eq_add_of_le ha
  have ho : o < 64 := by omega
  by_cases h0 : o = 0
  · subst h0; exact congrArg Inode.used h
  by_cases h1 : o = 1
  · subst h1; exact congrArg Inode.type h
  by_cases h4 : o < 4
  · exact eq_zero_of_loadLE (congrArg Inode.mode h) (by omega) (by omega)
  by_cases h8 : o < 8
  · exact eq_zero_of_loadLE (congrArg Inode.size h) (by omega) (by omega)
  by_cases h40 : o < 40
  · have hblock := congrFun (congrArg Inode.blocks h) ((o - 8) / 4)
    simp only [inodeAt, if_pos (show (o - 8) / 4 < 8 by omega)] at hblock
    exact eq_zero_of_loadLE hblock (by omega) (by omega)
  · have hname := congrFun (congrArg Inode.name h) (o - 40)
    simp only [inodeAt, if_pos (show o - 40 < 24 by omega)] at hname
    have haddr : inodeAddr i + o = inodeAddr i + 40 + (o - 40) := by omega
    rw [haddr]
    exact hname

theorem byte_of_direntAt_zero {m : Mem} {d : Nat} (h : direntAt m d = Dirent.zero) {a : Nat}
    (ha : direntAddr d ≤ a) (ha' : a < direntAddr d + 32) : m a = 0 := by
  obtain ⟨o, rfl⟩ := Nat.exists_eq_add_of_le ha
  by_cases h2 : o < 2
  · exact eq_zero_of_loadLE (congrArg Dirent.inode h) (by omega) (by omega)
  by_cases h3 : o = 2
  · subst h3; exact congrArg Dirent.used h
  · have hname := congrFun (congrArg Dirent.name h) (o - 3)
    simp only [direntAt, if_pos (show o - 3 < 29 by omega)] at hname
    have haddr : direntAddr d + o = direntAddr d + 3 + (o - 3) := by omega
    rw [haddr]
    exact hname

/-! ## Congruence of the decoders -/

section Records

variable {m m' : Mem} {i d : Nat}

theorem inodeAt_blocks_congr (h : Agree m m' (inodeAddr i + 8) (inodeAddr i + 40)) :
    (inodeAt m i).blocks = (inodeAt m' i).blocks := by
  funext k
  simp only [inodeAt]
  split
  · exact loadLE_congr (h.mono (by omega) (by omega))
  · rfl

theorem inodeAt_name_congr (h : Agree m m' (inodeAddr i + 40) (inodeAddr i + 64)) :
    (inodeAt m i).name = (inodeAt m' i).name := by
  funext j
  simp only [inodeAt]
  split
  · exact h _ (by omega) (by omega)
  · rfl

theorem inodeAt_congr (h : Agree m m' (inodeAddr i) (inodeAddr i + 64)) :
    inodeAt m i = inodeAt m' i := by
  apply Inode.ext
  · exact h _ (by omega) (by omega)
  · exact h _ (by omega) (by omega)
  · exact loadLE_congr (h.mono (by omega) (by omega))
  · exact loadLE_congr (h.mono (by omega) (by omega))
  · exact inodeAt_blocks_congr (h.mono (by omega) (by omega))
  · exact inodeAt_name_congr (h.mono (by omega) (by omega))

theorem direntAt_congr (h : Agree m m' (direntAddr d) (direntAddr d + 32)) :
    direntAt m d = direntAt m' d := by
  apply Dirent.ext
  · exact loadLE_congr (h.mono (by omega) (by omega))
  · exact h _ (by omega) (by omega)
  · funext j
    simp only [direntAt]
    split
    · exact h _ (by omega) (by omega)
    · rfl

end Records

theorem bitTest_congr {m m' : Mem} {map n : Nat} (h : m (map + n / 8) = m' (map + n / 8)) :
    bitTest m map n = bitTest m' map n :=
  Bitmap.test_congr h

section Congr

variable {m m' : Mem}

theorem view_inodeBit_congr (h : Agree m m' 4096 4104) :
    (view m).inodeBit = (view m').inodeBit := by
  funext i
  simp only [view]
  by_cases hi : i < 64
  · rw [bitTest_congr (h _ (by simp) (by simp only [inodeBitmap, fsBlockSize]; omega))]
  · simp [hi]

theorem view_blockBit_congr (h : Agree m m' 8192 8224) :
    (view m).blockBit = (view m').blockBit := by
  funext b
  simp only [view]
  by_cases hb : b < 256
  · rw [bitTest_congr (h _ (by simp) (by simp only [blockBitmap, fsBlockSize]; omega))]
  · simp [hb]

theorem view_inode_congr {i : Nat} (h : Agree m m' (inodeAddr i) (inodeAddr i + 64)) :
    (view m).inode i = (view m').inode i := by
  simp only [view, inodeAt_congr h]

theorem view_dirent_congr {d : Nat} (h : Agree m m' (direntAddr d) (direntAddr d + 32)) :
    (view m).dirent d = (view m').dirent d := by
  simp only [view, direntAt_congr h]

theorem view_data_congr {b : Nat} (h : Agree m m' (b * 4096) (b * 4096 + 4096)) :
    (view m).data b = (view m').data b := by
  funext o
  simp only [view]
  split
  · exact h _ (by omega) (by omega)
  · rfl

end Congr

/-! ## The frame rule of the layout -/

section Frames

variable {m m' : Mem}

theorem inodeAddr_eq (i : Nat) : inodeAddr i = 12288 + 64 * i := by simp; omega

theorem direntAddr_eq (d : Nat) : direntAddr d = 16384 + 32 * d := by simp; omega

/-- A frame before or after the inode table. -/
theorem view_inodes_of_frame {lo hi : Nat} (h : Frame m m' lo hi)
    (hd : hi ≤ 12288 ∨ 16384 ≤ lo) : (view m').inode = (view m).inode := by
  funext i
  by_cases hi : i < 64
  · exact view_inode_congr (h.agree (by rw [inodeAddr_eq]; omega))
  · simp [view, hi]

theorem view_dirents_of_frame {lo hi : Nat} (h : Frame m m' lo hi)
    (hd : hi ≤ 16384 ∨ 20480 ≤ lo) : (view m').dirent = (view m).dirent := by
  funext d
  by_cases hd : d < 128
  · exact view_dirent_congr (h.agree (by rw [direntAddr_eq]; omega))
  · simp [view, hd]

/-- The tables come before the data blocks. -/
theorem view_data_of_frame_lt {lo hi : Nat} (h : Frame m m' lo hi) (hd : hi ≤ 20480) :
    (view m').data = (view m).data := by
  funext b o
  simp only [view]
  split
  · exact h _ (by omega)
  · rfl

/-- The superblock is in no table. -/
theorem view_of_superblock_frame (h : Frame m m' 0 4096) : view m' = view m := by
  apply Tables.ext
  · exact view_inodeBit_congr (h.agree (by omega))
  · exact view_blockBit_congr (h.agree (by omega))
  · exact view_inodes_of_frame h (by omega)
  · exact view_dirents_of_frame h (by omega)
  · exact view_data_of_frame_lt h (by omega)

theorem view_of_inodeBitmap_frame (h : Frame m m' 4096 4104) :
    view m' = { view m with inodeBit := (view m').inodeBit } := by
  apply Tables.ext
  · rfl
  · exact view_blockBit_congr (h.agree (by omega))
  · exact view_inodes_of_frame h (by omega)
  · exact view_dirents_of_frame h (by omega)
  · exact view_data_of_frame_lt h (by omega)

theorem view_of_blockBitmap_frame (h : Frame m m' 8192 8224) :
    view m' = { view m with blockBit := (view m').blockBit } := by
  apply Tables.ext
  · exact view_inodeBit_congr (h.agree (by omega))
  · rfl
  · exact view_inodes_of_frame h (by omega)
  · exact view_dirents_of_frame h (by omega)
  · exact view_data_of_frame_lt h (by omega)

theorem view_of_inode_frame {i : Nat} (hi : i < 64)
    (h : Frame m m' (inodeAddr i) (inodeAddr i + 64)) :
    view m' = { view m with inode := Function.update (view m).inode i (inodeAt m' i) } := by
  rw [inodeAddr_eq] at h
  apply Tables.ext
  · exact view_inodeBit_congr (h.agree (by omega))
  · exact view_blockBit_congr (h.agree (by omega))
  · funext k
    by_cases hk : k = i
    · subst hk
      dsimp only
      rw [Function.update_self, view_inode hi]
    · dsimp only
      rw [Function.update_of_ne hk]
      exact view_inode_congr (h.agree (by rw [inodeAddr_eq]; omega))
  · exact view_dirents_of_frame h (by omega)
  · exact view_data_of_frame_lt h (by omega)

theorem view_of_dirent_frame {d : Nat} (hd : d < 128)
    (h : Frame m m' (direntAddr d) (direntAddr d + 32)) :
    view m' = { view m with dirent := Function.update (view m).dirent d (direntAt m' d) } := by
  rw [direntAddr_eq] at h
  apply Tables.ext
  · exact view_inodeBit_congr (h.agree (by omega))
  · exact view_blockBit_congr (h.agree (by omega))
  · exact view_inodes_of_frame h (by omega)
  · funext k
    by_cases hk : k = d
    · subst hk
      dsimp only
      rw [Function.update_self, view_dirent hd]
    · dsimp only
      rw [Function.update_of_ne hk]
      exact view_dirent_congr (h.agree (by rw [direntAddr_eq]; omega))
  · exact view_data_of_frame_lt h (by omega)

theorem view_of_data_frame {b : Nat} (hb : 5 ≤ b) (hb' : b < 256)
    (h : Frame m m' (b * 4096) (b * 4096 + 4096)) :
    view m' = { view m with
      data := Function.update (view m).data b
        (fun o => if o < 4096 then m' (b * 4096 + o) else 0) } := by
  apply Tables.ext
  · exact view_inodeBit_congr (h.agree (by omega))
  · exact view_blockBit_congr (h.agree (by omega))
  · exact view_inodes_of_frame h (by omega)
  · exact view_dirents_of_frame h (by omega)
  · funext c
    by_cases hc : c = b
    · subst hc
      dsimp only
      rw [Function.update_self]
      funext o
      simp only [view]
      exact if_congr (by omega) rfl rfl
    · dsimp only
      rw [Function.update_of_ne hc]
      exact view_data_congr (h.agree (by omega))

end Frames

end SengOs.Fs
