import SengOs.Fs.Effects

/-!
# The bytes behind the tables

The tables determine the bytes of their records, and the helpers write nowhere else: what is
in no table (the superblock, and the rest of the two bitmap blocks) stays as it is. So two
disks with the same tables, one made from the other by helpers, are equal byte for byte.
-/

namespace SengOs.Fs

open ByteMemory CString

/-- Address `a` is in no table of the view. -/
def Untabled (a : Nat) : Prop :=
  a < 4096 ∨ 4104 ≤ a ∧ a < 8192 ∨ 8224 ≤ a ∧ a < 12288 ∨ 1048576 ≤ a

/-- The disks agree on what is in no table. -/
def SameRest (m m' : Mem) : Prop := ∀ a, Untabled a → m' a = m a

section Rest

variable {m m' m'' : Mem}

theorem SameRest.refl (m : Mem) : SameRest m m := fun _ _ => rfl

theorem SameRest.trans (h : SameRest m m') (h' : SameRest m' m'') : SameRest m m'' :=
  fun a ha => (h' a ha).trans (h a ha)

/-- A write inside one of the tables. -/
theorem SameRest.of_frame {lo hi : Nat} (h : Frame m m' lo hi)
    (hin : 4096 ≤ lo ∧ hi ≤ 4104 ∨ 8192 ≤ lo ∧ hi ≤ 8224 ∨ 12288 ≤ lo ∧ hi ≤ 1048576) :
    SameRest m m' := by
  intro a ha
  unfold Untabled at ha
  exact h a (by omega)

theorem sameRest_inode {i : Nat} (hi : i < 64)
    (h : Frame m m' (inodeAddr i) (inodeAddr i + 64)) : SameRest m m' :=
  .of_frame h (by rw [inodeAddr_eq]; omega)

theorem sameRest_dirent {d : Nat} (hd : d < 128)
    (h : Frame m m' (direntAddr d) (direntAddr d + 32)) : SameRest m m' :=
  .of_frame h (by rw [direntAddr_eq]; omega)

theorem sameRest_block {b : Nat} (hb : 5 ≤ b) (hb' : b < 256)
    (h : Frame m m' (b * 4096) (b * 4096 + 4096)) : SameRest m m' := .of_frame h (by omega)

theorem sameRest_allocInode {i : Nat} (h : allocInode m = some (i, m')) : SameRest m m' := by
  obtain ⟨-, hi, -⟩ := allocInode_some h
  unfold allocInode at h
  split at h
  · cases h
  · cases h
    refine .trans (.of_frame (bitSet_frame m inodeBitmap i ?_) (.inl ⟨le_rfl, le_rfl⟩)) ?_
    · simp only [inodeBitmap, fsBlockSize]
      omega
    · refine .trans (sameRest_inode hi (fill_frame _ _ 0 64)) ?_
      refine .trans (sameRest_inode hi ((update_frame _ _ _).mono ?_ ?_))
        (sameRest_inode hi ((update_frame _ _ _).mono ?_ ?_)) <;> omega

theorem sameRest_addDirent {name : CString} {ino : Nat} (hn : name.bytes.length < 29)
    (h : addDirent m name ino = some m') : SameRest m m' := by
  unfold addDirent at h
  split at h
  · cases h
  · rename_i d hd
    cases h
    have hd' : d < 128 := List.mem_range.mp (List.mem_of_find?_eq_some hd)
    refine .trans (sameRest_dirent hd' ((update_frame _ _ _).mono ?_ ?_)) (.trans
      (sameRest_dirent hd' ((storeLE_frame _ _ _ _).mono ?_ ?_))
      (sameRest_dirent hd' ((strncpy_frame _ _ _ hn).mono ?_ ?_))) <;> omega

theorem sameRest_allocBlock {b : Nat} (h : allocBlock m = some (b, m')) : SameRest m m' := by
  obtain ⟨h5, h256, -⟩ := allocBlock_some h
  unfold allocBlock at h
  split at h
  · cases h
  · cases h
    refine .trans (.of_frame (bitSet_frame m blockBitmap b ?_) (.inr (.inl ⟨le_rfl, le_rfl⟩)))
      (sameRest_block h5 h256 (fill_frame _ _ _ _))
    simp only [blockBitmap, fsBlockSize]
    omega

theorem sameRest_freeBlock (m : Mem) (b : Nat) : SameRest m (freeBlock m b) := by
  unfold freeBlock
  split
  · exact .refl m
  · rename_i hb
    refine .of_frame (bitClear_frame m blockBitmap b ?_) (.inr (.inl ⟨le_rfl, le_rfl⟩))
    simp only [blockBitmap, fsBlockSize, fsDataStart, fsNumBlocks, fsDiskSize] at *
    omega

theorem sameRest_freeBlocks (m : Mem) (i n : Nat) : SameRest m (freeBlocks m i n) := by
  induction n with
  | zero => exact .refl m
  | succ n ih =>
    unfold freeBlocks
    dsimp only
    split
    · exact ih.trans (sameRest_freeBlock _ _)
    · exact ih

theorem sameRest_freeInode (m : Mem) (i : Nat) : SameRest m (freeInode m i) := by
  unfold freeInode
  split
  · exact .refl m
  · rename_i hi
    simp only [fsRootInode, fsMaxInodes] at hi
    refine .trans (.of_frame (bitClear_frame m inodeBitmap i ?_) (.inl ⟨le_rfl, le_rfl⟩))
      (sameRest_inode (by omega) (fill_frame _ _ _ _))
    simp only [inodeBitmap, fsBlockSize]
    omega

theorem sameRest_removeDirent (m : Mem) (d : Nat) : SameRest m (removeDirent m d) := by
  unfold removeDirent
  split
  · rename_i hd
    exact sameRest_dirent (by simpa using hd) (fill_frame _ _ _ _)
  · exact .refl m

end Rest

/-! ## Equal tables, equal bytes -/

section Determined

variable {m m' : Mem}

theorem agree_of_inodeAt {i : Nat} (h : inodeAt m i = inodeAt m' i) :
    Agree m m' (inodeAddr i) (inodeAddr i + 64) := by
  intro a ha ha'
  obtain ⟨o, rfl⟩ := Nat.exists_eq_add_of_le ha
  rcases Nat.lt_or_ge o 40 with ho | ho
  · rcases Nat.lt_or_ge o 8 with ho | ho
    · rcases Nat.lt_or_ge o 4 with ho | ho
      · rcases Nat.lt_or_ge o 2 with ho | ho
        · obtain rfl | rfl : o = 0 ∨ o = 1 := by omega
          · exact congrArg Inode.used h
          · exact congrArg Inode.type h
        · exact agree_of_loadLE (congrArg Inode.mode h) _ (by omega) (by omega)
      · exact agree_of_loadLE (congrArg Inode.size h) _ (by omega) (by omega)
    · have hblock := congrFun (congrArg Inode.blocks h) ((o - 8) / 4)
      dsimp only [inodeAt] at hblock
      rw [if_pos (by omega), if_pos (by omega)] at hblock
      exact agree_of_loadLE hblock _ (by omega) (by omega)
  · have hname := congrFun (congrArg Inode.name h) (o - 40)
    dsimp only [inodeAt] at hname
    rw [if_pos (by omega), if_pos (by omega)] at hname
    have haddr : inodeAddr i + o = inodeAddr i + 40 + (o - 40) := by omega
    rw [haddr]
    exact hname

theorem agree_of_direntAt {d : Nat} (h : direntAt m d = direntAt m' d) :
    Agree m m' (direntAddr d) (direntAddr d + 32) := by
  intro a ha ha'
  obtain ⟨o, rfl⟩ := Nat.exists_eq_add_of_le ha
  rcases Nat.lt_or_ge o 3 with ho | ho
  · rcases Nat.lt_or_ge o 2 with ho' | ho'
    · exact agree_of_loadLE (congrArg Dirent.inode h) _ (by omega) (by omega)
    · obtain rfl : o = 2 := by omega
      exact congrArg Dirent.used h
  · have hname := congrFun (congrArg Dirent.name h) (o - 3)
    dsimp only [direntAt] at hname
    rw [if_pos (by omega), if_pos (by omega)] at hname
    have haddr : direntAddr d + o = direntAddr d + 3 + (o - 3) := by omega
    rw [haddr]
    exact hname

theorem agree_of_bitTest (map n : Nat)
    (h : ∀ k < 8 * n, bitTest m map k = bitTest m' map k) : Agree m m' map (map + n) := by
  intro a ha ha'
  obtain ⟨o, rfl⟩ := Nat.exists_eq_add_of_le ha
  exact Bitmap.word_eq_of_test (by decide) (fun i => m (map + i)) (fun i => m' (map + i))
    fun j hj => h (8 * o + j) (by omega)

/-- Equal bitmaps, inode tables and directories, with the rest, are equal bytes. -/
theorem eq_of_view (hrest : SameRest m m') (hinodeBit : (view m').inodeBit = (view m).inodeBit)
    (hblockBit : (view m').blockBit = (view m).blockBit)
    (hinode : (view m').inode = (view m).inode) (hdirent : (view m').dirent = (view m).dirent)
    {a : Nat} (ha : a < 20480) : m' a = m a := by
  rcases Nat.lt_or_ge a 12288 with hlt | hge
  · rcases Nat.lt_or_ge a 8192 with hlt' | hge'
    · by_cases hin : 4096 ≤ a ∧ a < 4104
      · refine agree_of_bitTest inodeBitmap 8 (fun k hk => ?_) a hin.1 hin.2
        rw [bitTest_inodeBitmap (by omega), bitTest_inodeBitmap (by omega), hinodeBit]
      · exact hrest a (by unfold Untabled; omega)
    · by_cases hin : a < 8224
      · refine agree_of_bitTest blockBitmap 32 (fun k hk => ?_) a hge' hin
        rw [bitTest_blockBitmap (by omega), bitTest_blockBitmap (by omega), hblockBit]
      · exact hrest a (by unfold Untabled; omega)
  · rcases Nat.lt_or_ge a 16384 with hlt' | hge'
    · have hi : (a - 12288) / 64 < 64 := by omega
      have hrec := congrFun hinode ((a - 12288) / 64)
      rw [view_inode hi, view_inode hi] at hrec
      exact agree_of_inodeAt hrec a (by rw [inodeAddr_eq]; omega) (by rw [inodeAddr_eq]; omega)
    · have hd : (a - 16384) / 32 < 128 := by omega
      have hrec := congrFun hdirent ((a - 16384) / 32)
      rw [view_dirent hd, view_dirent hd] at hrec
      exact agree_of_direntAt hrec a (by rw [direntAddr_eq]; omega)
        (by rw [direntAddr_eq]; omega)

theorem eq_of_data {b o : Nat} (h : (view m').data b = (view m).data b) (hb : 5 ≤ b)
    (hb' : b < 256) (ho : o < 4096) : m' (b * 4096 + o) = m (b * 4096 + o) := by
  have hbyte := congrFun h o
  dsimp only [view] at hbyte
  rwa [if_pos ⟨hb, hb', ho⟩, if_pos ⟨hb, hb', ho⟩] at hbyte

end Determined

end SengOs.Fs
