import SengOs.Fs.View

/-!
# What the helpers of `fs.c` do to the tables

One lemma for each static helper: when it succeeds, which entry it chooses, and the view of
the disk afterwards as an update of the view before. The functions of the interface are
compositions of these helpers, so nothing later looks at a disk address.
-/

namespace SengOs.Fs

open ByteMemory CString

/-! ## Bits -/

theorem bitTest_bitSet (m : Mem) (map n k : Nat) :
    bitTest (bitSet m map n) map k = (decide (k = n) || bitTest m map k) := by
  have hset : (fun i => bitSet m map n (map + i)) = Bitmap.set (fun i => m (map + i)) n := by
    funext i
    by_cases hi : i = n / 8
    · subst hi; simp [bitSet, Bitmap.set]
    · have hne : map + i ≠ map + n / 8 := by omega
      simp only [bitSet, Bitmap.set, Function.update_of_ne hi, Function.update_of_ne hne]
  rw [bitTest, hset, Bitmap.test_set (by decide)]
  rfl

theorem bitTest_bitClear (m : Mem) (map n k : Nat) :
    bitTest (bitClear m map n) map k = (!decide (k = n) && bitTest m map k) := by
  have hclear : (fun i => bitClear m map n (map + i)) =
      Bitmap.clear (fun i => m (map + i)) n := by
    funext i
    by_cases hi : i = n / 8
    · subst hi; simp [bitClear, Bitmap.clear]
    · have hne : map + i ≠ map + n / 8 := by omega
      simp only [bitClear, Bitmap.clear, Function.update_of_ne hi, Function.update_of_ne hne]
  rw [bitTest, hclear, Bitmap.test_clear (by decide)]
  rfl

theorem bitSet_frame (m : Mem) (map n : Nat) {hi : Nat} (h : map + n / 8 < hi) :
    Frame m (bitSet m map n) map hi :=
  (update_frame m (map + n / 8) _).mono (by omega) (by omega)

theorem bitClear_frame (m : Mem) (map n : Nat) {hi : Nat} (h : map + n / 8 < hi) :
    Frame m (bitClear m map n) map hi :=
  (update_frame m (map + n / 8) _).mono (by omega) (by omega)

theorem view_setInodeBit (m : Mem) {i : Nat} (hi : i < 64) :
    view (bitSet m inodeBitmap i) =
      { view m with inodeBit := Function.update (view m).inodeBit i true } := by
  have hf : Frame m (bitSet m inodeBitmap i) 4096 4104 :=
    bitSet_frame m inodeBitmap i (by simp only [inodeBitmap, fsBlockSize]; omega)
  have hbits : (view (bitSet m inodeBitmap i)).inodeBit =
      Function.update (view m).inodeBit i true := by
    funext k
    by_cases hk : k = i
    · subst hk; simp [view, bitTest_bitSet, hi]
    · rw [Function.update_of_ne hk]; simp [view, bitTest_bitSet, hk]
  rw [view_of_inodeBitmap_frame hf, hbits]

theorem view_clearInodeBit (m : Mem) {i : Nat} (hi : i < 64) :
    view (bitClear m inodeBitmap i) =
      { view m with inodeBit := Function.update (view m).inodeBit i false } := by
  have hf : Frame m (bitClear m inodeBitmap i) 4096 4104 :=
    bitClear_frame m inodeBitmap i (by simp only [inodeBitmap, fsBlockSize]; omega)
  have hbits : (view (bitClear m inodeBitmap i)).inodeBit =
      Function.update (view m).inodeBit i false := by
    funext k
    by_cases hk : k = i
    · subst hk; simp [view, bitTest_bitClear]
    · rw [Function.update_of_ne hk]; simp [view, bitTest_bitClear, hk]
  rw [view_of_inodeBitmap_frame hf, hbits]

theorem view_setBlockBit (m : Mem) {b : Nat} (hb : b < 256) :
    view (bitSet m blockBitmap b) =
      { view m with blockBit := Function.update (view m).blockBit b true } := by
  have hf : Frame m (bitSet m blockBitmap b) 8192 8224 :=
    bitSet_frame m blockBitmap b (by simp only [blockBitmap, fsBlockSize]; omega)
  have hbits : (view (bitSet m blockBitmap b)).blockBit =
      Function.update (view m).blockBit b true := by
    funext k
    by_cases hk : k = b
    · subst hk; simp [view, bitTest_bitSet, hb]
    · rw [Function.update_of_ne hk]; simp [view, bitTest_bitSet, hk]
  rw [view_of_blockBitmap_frame hf, hbits]

theorem view_clearBlockBit (m : Mem) {b : Nat} (hb : b < 256) :
    view (bitClear m blockBitmap b) =
      { view m with blockBit := Function.update (view m).blockBit b false } := by
  have hf : Frame m (bitClear m blockBitmap b) 8192 8224 :=
    bitClear_frame m blockBitmap b (by simp only [blockBitmap, fsBlockSize]; omega)
  have hbits : (view (bitClear m blockBitmap b)).blockBit =
      Function.update (view m).blockBit b false := by
    funext k
    by_cases hk : k = b
    · subst hk; simp [view, bitTest_bitClear]
    · rw [Function.update_of_ne hk]; simp [view, bitTest_bitClear, hk]
  rw [view_of_blockBitmap_frame hf, hbits]

/-! ## Inodes -/

/-- The inode that `alloc_inode` leaves. -/
def Inode.fresh : Inode := { Inode.zero with used := 1, type := fsFile }

theorem inodeAt_of_zeros {m : Mem} {i : Nat}
    (h : ∀ a, inodeAddr i ≤ a → a < inodeAddr i + 64 → m a = 0) :
    inodeAt m i = Inode.zero := by
  apply Inode.ext
  · exact h _ (by omega) (by omega)
  · exact h _ (by omega) (by omega)
  · exact loadLE_zero (fun a h₁ h₂ => h a (by omega) (by omega))
  · exact loadLE_zero (fun a h₁ h₂ => h a (by omega) (by omega))
  · funext k
    simp only [inodeAt, Inode.zero]
    split
    · exact loadLE_zero (fun a h₁ h₂ => h a (by omega) (by omega))
    · rfl
  · funext j
    simp only [inodeAt, Inode.zero]
    split
    · exact h _ (by omega) (by omega)
    · rfl

theorem inodeAt_setInodeUsed (m : Mem) (i : Nat) (v : Byte) :
    inodeAt (setInodeUsed m i v) i = { inodeAt m i with used := v } := by
  have hf : Frame m (setInodeUsed m i v) (inodeAddr i) (inodeAddr i + 1) := update_frame _ _ _
  apply Inode.ext
  · exact Function.update_self ..
  · exact hf _ (by omega)
  · exact loadLE_congr (hf.agree (by omega))
  · exact loadLE_congr (hf.agree (by omega))
  · exact inodeAt_blocks_congr (hf.agree (by omega))
  · exact inodeAt_name_congr (hf.agree (by omega))

theorem inodeAt_setInodeType (m : Mem) (i : Nat) (v : Byte) :
    inodeAt (setInodeType m i v) i = { inodeAt m i with type := v } := by
  have hf : Frame m (setInodeType m i v) (inodeAddr i + 1) (inodeAddr i + 1 + 1) :=
    update_frame _ _ _
  apply Inode.ext
  · exact hf _ (by omega)
  · exact Function.update_self ..
  · exact loadLE_congr (hf.agree (by omega))
  · exact loadLE_congr (hf.agree (by omega))
  · exact inodeAt_blocks_congr (hf.agree (by omega))
  · exact inodeAt_name_congr (hf.agree (by omega))

theorem inodeAt_setInodeSize (m : Mem) (i v : Nat) :
    inodeAt (setInodeSize m i v) i = { inodeAt m i with size := v % 2 ^ 32 } := by
  have hf : Frame m (setInodeSize m i v) (inodeAddr i + 4) (inodeAddr i + 4 + 4) :=
    storeLE_frame _ _ _ _
  apply Inode.ext
  · exact hf _ (by omega)
  · exact hf _ (by omega)
  · exact loadLE_congr (hf.agree (by omega))
  · exact loadLE_storeLE ..
  · exact inodeAt_blocks_congr (hf.agree (by omega))
  · exact inodeAt_name_congr (hf.agree (by omega))

theorem inodeAt_setInodeBlock (m : Mem) (i v : Nat) {k : Nat} (hk : k < 8) :
    inodeAt (setInodeBlock m i k v) i =
      { inodeAt m i with blocks := Function.update (inodeAt m i).blocks k (v % 2 ^ 32) } := by
  have hf : Frame m (setInodeBlock m i k v) (inodeAddr i + 8 + 4 * k)
      (inodeAddr i + 8 + 4 * k + 4) := storeLE_frame _ _ _ _
  apply Inode.ext
  · exact hf _ (by omega)
  · exact hf _ (by omega)
  · exact loadLE_congr (hf.agree (by omega))
  · exact loadLE_congr (hf.agree (by omega))
  · funext j
    by_cases hj : j = k
    · subst hj
      dsimp only [inodeAt]
      rw [if_pos hk, Function.update_self]
      exact loadLE_storeLE ..
    · dsimp only [inodeAt]
      rw [Function.update_of_ne hj]
      split
      · exact loadLE_congr (hf.agree (by omega))
      · rfl
  · exact inodeAt_name_congr (hf.agree (by omega))

/-- The 24-byte name field after a copy of `name`, whose terminator fits in it. -/
theorem inodeAt_setInodeName (m : Mem) (i : Nat) {name : CString} (hn : name.bytes.length < 24) :
    inodeAt (strncpy m (inodeAddr i + 40) name 24) i =
      { inodeAt m i with name := fun j =>
          if j ≤ name.bytes.length then name.byteAt j else (inodeAt m i).name j } := by
  have hf := strncpy_frame m (inodeAddr i + 40) name hn
  apply Inode.ext
  · exact hf _ (by omega)
  · exact hf _ (by omega)
  · exact loadLE_congr (hf.agree (by omega))
  · exact loadLE_congr (hf.agree (by omega))
  · exact inodeAt_blocks_congr (hf.agree (by omega))
  · funext j
    dsimp only [inodeAt, inodeName]
    rw [strncpy_apply _ _ _ _ hn, Nat.add_sub_cancel_left]
    by_cases hj : j ≤ name.bytes.length
    · rw [if_pos (by omega : j < 24), if_pos (by omega), if_pos hj]
    · rw [if_neg (by omega : ¬ (_ ∧ _)), if_neg hj]

/-! ## Writing one inode of the table -/

theorem view_setInodeUsed (m : Mem) {i : Nat} (hi : i < 64) (v : Byte) :
    view (setInodeUsed m i v) = { view m with
      inode := Function.update (view m).inode i { (view m).inode i with used := v } } := by
  have hf : Frame m (setInodeUsed m i v) (inodeAddr i) (inodeAddr i + 64) :=
    (update_frame _ _ _).mono (by omega) (by omega)
  rw [view_of_inode_frame hi hf, inodeAt_setInodeUsed, view_inode hi]

theorem view_setInodeType (m : Mem) {i : Nat} (hi : i < 64) (v : Byte) :
    view (setInodeType m i v) = { view m with
      inode := Function.update (view m).inode i { (view m).inode i with type := v } } := by
  have hf : Frame m (setInodeType m i v) (inodeAddr i) (inodeAddr i + 64) :=
    (update_frame _ _ _).mono (by omega) (by omega)
  rw [view_of_inode_frame hi hf, inodeAt_setInodeType, view_inode hi]

theorem view_setInodeSize (m : Mem) {i : Nat} (hi : i < 64) (v : Nat) :
    view (setInodeSize m i v) = { view m with
      inode := Function.update (view m).inode i
        { (view m).inode i with size := v % 2 ^ 32 } } := by
  have hf : Frame m (setInodeSize m i v) (inodeAddr i) (inodeAddr i + 64) :=
    (storeLE_frame _ _ _ _).mono (by omega) (by omega)
  rw [view_of_inode_frame hi hf, inodeAt_setInodeSize, view_inode hi]

theorem view_setInodeBlock (m : Mem) {i k : Nat} (hi : i < 64) (hk : k < 8) (v : Nat) :
    view (setInodeBlock m i k v) = { view m with
      inode := Function.update (view m).inode i
        { (view m).inode i with
          blocks := Function.update ((view m).inode i).blocks k (v % 2 ^ 32) } } := by
  have hf : Frame m (setInodeBlock m i k v) (inodeAddr i) (inodeAddr i + 64) :=
    (storeLE_frame _ _ _ _).mono (by omega) (by omega)
  rw [view_of_inode_frame hi hf, inodeAt_setInodeBlock _ _ _ hk, view_inode hi]

theorem view_setInodeName (m : Mem) {i : Nat} (hi : i < 64) {name : CString}
    (hn : name.bytes.length < 24) :
    view (strncpy m (inodeAddr i + 40) name 24) = { view m with
      inode := Function.update (view m).inode i
        { (view m).inode i with
          name := fun j =>
            if j ≤ name.bytes.length then name.byteAt j else ((view m).inode i).name j } } := by
  rw [view_of_inode_frame hi ((strncpy_frame _ _ _ hn).mono (by omega) (by omega)),
    inodeAt_setInodeName _ _ hn, view_inode hi]

theorem view_zeroInode (m : Mem) {i : Nat} (hi : i < 64) :
    view (fill m (inodeAddr i) 0 64) = { view m with
      inode := Function.update (view m).inode i Inode.zero } := by
  rw [view_of_inode_frame hi (fill_frame _ _ _ _),
    inodeAt_of_zeros (fun a h₁ h₂ => fill_inside _ _ _ _ ⟨h₁, h₂⟩)]

/-! ## `alloc_inode` and `free_inode` -/

theorem view_freshInode (m : Mem) {i : Nat} (hi : i < 64) :
    view (setInodeType (setInodeUsed (fill m (inodeAddr i) 0 64) i 1) i fsFile) = { view m with
      inode := Function.update (view m).inode i Inode.fresh } := by
  rw [view_setInodeType _ hi, view_setInodeUsed _ hi, view_zeroInode _ hi]
  simp only [Function.update_self, Function.update_idem]
  rfl

theorem allocInode_some {m m' : Mem} {i : Nat} (h : allocInode m = some (i, m')) :
    1 ≤ i ∧ i < 64 ∧ (view m).inodeBit i = false ∧
      (∀ j, 1 ≤ j → j < i → (view m).inodeBit j = true) ∧
      view m' = { view m with
        inodeBit := Function.update (view m).inodeBit i true
        inode := Function.update (view m).inode i Inode.fresh } := by
  unfold allocInode at h
  split at h
  · cases h
  · rename_i k hk
    cases h
    obtain ⟨hbit, hmem, hlow⟩ := List.find?_range'_eq_some.mp hk
    rw [List.mem_range'_1] at hmem
    simp only [fsMaxInodes] at hmem
    have hi : i < 64 := by omega
    refine ⟨hmem.1, hi, ?_, fun j h₁ h₂ => ?_, ?_⟩
    · rw [bitTest_inodeBitmap hi] at hbit
      simpa using hbit
    · have hj := hlow j h₁ h₂
      rw [bitTest_inodeBitmap (by omega)] at hj
      simpa using hj
    · dsimp only [sizeofInode]
      rw [view_freshInode _ hi, view_setInodeBit _ hi]

theorem allocInode_none {m : Mem} :
    allocInode m = none ↔ ∀ i, 1 ≤ i → i < 64 → (view m).inodeBit i = true := by
  have hscan : allocInode m = none ↔
      (List.range' 1 63).find? (fun i => !bitTest m inodeBitmap i) = none := by
    unfold allocInode
    split
    · rename_i h; exact ⟨fun _ => h, fun _ => rfl⟩
    · rename_i h; exact ⟨nofun, fun h' => nomatch h.symm.trans h'⟩
  rw [hscan, List.find?_range'_eq_none]
  constructor
  · intro h i h₁ h₂
    rw [← bitTest_inodeBitmap h₂]
    simpa using h i h₁ (by omega)
  · intro h i h₁ h₂
    rw [bitTest_inodeBitmap (by omega), h i h₁ (by omega)]
    rfl

theorem view_freeInode (m : Mem) {i : Nat} (hi : 1 ≤ i) (hi' : i < 64) :
    view (freeInode m i) = { view m with
      inodeBit := Function.update (view m).inodeBit i false
      inode := Function.update (view m).inode i Inode.zero } := by
  have hguard : ¬ (i = fsRootInode ∨ i ≥ fsMaxInodes) := by
    simp only [fsRootInode, fsMaxInodes]; omega
  rw [freeInode, if_neg hguard]
  dsimp only [sizeofInode]
  rw [view_zeroInode _ hi', view_clearInodeBit _ hi']

/-! ## `alloc_block` and `free_block` -/

theorem view_zeroBlock (m : Mem) {b : Nat} (hb : 5 ≤ b) (hb' : b < 256) :
    view (fill m (b * 4096) 0 4096) = { view m with
      data := Function.update (view m).data b (fun _ => 0) } := by
  have hbytes : (fun o => if o < 4096 then fill m (b * 4096) 0 4096 (b * 4096 + o) else 0) =
      fun _ => 0 := by
    funext o
    split
    · exact fill_inside _ _ _ _ (by omega)
    · rfl
  rw [view_of_data_frame hb hb' (fill_frame _ _ _ _), hbytes]

theorem allocBlock_some {m m' : Mem} {b : Nat} (h : allocBlock m = some (b, m')) :
    5 ≤ b ∧ b < 256 ∧ (view m).blockBit b = false ∧
      (∀ c, 5 ≤ c → c < b → (view m).blockBit c = true) ∧
      view m' = { view m with
        blockBit := Function.update (view m).blockBit b true
        data := Function.update (view m).data b (fun _ => 0) } := by
  unfold allocBlock at h
  split at h
  · cases h
  · rename_i k hk
    cases h
    obtain ⟨hbit, hmem, hlow⟩ := List.find?_range'_eq_some.mp hk
    rw [List.mem_range'_1] at hmem
    simp only [fsDataStart, fsNumBlocks, fsDiskSize, fsBlockSize] at hmem
    have hb : b < 256 := by omega
    refine ⟨hmem.1, hb, ?_, fun c h₁ h₂ => ?_, ?_⟩
    · rw [bitTest_blockBitmap hb] at hbit
      simpa using hbit
    · have hc := hlow c h₁ h₂
      rw [bitTest_blockBitmap (by omega)] at hc
      simpa using hc
    · dsimp only [fsBlockSize]
      rw [view_zeroBlock _ hmem.1 hb, view_setBlockBit _ hb]

theorem allocBlock_none {m : Mem} :
    allocBlock m = none ↔ ∀ b, 5 ≤ b → b < 256 → (view m).blockBit b = true := by
  have hscan : allocBlock m = none ↔
      (List.range' 5 251).find? (fun b => !bitTest m blockBitmap b) = none := by
    unfold allocBlock
    split
    · rename_i h; exact ⟨fun _ => h, fun _ => rfl⟩
    · rename_i h; exact ⟨nofun, fun h' => nomatch h.symm.trans h'⟩
  rw [hscan, List.find?_range'_eq_none]
  constructor
  · intro h b h₁ h₂
    rw [← bitTest_blockBitmap h₂]
    simpa using h b h₁ (by omega)
  · intro h b h₁ h₂
    rw [bitTest_blockBitmap (by omega), h b h₁ (by omega)]
    rfl

theorem view_freeBlock (m : Mem) {b : Nat} (hb : 5 ≤ b) (hb' : b < 256) :
    view (freeBlock m b) = { view m with
      blockBit := Function.update (view m).blockBit b false } := by
  have hguard : ¬ (b < fsDataStart ∨ b ≥ fsNumBlocks) := by
    simp only [fsDataStart, fsNumBlocks, fsDiskSize, fsBlockSize]; omega
  rw [freeBlock, if_neg hguard, view_clearBlockBit _ hb']

/-- The copy of `n` bytes to offset `off` of data block `b`. -/
theorem view_copyBlock (m : Mem) {b off n : Nat} (hb : 5 ≤ b) (hb' : b < 256)
    (hn : off + n ≤ 4096) (src : Nat → Byte) :
    view (copy m (b * 4096 + off) src n) = { view m with
      data := Function.update (view m).data b (fun o =>
        if off ≤ o ∧ o < off + n then src (o - off) else (view m).data b o) } := by
  have hbytes : (fun o => if o < 4096 then copy m (b * 4096 + off) src n (b * 4096 + o) else 0) =
      fun o => if off ≤ o ∧ o < off + n then src (o - off) else (view m).data b o := by
    funext o
    by_cases ho : o < 4096
    · rw [if_pos ho, copy_apply]
      by_cases hin : off ≤ o ∧ o < off + n
      · have hsub : b * 4096 + o - (b * 4096 + off) = o - off := by omega
        rw [if_pos (by omega), if_pos hin, hsub]
      · rw [if_neg (by omega), if_neg hin]
        exact (if_pos ⟨hb, hb', ho⟩).symm
    · rw [if_neg ho, if_neg (by omega)]
      exact (if_neg (by omega)).symm
  rw [view_of_data_frame hb hb' ((copy_frame _ _ _ _).mono (by omega) (by omega)), hbytes]

/-! ## Directory entries -/

theorem direntAt_of_zeros {m : Mem} {d : Nat}
    (h : ∀ a, direntAddr d ≤ a → a < direntAddr d + 32 → m a = 0) :
    direntAt m d = Dirent.zero := by
  apply Dirent.ext
  · exact loadLE_zero (fun a h₁ h₂ => h a (by omega) (by omega))
  · exact h _ (by omega) (by omega)
  · funext j
    simp only [direntAt, Dirent.zero]
    split
    · exact h _ (by omega) (by omega)
    · rfl

theorem view_removeDirent (m : Mem) {d : Nat} (hd : d < 128) :
    view (removeDirent m d) = { view m with
      dirent := Function.update (view m).dirent d Dirent.zero } := by
  rw [removeDirent, if_pos (by simpa using hd)]
  dsimp only [sizeofDirent]
  rw [view_of_dirent_frame hd (fill_frame _ _ _ _),
    direntAt_of_zeros (fun a h₁ h₂ => fill_inside _ _ _ _ ⟨h₁, h₂⟩)]

/-- The entry that `add_dirent` writes over `e`. -/
def Dirent.named (e : Dirent) (name : CString) (ino : Nat) : Dirent where
  inode := ino % 2 ^ 16
  used := 1
  name j := if j ≤ name.bytes.length then name.byteAt j else e.name j

theorem direntAt_addDirent (m : Mem) (d ino : Nat) {name : CString}
    (hn : name.bytes.length < 29) :
    direntAt (strncpy (setDirentInode (setDirentUsed m d 1) d ino) (direntAddr d + 3) name 29) d =
      (direntAt m d).named name ino := by
  have hf := strncpy_frame (setDirentInode (setDirentUsed m d 1) d ino) (direntAddr d + 3) name hn
  have hino : Frame (setDirentUsed m d 1) (setDirentInode (setDirentUsed m d 1) d ino)
      (direntAddr d) (direntAddr d + 2) := storeLE_frame _ _ _ _
  have hused : Frame m (setDirentUsed m d 1) (direntAddr d + 2) (direntAddr d + 2 + 1) :=
    update_frame _ _ _
  apply Dirent.ext
  · exact (loadLE_congr (hf.agree (by omega))).trans (loadLE_storeLE ..)
  · exact (hf _ (by omega)).trans ((hino _ (by omega)).trans (Function.update_self ..))
  · funext j
    dsimp only [direntAt, direntName, Dirent.named]
    rw [strncpy_apply _ _ _ _ hn, Nat.add_sub_cancel_left]
    by_cases hj : j ≤ name.bytes.length
    · rw [if_pos (by omega : j < 29), if_pos (by omega), if_pos hj]
    · rw [if_neg (by omega : ¬ (_ ∧ _)), if_neg hj, hino _ (by omega), hused _ (by omega)]

theorem addDirent_some {m m' : Mem} {name : CString} {ino : Nat} (hn : name.bytes.length < 29)
    (h : addDirent m name ino = some m') :
    ∃ d, d < 128 ∧ ((view m).dirent d).used = 0 ∧
      (∀ e, e < d → ((view m).dirent e).used ≠ 0) ∧
      view m' = { view m with
        dirent := Function.update (view m).dirent d (((view m).dirent d).named name ino) } := by
  unfold addDirent at h
  split at h
  · cases h
  · rename_i d hd
    cases h
    obtain ⟨hused, hmem, hlow⟩ := List.find?_range_eq_some.mp hd
    have hd' : d < 128 := by simpa using hmem
    refine ⟨d, hd', ?_, fun e he => ?_, ?_⟩
    · rw [direntUsed_eq hd'] at hused
      simpa using hused
    · have h' := hlow e he
      rw [direntUsed_eq (by omega)] at h'
      simpa using h'
    · dsimp only [sizeofDirentName]
      have hf : Frame m (strncpy (setDirentInode (setDirentUsed m d 1) d ino)
          (direntAddr d + 3) name 29) (direntAddr d) (direntAddr d + 32) :=
        ((update_frame _ _ _).mono (by omega) (by omega)).trans
          (((storeLE_frame _ _ _ _).mono (by omega) (by omega)).trans
            ((strncpy_frame _ _ _ hn).mono (by omega) (by omega)))
      rw [view_of_dirent_frame hd' hf, direntAt_addDirent _ _ _ hn, view_dirent hd']

theorem addDirent_none {m : Mem} {name : CString} {ino : Nat} :
    addDirent m name ino = none ↔ ∀ d, d < 128 → ((view m).dirent d).used ≠ 0 := by
  have hscan : addDirent m name ino = none ↔
      (List.range 128).find? (fun i => direntUsed m i == 0) = none := by
    unfold addDirent
    split
    · rename_i h; exact ⟨fun _ => h, fun _ => rfl⟩
    · rename_i h; exact ⟨nofun, fun h' => nomatch h.symm.trans h'⟩
  rw [hscan, List.find?_range_eq_none]
  constructor
  · intro h d hd
    rw [← direntUsed_eq hd]
    simpa using h d hd
  · intro h d hd
    rw [direntUsed_eq hd]
    simpa using h d hd

/-! ## Finding a name -/

/-- The name of a directory entry, as a string. -/
def Dirent.str (e : Dirent) : List Byte := read e.name 29

/-- Every used entry holds the terminator of its name. -/
def NamesTerminated (t : Tables) : Prop :=
  ∀ d, d < 128 → (t.dirent d).used ≠ 0 → (t.dirent d).str.length < 29

theorem strcmp_direntName {m : Mem} {d : Nat} (hd : d < 128)
    (ht : ((view m).dirent d).str.length < 29) (name : CString) :
    strcmp (direntName m d) name.bytes = 0 ↔ ((view m).dirent d).str = name.bytes := by
  rw [strcmp_eq_zero_iff _ name.noNul]
  have hspell : Spells (direntName m d) ((view m).dirent d).str :=
    (spells_congr fun j hj => direntName_eq hd (by omega)).mpr (spells_read ht)
  constructor
  · intro h
    exact spells_unique (read_ne_zero _ _) name.noNul hspell h
  · intro h
    rwa [← h]

theorem findDirent_some {m : Mem} (ht : NamesTerminated (view m)) {name : CString} {d : Nat}
    (h : findDirent m name = some d) :
    d < 128 ∧ ((view m).dirent d).used ≠ 0 ∧ ((view m).dirent d).str = name.bytes := by
  obtain ⟨hp, hmem, -⟩ := List.find?_range_eq_some.mp h
  have hd : d < 128 := by simpa using hmem
  rw [Bool.and_eq_true, direntUsed_eq hd, bne_iff_ne, beq_iff_eq] at hp
  exact ⟨hd, hp.1, (strcmp_direntName hd (ht d hd hp.1) name).mp hp.2⟩

theorem findDirent_none {m : Mem} (ht : NamesTerminated (view m)) {name : CString} :
    findDirent m name = none ↔
      ∀ d, d < 128 → ((view m).dirent d).used ≠ 0 → ((view m).dirent d).str ≠ name.bytes := by
  unfold findDirent
  rw [List.find?_range_eq_none]
  constructor
  · intro h d hd hu hs
    have hd' := h d hd
    rw [direntUsed_eq hd, (strcmp_direntName hd (ht d hd hu) name).mpr hs,
      bne_iff_ne.mpr hu] at hd'
    cases hd'
  · intro h d hd
    by_cases hu : ((view m).dirent d).used = 0
    · simp [direntUsed_eq hd, hu]
    · have hne := h d hd hu
      have hcmp : strcmp (direntName m d) name.bytes ≠ 0 :=
        fun h0 => hne ((strcmp_direntName hd (ht d hd hu) name).mp h0)
      simp [hcmp]

end SengOs.Fs
