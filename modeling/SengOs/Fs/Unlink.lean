import SengOs.Fs.Open

/-!
# `fs_unlink`

`Tables.unlink` is what a successful `fs_unlink` does to the tables: the blocks of the file
are marked free, its inode and its directory entry become all zero. It keeps the invariant
because no other file points to the freed blocks and no open descriptor is on the file.
-/

namespace SengOs.Fs

open ByteMemory CString

/-- One of the first `n` block pointers of inode `i` is the data block `b`. -/
def Tables.pointsTo (t : Tables) (i n b : Nat) : Bool :=
  decide (5 ≤ b) && (List.range n).any fun k => (t.inode i).blocks k == b

/-- The tables after `fs_unlink` removed the file in inode `i` with entry `d`. -/
def Tables.unlink (t : Tables) (i d : Nat) : Tables :=
  { t with
    inodeBit := Function.update t.inodeBit i false
    blockBit := fun b => t.blockBit b && !t.pointsTo i 8 b
    inode := Function.update t.inode i Inode.zero
    dirent := Function.update t.dirent d Dirent.zero }

theorem Tables.pointsTo_iff {t : Tables} {i n b : Nat} :
    t.pointsTo i n b = true ↔ 5 ≤ b ∧ ∃ k, k < n ∧ (t.inode i).blocks k = b := by
  simp [pointsTo]

section Unlink

variable {t : Tables} {fds : Nat → File} {i d : Nat}

theorem Tables.unlink_inode_self : (t.unlink i d).inode i = Inode.zero :=
  Function.update_self ..

theorem Tables.unlink_inode_ne {j : Nat} (hj : j ≠ i) : (t.unlink i d).inode j = t.inode j :=
  Function.update_of_ne hj ..

theorem Tables.unlink_dirent_self : (t.unlink i d).dirent d = Dirent.zero :=
  Function.update_self ..

theorem Tables.unlink_dirent_ne {e : Nat} (he : e ≠ d) :
    (t.unlink i d).dirent e = t.dirent e :=
  Function.update_of_ne he ..

theorem Tables.unlink_isFile (j : Nat) : (t.unlink i d).IsFile j ↔ j ≠ i ∧ t.IsFile j := by
  by_cases hj : j = i
  · subst hj
    refine iff_of_false (fun h => ?_) (fun h => h.1 rfl)
    have hu := h.2.2
    rw [unlink_inode_self] at hu
    exact absurd hu (by decide)
  · simp only [IsFile, unlink_inode_ne hj, ne_eq, hj, not_false_iff, true_and]

theorem Tables.unlink_isEntry (e : Nat) : (t.unlink i d).IsEntry e ↔ e ≠ d ∧ t.IsEntry e := by
  by_cases he : e = d
  · subst he
    refine iff_of_false (fun h => h.2 ?_) (fun h => h.1 rfl)
    rw [unlink_dirent_self]; rfl
  · simp only [IsEntry, unlink_dirent_ne he, ne_eq, he, not_false_iff, true_and]

theorem InodeSound.unlink (h : InodeSound t) (hi : t.IsFile i) : InodeSound (t.unlink i d) where
  inodeBit_iff j hj := by
    by_cases hji : j = i
    · subst hji
      rw [Tables.unlink_inode_self]
      exact iff_of_false (by simp [Tables.unlink]) (by decide)
    · rw [Tables.unlink_inode_ne hji, ← h.inodeBit_iff j hj]
      exact iff_of_eq (congrArg (· = true) (Function.update_of_ne hji ..))
  root_used := by rw [Tables.unlink_inode_ne (by have := hi.1; omega)]; exact h.root_used
  root_dir := by rw [Tables.unlink_inode_ne (by have := hi.1; omega)]; exact h.root_dir
  file_type j hj := by
    obtain ⟨hji, hj⟩ := (Tables.unlink_isFile j).mp hj
    rw [Tables.unlink_inode_ne hji]
    exact h.file_type j hj
  free_inode j hj hu := by
    by_cases hji : j = i
    · subst hji; exact Tables.unlink_inode_self
    · rw [Tables.unlink_inode_ne hji] at hu ⊢
      exact h.free_inode j hj hu

theorem DirSound.unlink (h : DirSound t) (hd : t.IsEntry d) (hdi : (t.dirent d).inode = i) :
    DirSound (t.unlink i d) := by
  -- an entry that stays names another inode, by injectivity
  have hother : ∀ {e}, e ≠ d → t.IsEntry e → (t.dirent e).inode ≠ i :=
    fun hed he hei => hed (h.entry_inj _ _ he hd (hei.trans hdi.symm))
  constructor
  · intro e he
    obtain ⟨hed, he⟩ := (Tables.unlink_isEntry e).mp he
    rw [Tables.unlink_dirent_ne hed]; exact h.entry_used e he
  · intro e he
    obtain ⟨hed, he⟩ := (Tables.unlink_isEntry e).mp he
    rw [Tables.unlink_dirent_ne hed]
    exact (Tables.unlink_isFile _).mpr ⟨hother hed he, h.entry_file e he⟩
  · intro e he hu
    by_cases hed : e = d
    · subst hed; exact Tables.unlink_dirent_self
    · rw [Tables.unlink_dirent_ne hed] at hu ⊢
      exact h.free_dirent e he hu
  · intro e f he hf heq
    obtain ⟨hed, he⟩ := (Tables.unlink_isEntry e).mp he
    obtain ⟨hfd, hf⟩ := (Tables.unlink_isEntry f).mp hf
    rw [Tables.unlink_dirent_ne hed, Tables.unlink_dirent_ne hfd] at heq
    exact h.entry_inj e f he hf heq
  · intro j hj
    obtain ⟨hji, hj⟩ := (Tables.unlink_isFile j).mp hj
    obtain ⟨e, he, hej⟩ := h.file_entry j hj
    have hed : e ≠ d := fun hed => hji (by rw [← hej, hed, hdi])
    exact ⟨e, (Tables.unlink_isEntry e).mpr ⟨hed, he⟩, by rw [Tables.unlink_dirent_ne hed, hej]⟩
  · intro e he
    obtain ⟨hed, he⟩ := (Tables.unlink_isEntry e).mp he
    rw [Tables.unlink_dirent_ne hed]; exact h.name_pos e he
  · intro e he
    obtain ⟨hed, he⟩ := (Tables.unlink_isEntry e).mp he
    rw [Tables.unlink_dirent_ne hed]; exact h.name_le e he
  · intro e f he hf heq
    obtain ⟨hed, he⟩ := (Tables.unlink_isEntry e).mp he
    obtain ⟨hfd, hf⟩ := (Tables.unlink_isEntry f).mp hf
    rw [Tables.unlink_dirent_ne hed, Tables.unlink_dirent_ne hfd] at heq
    exact h.name_inj e f he hf heq
  · intro e he
    obtain ⟨hed, he⟩ := (Tables.unlink_isEntry e).mp he
    rw [Tables.unlink_dirent_ne hed, Tables.unlink_inode_ne (hother hed he)]
    exact h.name_inode e he

theorem BlockSound.unlink (h : BlockSound t) (hi : t.IsFile i) : BlockSound (t.unlink i d) := by
  constructor
  · intro j k hj hk hb
    obtain ⟨hji, hj⟩ := (Tables.unlink_isFile j).mp hj
    rw [Tables.unlink_inode_ne hji] at hb ⊢
    exact h.block_range j k hj hk hb
  · intro j k j' l hj hj' hk hl hb heq
    obtain ⟨hji, hj⟩ := (Tables.unlink_isFile j).mp hj
    obtain ⟨hji', hj'⟩ := (Tables.unlink_isFile j').mp hj'
    rw [Tables.unlink_inode_ne hji] at hb heq
    rw [Tables.unlink_inode_ne hji'] at heq
    exact h.block_inj j k j' l hj hj' hk hl hb heq
  · intro b hb
    have hbit : (t.unlink i d).blockBit b = true ↔
        t.blockBit b = true ∧ ¬ t.pointsTo i 8 b = true := by
      simp [Tables.unlink]
    rw [hbit, h.blockBit_iff b hb, Tables.pointsTo_iff]
    constructor
    · rintro ⟨h5 | ⟨j, k, hj, hk, hjk⟩, hnot⟩
      · exact Or.inl h5
      · by_cases h5 : b < 5
        · exact Or.inl h5
        · have hji : j ≠ i := by
            rintro rfl
            exact hnot ⟨by omega, k, hk, hjk⟩
          exact Or.inr ⟨j, k, (Tables.unlink_isFile j).mpr ⟨hji, hj⟩, hk,
            by rw [Tables.unlink_inode_ne hji, hjk]⟩
    · rintro (h5 | ⟨j, k, hj, hk, hjk⟩)
      · exact ⟨Or.inl h5, fun hp => by omega⟩
      · obtain ⟨hji, hj⟩ := (Tables.unlink_isFile j).mp hj
        rw [Tables.unlink_inode_ne hji] at hjk
        refine ⟨Or.inr ⟨j, k, hj, hk, hjk⟩, fun ⟨h5, l, hl, hil⟩ => ?_⟩
        have hne : (t.inode j).blocks k ≠ 0 := by omega
        exact hji (h.block_inj j k i l hj hi hk hl hne (hjk.trans hil.symm)).1

theorem ExtentSound.unlink (h : ExtentSound t) : ExtentSound (t.unlink i d) := by
  constructor
  · intro j hj
    obtain ⟨hji, hj⟩ := (Tables.unlink_isFile j).mp hj
    rw [Tables.unlink_inode_ne hji]; exact h.size_le j hj
  · intro j k hj hk
    obtain ⟨hji, hj⟩ := (Tables.unlink_isFile j).mp hj
    rw [Tables.unlink_inode_ne hji]; exact h.block_iff j k hj hk
  · intro j k o hj hk hb ho hs
    obtain ⟨hji, hj⟩ := (Tables.unlink_isFile j).mp hj
    rw [Tables.unlink_inode_ne hji] at hb hs ⊢
    exact h.tail_zero j k o hj hk hb ho hs

theorem FdSound.unlink (h : FdSound t fds)
    (hclosed : ∀ n, n < 32 → (fds n).used ≠ 0 → (fds n).inode ≠ i) :
    FdSound (t.unlink i d) fds where
  fd_sound n hn := by
    obtain ⟨hused, hfile, hoff, hzero⟩ := h.fd_sound n hn
    refine ⟨hused, fun hu => (Tables.unlink_isFile _).mpr ⟨hclosed n hn hu, hfile hu⟩,
      fun hu => ?_, hzero⟩
    rw [Tables.unlink_inode_ne (hclosed n hn hu)]
    exact hoff hu

theorem Sound.unlink (h : Sound t fds) (hd : t.IsEntry d) (hdi : (t.dirent d).inode = i)
    (hclosed : ∀ n, n < 32 → (fds n).used ≠ 0 → (fds n).inode ≠ i) :
    Sound (t.unlink i d) fds := by
  have hi : t.IsFile i := hdi ▸ h.entry_file d hd
  exact ⟨h.toInodeSound.unlink hi, h.toDirSound.unlink hd hdi, h.toBlockSound.unlink hi,
    h.toExtentSound.unlink, h.toFdSound.unlink hclosed⟩

end Unlink

/-! ## The function -/

section Function

/-- After `n` rounds of the freeing loop the first `n` blocks of the inode are free. The
induction is on the rounds; the pointers read in a round are those of the start, because
freeing a block changes the bitmap only. -/
theorem view_freeBlocks {m : Mem} {i : Nat} (hi : i < 64)
    (hrange : ∀ k, k < 8 → ((view m).inode i).blocks k ≠ 0 →
      5 ≤ ((view m).inode i).blocks k ∧ ((view m).inode i).blocks k < 256)
    {n : Nat} (hn : n ≤ 8) :
    view (freeBlocks m i n) = { view m with
      blockBit := fun b => (view m).blockBit b && !(view m).pointsTo i n b } := by
  induction n with
  | zero => simp [freeBlocks, Tables.pointsTo]
  | succ n ih =>
    have ih := ih (by omega)
    have hread : inodeBlock (freeBlocks m i n) i n = ((view m).inode i).blocks n := by
      rw [inodeBlock_eq hi (by omega), ih]
    have hstep : ∀ b, (view m).pointsTo i (n + 1) b =
        ((view m).pointsTo i n b || (decide (5 ≤ b) && ((view m).inode i).blocks n == b)) := by
      intro b
      simp only [Tables.pointsTo, List.range_succ, List.any_append, List.any_cons, List.any_nil,
        Bool.or_false, Bool.and_or_distrib_left]
    simp only [freeBlocks, hread]
    split
    · rename_i hne
      obtain ⟨h5, h256⟩ := hrange n (by omega) hne
      rw [view_freeBlock _ h5 h256, ih]
      refine Tables.ext rfl ?_ rfl rfl rfl
      funext b
      dsimp only
      rw [hstep]
      by_cases hb : b = ((view m).inode i).blocks n
      · subst hb; simp [h5]
      · have hb' : (((view m).inode i).blocks n == b) = false := by simpa using Ne.symm hb
        rw [Function.update_of_ne hb, hb', Bool.and_false, Bool.or_false]
    · rename_i hzero
      rw [ih]
      refine Tables.ext rfl ?_ rfl rfl rfl
      funext b
      dsimp only
      rw [hstep]
      have hb : (decide (5 ≤ b) && ((view m).inode i).blocks n == b) = false := by
        rw [not_not.mp hzero]
        by_cases h0 : b = 0
        · subst h0; rfl
        · simp [Ne.symm h0]
      rw [hb, Bool.or_false]

variable {s : FsState}

theorem fsUnlink_cases (h : Sound (view s.ramdisk) s.fds) (name : CString) :
    (fsUnlink s name = (-1, s) ∧
      ∀ d, (view s.ramdisk).IsEntry d → ((view s.ramdisk).dirent d).str ≠ name.bytes) ∨
    ∃ d i, (view s.ramdisk).IsEntry d ∧ ((view s.ramdisk).dirent d).str = name.bytes ∧
      ((view s.ramdisk).dirent d).inode = i ∧
      ((fsUnlink s name = (-2, s) ∧ ∃ n, s.IsOpen n ∧ (s.fds n).inode = i) ∨
       (∀ n, s.IsOpen n → (s.fds n).inode ≠ i) ∧
        ∃ m, fsUnlink s name = (0, { s with ramdisk := m }) ∧
          view m = (view s.ramdisk).unlink i d) := by
  unfold fsUnlink
  cases hfind : findDirent s.ramdisk name with
  | none =>
    rw [findDirent_none h.terminated] at hfind
    exact Or.inl ⟨rfl, fun d hd => hfind d hd.1 hd.2⟩
  | some d =>
    obtain ⟨hd, hu, hs⟩ := findDirent_some h.terminated hfind
    have hentry : (view s.ramdisk).IsEntry d := ⟨hd, hu⟩
    have hfile := h.entry_file d hentry
    have hi := hfile.1
    have hi' := hfile.2.1
    refine Or.inr ⟨d, _, hentry, hs, rfl, ?_⟩
    have hguard : ¬ (((view s.ramdisk).dirent d).inode = fsRootInode ∨
        ((view s.ramdisk).dirent d).inode ≥ fsMaxInodes) := by
      simp only [fsRootInode, fsMaxInodes]; omega
    dsimp only
    rw [direntInode_eq hd, if_neg hguard]
    split
    · rename_i hopen
      obtain ⟨n, hn, hp⟩ := List.any_eq_true.mp hopen
      rw [Bool.and_eq_true, bne_iff_ne, beq_iff_eq] at hp
      exact Or.inl ⟨rfl, n, ⟨by simpa using hn, hp.1⟩, hp.2⟩
    · rename_i hopen
      refine Or.inr ⟨fun n hn hni => hopen (List.any_eq_true.mpr ⟨n, by simpa using hn.1, ?_⟩),
        _, rfl, ?_⟩
      · rw [Bool.and_eq_true, bne_iff_ne, beq_iff_eq]
        exact ⟨hn.2, hni⟩
      · have hrange := fun k hk => h.block_range _ k hfile hk
        rw [view_removeDirent _ hd, view_freeInode _ hi hi', fsDirect,
          view_freeBlocks hi' hrange le_rfl]
        rfl

end Function

end SengOs.Fs
